import NexusAi.Customers.Founding

/-!
# One owner, and what a revoked identity does to it

The mapping of a row fails on the status that a revoked identity has. As long as
no call resolves such a row, every call is answered with the owner.
-/

namespace NexusAi.Customers

namespace World

/-- The identity that a call resolves, if there is one, has not been revoked. -/
def live (w : World) : Action → Bool
  | .read i | .reread i => match w.calls[i]? with
    | some c => (w.tables.resolve c.canonical).all fun row => row.status = "ACTIVE"
    | none => true
  | _ => true

/-- No call of `resolve_or_create` has failed on its own. -/
def Unraised (w : World) : Prop :=
  ∀ c ∈ w.calls, c.customerId = none → ∀ error, c.phase = .raised error → error = .invalid

section Steps

variable {w : World} {normalize : IdentityRequest → Option String}

theorem Owned.loadOwner (hw : w.Owned) {r : IdentityRow} (hr : r ∈ w.tables.identities) :
    ∃ customer, w.tables.loadOwner r.customerId = .ok customer := by
  have hlt := hw.owners r hr
  obtain ⟨row,hrow,hid⟩ : ∃ row ∈ w.tables.customers, row.id = r.customerId := by
    have hmem : r.customerId ∈ w.tables.customers.map CustomerRow.id := by
      rw [hw.customers]
      exact List.mem_range.mpr hlt
    exact List.mem_map.mp hmem
  have hkeyed : Table.Keyed CustomerRow.id w.tables.customers := by
    rw [Table.Keyed,hw.customers]
    exact List.nodup_range
  have hfind : w.tables.customer r.customerId = some row := hid ▸ Table.find_of_mem hkeyed hrow
  refine ⟨⟨row.id,row.displayName,.active⟩,?_⟩
  have hmapped : toCustomer row = some ⟨row.id,row.displayName,.active⟩ := by
    simp only [toCustomer,hw.active row hrow]
    rfl
  simp [Tables.loadOwner,hfind,hmapped]

theorem Owned.foundAnswer (hw : w.Owned) {c : Call} {row : IdentityRow}
    (hrow : w.tables.resolve c.canonical = some row) (hlive : row.status = "ACTIVE")
    (hcustomer : c.customerId = none) (other : CallPhase) :
    ∃ customer, w.tables.foundAnswer c row other = .resolved customer false := by
  obtain ⟨customer,howner⟩ := hw.loadOwner (Tables.resolve_some hrow).1
  have hmapped : toIdentity row = some ⟨row.id,row.customerId,row.identityType,
      row.normalizedValue,row.verificationState,row.isPrimary,row.source,.active⟩ := by
    simp only [toIdentity,hlive]
    rfl
  exact ⟨customer,by simp [Tables.foundAnswer,hmapped,hcustomer,howner]⟩

variable {i : ℕ}

theorem unraised_enter (h : w.Unraised) {phase : CallPhase} {t : Tables}
    (hphase : ∀ c, w.calls[i]? = some c → c.customerId = none →
      ∀ error, phase = .raised error → error = .invalid) :
    Unraised ({ w with tables := t }.enter i phase) := by
  intro c hc hcustomer error herror
  obtain ⟨j,hj⟩ := List.getElem?_of_mem hc
  rcases Batch.modify_cases hj with ⟨d,hd,rfl,rfl⟩ | ⟨-,hold⟩
  · exact hphase d hd hcustomer error herror
  · exact h c (List.mem_of_getElem? hold) hcustomer error herror

theorem unraised_read (hw : w.Owned) (h : w.Unraised) (hlive : w.live (.read i)) :
    (w.readStep i).Unraised := by
  unfold readStep
  split
  · rename_i customerId displayName canonical source hi
    simp only [live,hi] at hlive
    simp only
    split
    · rename_i error _ hrefusal
      refine unraised_enter (t := w.tables) h fun d hd hcustomer => ?_
      rw [hi] at hd
      rw [← Option.some.inj hd] at hcustomer
      cases hcustomer
      cases hrefusal
    · rename_i hrow
      refine unraised_enter (t := w.tables) h fun d hd hcustomer error herror => ?_
      rw [hi] at hd
      rw [← Option.some.inj hd] at hcustomer
      rw [hrow] at hlive
      simp only [Option.all_some,decide_eq_true_eq] at hlive
      obtain ⟨_,hanswer⟩ := hw.foundAnswer
        (c := ⟨customerId,displayName,canonical,source,.started⟩) hrow hlive hcustomer .conflicted
      rw [hanswer] at herror
      cases herror
    · exact unraised_enter (t := w.tables) h fun _ _ _ _ herror => by cases herror
  · exact h

theorem unraised_insert (h : w.Unraised) (i : ℕ) : (w.insertStep i).Unraised := by
  unfold insertStep
  split
  · rename_i customerId displayName canonical source _
    simp only
    split
    · exact unraised_enter (t := w.tables) h fun _ _ _ _ herror => by cases herror
    · have hanswer := insertedAnswer_eq w.tables ⟨customerId,displayName,canonical,source,.missing⟩
      split
      · rename_i error herror
        rw [hanswer] at herror
        cases customerId <;> cases herror
      · refine unraised_enter h fun _ _ _ error herror => ?_
        rw [hanswer] at herror
        cases customerId <;> cases herror
  · exact h

theorem unraised_reread (hw : w.Owned) (h : w.Unraised)
    (hlive : w.live (.reread i)) : (w.rereadStep i).Unraised := by
  unfold rereadStep
  split
  · rename_i customerId displayName canonical source hi
    simp only [live,hi] at hlive
    split
    · rename_i hrow
      refine unraised_enter (t := w.tables) h fun d hd hcustomer error herror => ?_
      rw [hi] at hd
      rw [← Option.some.inj hd] at hcustomer
      rw [hrow] at hlive
      simp only [Option.all_some,decide_eq_true_eq] at hlive
      obtain ⟨_,hanswer⟩ := hw.foundAnswer
        (c := ⟨customerId,displayName,canonical,source,.conflicted⟩) hrow hlive hcustomer
        (.raised .identityConflict)
      rw [hanswer] at herror
      cases herror
    · -- the identity that it lost to is still there
      rename_i hnone
      obtain ⟨r,hr,hcanonical⟩ := hw.answered _ (List.mem_of_getElem? hi)
      exact absurd hcanonical (Tables.resolve_none hnone r hr)
  · exact h

theorem unraised_start (h : w.Unraised) (customerId : Option ℕ) (displayName : String)
    (request : IdentityRequest) :
    (w.startStep normalize customerId displayName request).Unraised := by
  intro c hc hcustomer error herror
  rcases Table.mem_concat hc with hold | rfl
  · exact h c hold hcustomer error herror
  · split at herror
    · cases herror
    · cases herror
      rfl

theorem Unraised.step (hw : w.Owned) (h : w.Unraised) {a : Action} (hlive : w.live a) :
    (w.step normalize a).Unraised := by
  cases a with
  | resolveOrCreate displayName request => exact unraised_start h none displayName request
  | linkIdentity customerId request => exact unraised_start h (some customerId) "" request
  | read => exact unraised_read hw h hlive
  | insert i => exact unraised_insert h i
  | reread => exact unraised_reread hw h hlive
  | abort =>
    simp only [World.step,abortStep]
    split
    · exact unraised_enter (t := w.tables) h fun _ _ _ _ herror => by cases herror
    · exact unraised_enter (t := w.tables) h fun _ _ _ _ herror => by cases herror
    · exact unraised_enter (t := w.tables) h fun _ _ _ _ herror => by cases herror
    · exact h
  | setVerificationState => exact h

theorem enter_asked {c c' : Call} {phase : CallPhase} {t : Tables}
    (hi : w.calls[i]? = some c)
    (hc' : ({ w with tables := t }.enter i phase).calls[i]? = some c') :
    c'.customerId = c.customerId ∧ c'.canonical = c.canonical := by
  rcases Batch.modified hi hc' with ⟨-,rfl⟩ | ⟨hne,-⟩
  · exact ⟨rfl,rfl⟩
  · exact absurd rfl hne

theorem step_found {c : Call} (hi : w.calls[i]? = some c) {row : IdentityRow}
    (hrow : w.tables.resolve c.canonical = some row) {a : Action}
    (ha : a ∈ [.read i,.insert i,.reread i]) :
    (w.step normalize a).tables = w.tables ∧ ∀ c', (w.step normalize a).calls[i]? = some c' →
      c'.customerId = c.customerId ∧ c'.canonical = c.canonical := by
  have hsame : ∀ c', w.calls[i]? = some c' →
      c'.customerId = c.customerId ∧ c'.canonical = c.canonical := by
    intro c' hc'
    rw [hi] at hc'
    cases hc'
    exact ⟨rfl,rfl⟩
  have henter : ∀ phase, (w.enter i phase).tables = w.tables ∧
      ∀ c', (w.enter i phase).calls[i]? = some c' →
        c'.customerId = c.customerId ∧ c'.canonical = c.canonical :=
    fun phase => ⟨rfl,fun c' hc' => enter_asked (t := w.tables) hi hc'⟩
  simp only [List.mem_cons,List.not_mem_nil,or_false] at ha
  rcases ha with rfl | rfl | rfl
  · simp only [World.step,readStep]
    split
    · split <;> exact henter _
    · exact ⟨rfl,hsame⟩
  · simp only [World.step,insertStep]
    split
    · rename_i hi'
      rw [hi] at hi'
      cases hi'
      rw [hrow]
      exact henter _
    · exact ⟨rfl,hsame⟩
  · simp only [World.step,rereadStep]
    split
    · split <;> exact henter _
    · exact ⟨rfl,hsame⟩

theorem Owned.link_refused (hw : w.Owned) {c : Call} {customerId : ℕ}
    (hi : w.calls[i]? = some c) (hcustomer : c.customerId = some customerId) {r : IdentityRow}
    (hr : r ∈ w.tables.identities) (hcanonical : r.canonical = c.canonical)
    (hother : r.customerId ≠ customerId) (a : Action) (ha : a ∈ [.read i,.insert i,.reread i]) :
    (w.step normalize a).tables = w.tables ∧
      ∀ c', (w.step normalize a).calls[i]? = some c' → ∀ identity, c'.phase ≠ .linked identity := by
  obtain ⟨row,hrow⟩ : ∃ row, w.tables.resolve c.canonical = some row := by
    cases hresolve : w.tables.resolve c.canonical with
    | some row => exact ⟨row,rfl⟩
    | none => exact absurd hcanonical (Tables.resolve_none hresolve r hr)
  obtain ⟨htables,hasked⟩ := @step_found w normalize i c hi row hrow a ha
  refine ⟨htables,fun c' hc' identity hlinked => ?_⟩
  obtain ⟨hcustomer',hcanonical'⟩ := hasked c' hc'
  have hanswered := (hw.moved (step_moves normalize w a)).answered c' (List.mem_of_getElem? hc')
  unfold Answered at hanswered
  rw [hlinked,htables] at hanswered
  obtain ⟨s,hs,hscanonical,-,howner⟩ := hanswered
  have hsame : s = r := Table.mem_unique hw.unique hs hr
    ((hscanonical.trans hcanonical').trans hcanonical.symm)
  rw [hcustomer',hcustomer,hsame] at howner
  exact hother (Option.some.inj howner).symm

end Steps

end World

/-- In every run, an identity value has one row, which keeps its owner; every answered
`resolve_or_create` call of a value got that owner; the row came about once, by the one
call that reported a creation with its one event or by a link; a link of a value of
another customer is refused and leaves nothing. Where no call resolves a revoked row,
no `resolve_or_create` call fails. -/
theorem one_owner (normalize : IdentityRequest → Option String) (before after : List Action) :
    (∀ r ∈ (World.reach normalize before).tables.identities,
      ∃ r' ∈ (World.reach normalize (before++after)).tables.identities,
        r'.canonical = r.canonical ∧ r'.customerId = r.customerId) ∧
    (∀ r ∈ (World.reach normalize before).tables.identities,
      ∀ s ∈ (World.reach normalize before).tables.identities,
        r.canonical = s.canonical → r = s) ∧
    (∀ c ∈ (World.reach normalize before).calls, ∀ customer created,
      c.phase = .resolved customer created →
        ∃ r ∈ (World.reach normalize before).tables.identities,
          r.canonical = c.canonical ∧ r.customerId = customer.id) ∧
    (∀ r ∈ (World.reach normalize before).tables.identities,
      (World.reach normalize before).Founded r) ∧
    (∀ (i : ℕ) c customerId, (World.reach normalize before).calls[i]? = some c →
      c.customerId = some customerId →
      (∃ r ∈ (World.reach normalize before).tables.identities,
        r.canonical = c.canonical ∧ r.customerId ≠ customerId) →
      ∀ a ∈ [Action.read i,.insert i,.reread i],
        ((World.reach normalize before).step normalize a).tables =
          (World.reach normalize before).tables ∧
        ∀ c', ((World.reach normalize before).step normalize a).calls[i]? = some c' →
          ∀ identity, c'.phase ≠ .linked identity) ∧
    (Run.Conforms (World.step normalize) (fun w a => w.live a) before World.initial →
      ∀ c ∈ (World.reach normalize before).calls, c.customerId = none →
        ∀ error, c.phase = .raised error → error = .invalid) := by
  have hw := World.owned_reach normalize before
  refine ⟨?_,fun r hr s hs hsame => Table.mem_unique hw.unique hr hs hsame,?_,hw.founded,?_,?_⟩
  · have hkept := Run.exec_related (World.step normalize) (fun _ => True)
      (fun w w' => World.Kept w.tables w'.tables) (fun _ _ h => h) (fun w => World.Kept.refl _)
      (fun _ _ _ h h' => h.trans h') (fun w a _ => World.moves_kept (World.step_moves normalize w a))
      after (World.reach normalize before) trivial
    intro r hr
    obtain ⟨r',hr',-,hcanonical,howner⟩ := hkept.identities r hr
    refine ⟨r',?_,hcanonical,howner⟩
    rw [World.reach,Run.exec_append]
    exact hr'
  · intro c hc customer created hphase
    have hanswered := hw.answered c hc
    unfold Answered at hanswered
    rw [hphase] at hanswered
    exact hanswered.2
  · rintro i c _ hi hcustomer ⟨r,hr,hcanonical,hother⟩ a ha
    exact hw.link_refused hi hcustomer hr hcanonical hother a ha
  · intro hlive
    have hboth := Run.exec_conforming (World.step normalize) (fun w a => w.live a)
      (fun w => w.Owned ∧ w.Unraised)
      (fun w a hok h => ⟨h.1.moved (World.step_moves normalize w a),h.2.step h.1 hok⟩) before
      World.initial hlive ⟨World.owned_initial,by simp [World.Unraised,World.initial]⟩
    exact hboth.2

def sampleIdentity : IdentityRequest := ⟨.email,"ann@x","manual",none⟩

/-- Two calls that race for a value, and one that comes later. -/
def racedRun : List Action :=
  [.resolveOrCreate "Ann" sampleIdentity,.resolveOrCreate "Ann" sampleIdentity,.read 0,.read 1,
    .insert 0,.insert 1,.reread 1,.resolveOrCreate "Ann" sampleIdentity,.read 2]

def asGiven (request : IdentityRequest) : Option String := some request.identityValue

theorem racedRun_owned :
    (∀ c ∈ (World.reach asGiven racedRun).calls, c.customerId = none →
      ∀ error, c.phase = .raised error → error = .invalid) ∧
    (World.reach asGiven racedRun).calls.map Call.phase =
      [.resolved ⟨0,"Ann",.active⟩ true,.resolved ⟨0,"Ann",.active⟩ false,
        .resolved ⟨0,"Ann",.active⟩ false] ∧
    (World.reach asGiven racedRun).tables.outbox = [.created 0 0] :=
  ⟨(one_owner asGiven racedRun []).2.2.2.2.2 (by decide +kernel),by decide +kernel,
    by decide +kernel⟩

/-- Once an identity has been revoked, its row cannot be read any more: the call that
resolves it fails, and so does the one that would verify it again. -/
theorem revokedRun_fails :
    (World.reach asGiven (racedRun++[.setVerificationState 0 .revoked,
      .resolveOrCreate "Ann" sampleIdentity,.read 3])).calls.map Call.phase =
        [.resolved ⟨0,"Ann",.active⟩ true,.resolved ⟨0,"Ann",.active⟩ false,
          .resolved ⟨0,"Ann",.active⟩ false,.raised .valueError] ∧
    (World.reach asGiven (racedRun++[.setVerificationState 0 .revoked,
      .setVerificationState 0 .verified])).tables.identities.map
        (fun r => (r.verificationState,r.status)) = [(.revoked,"REVOKED")] := by
  decide +kernel

end NexusAi.Customers
