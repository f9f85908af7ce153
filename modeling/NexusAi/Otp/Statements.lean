import NexusAi.Otp.Soundness

/-!
# The statements one by one

The statements up to the commit move one call and leave the rows alone.
-/

namespace NexusAi.Otp

variable {D : Type} {rows : List (Challenge D)}

theorem byId_some {organizationId id : ℕ} {row : Challenge D}
    (h : byId organizationId id rows = some row) :
    row ∈ rows ∧ row.organizationId = organizationId ∧ row.id = id := by
  have hfound := List.find?_some h
  rw [decide_eq_true_eq] at hfound
  exact ⟨List.mem_of_find?_eq_some h,hfound⟩

theorem draft_of_count {p : Phase D} {draft : Draft} {issued : ℕ}
    (h : p.count = some (draft,issued)) : p.draft = some draft := by
  cases p <;> cases h <;> rfl

variable [DecidableEq D]

theorem activeForSubject_some {subject : ℕ × D × OtpPurpose} {row : Challenge D}
    (h : activeForSubject subject rows = some row) :
    row ∈ rows ∧ row.subject = subject ∧ row.status = .active := by
  have hfound := List.find?_some h
  rw [decide_eq_true_eq] at hfound
  exact ⟨List.mem_of_find?_eq_some h,hfound⟩

namespace World

variable {service : Service D} {w : World D} {a : Action} {i : ℕ} {c : Call D}

theorem Sound.proceeds (h : w.Sound service) (hi : w.calls[i]? = some c) {draft : Draft}
    (hdraft : c.phase.draft = some draft) {p : Phase D} (hquiet : p.quiet)
    (hp : p.draft = some draft ∨ p.early = false) : (w.enter i p).Sound service := by
  refine h.released hi hquiet ?_ ?_
  · intro d hd
    have hown : p.draft = some draft := by
      refine hp.resolve_right fun hlate => ?_
      simp [Phase.early,hd] at hlate
    rw [hown] at hd
    cases hd
    exact (h.fits i c hi).drawn draft hdraft
  · intro _
    simp [Phase.early,hdraft]

section Drafts

variable {draft : Draft}

section

variable (h : w.Sound service) (hi : w.calls[i]? = some c) (hdraft : c.phase.draft = some draft)

include h hi hdraft

theorem Sound.passes {p : Phase D} (hquiet : p.quiet)
    (hp : p.draft = some draft ∨ p.early = false)
    (hcount : p.count = none ∨ p.count = c.phase.count) : Moved service w a (w.enter i p) :=
  ⟨.enters i c p hi (.plain (Phase.quiet_entry hquiet) (Phase.quiet_unverified hquiet) hcount),
    h.proceeds hi hdraft hquiet hp⟩

theorem Sound.replays {p : Phase D} (hquiet : p.quiet)
    (hp : p.draft = some draft ∨ p.early = false) (hcount : p.count = none) :
    Moved service w a (w.enter i (match w.prior draft with
      | some row => replay row draft
      | none => p)) := by
  cases w.prior draft with
  | some =>
    dsimp only [replay]
    split_ifs <;> exact h.closes hi rfl rfl
  | none => exact h.passes hi hdraft hquiet hp (.inl hcount)

theorem Sound.loseStep (attempt : ℕ) : Moved service w a (w.loseStep i draft attempt) := by
  refine h.replays hi hdraft ?_ ?_ ?_ <;> split_ifs
  all_goals first | rfl | exact .inl rfl | exact .inr rfl

end

theorem Sound.countStep (h : w.Sound service) (hi : w.calls[i]? = some c)
    (hphase : c.phase = .checked draft) : Moved service w a (w.countStep service i draft) := by
  simp only [World.countStep]
  split_ifs with hfull
  · exact h.closes hi rfl rfl
  · refine ⟨.enters i c _ hi ⟨by simp,?_,by simp [Phase.entry]⟩,
      h.proceeds hi (by rw [hphase]; rfl) rfl (.inl rfl)⟩
    rintro d n ⟨⟩
    exact .inr ⟨hphase,Nat.lt_of_not_le hfull,rfl⟩

section

variable {issued : ℕ} (h : w.Sound service) (hi : w.calls[i]? = some c)
  (hcount : c.phase.count = some (draft,issued))

include h hi hcount

theorem Sound.supersede {row : Challenge D} (hrow : row ∈ w.rows)
    (hsubject : row.subject = service.subject draft) (hactive : row.status = .active)
    (hfree : w.lockedElsewhere i row.id = false) :
    Moved service w a (w.enter i (supersede draft issued row)) := by
  have hdraft := draft_of_count hcount
  unfold World.supersede
  split_ifs
  · exact h.closes hi rfl rfl
  · exact h.closes hi rfl rfl
  · refine ⟨.enters i c _ hi (.plain rfl (by simp) (.inr hcount.symm)),
      h.entered hi ?_ ?_ ?_ (by simp [Phase.entry]) (by simp)⟩
    · constructor
      · rintro d ⟨⟩
        exact (h.fits i c hi).drawn draft hdraft
      · rintro d _ ⟨⟩ ⟨⟩
        exact ⟨row,hrow,rfl,hactive,hsubject⟩
      · simp
      · simp
      · simp [Phase.entry]
      · simp
    · rintro _ ⟨⟩
      exact .inr hfree
    · intro _
      simp [Phase.early,hdraft]

theorem Sound.selectStep : Moved service w a (w.selectStep service i draft issued) := by
  have hdraft := draft_of_count hcount
  unfold World.selectStep
  cases hfound : activeForSubject (service.subject draft) w.rows with
  | none => exact h.passes hi hdraft rfl (.inl rfl) (.inr hcount.symm)
  | some =>
    obtain ⟨hrow,hsubject,hactive⟩ := activeForSubject_some hfound
    dsimp only
    split_ifs with hlocked
    · exact h.passes hi hdraft rfl (.inl rfl) (.inr hcount.symm)
    · exact h.supersede hi hcount hrow hsubject hactive (by simpa using hlocked)

theorem Sound.awaitStep (id : ℕ) : Moved service w a (w.awaitStep service i draft issued id) := by
  have hdraft := draft_of_count hcount
  unfold World.awaitStep
  cases hlocked : w.lockedElsewhere i id with
  | true => exact ⟨.idle,h⟩
  | false =>
    rw [if_neg (by simp)]
    cases hfound : byId draft.organizationId id w.rows with
    | none => exact h.passes hi hdraft rfl (.inl rfl) (.inr hcount.symm)
    | some =>
      obtain ⟨hrow,-,hid⟩ := byId_some hfound
      dsimp only
      split_ifs with hmatch
      · exact h.supersede hi hcount hrow hmatch.1 hmatch.2 (hid ▸ hlocked)
      · exact h.passes hi hdraft rfl (.inl rfl) (.inr hcount.symm)

end

theorem Sound.revokes (h : w.Sound service) (hi : w.calls[i]? = some c) {issued : ℕ}
    {active : Challenge D} (hphase : c.phase = .superseding draft issued active) :
    Moved service w a (w.enter i (.inserting draft issued (some active.id))) := by
  have hdraft : c.phase.draft = some draft := by rw [hphase]; rfl
  have hlock : c.phase.lock = some active.id := by rw [hphase]; rfl
  refine ⟨.enters i c _ hi (.plain rfl (by simp) (.inr (by rw [hphase]; rfl))),
    h.entered hi ?_ ?_ ?_ (by simp [Phase.entry]) (by simp)⟩
  · constructor
    · rintro d ⟨⟩
      exact (h.fits i c hi).drawn draft hdraft
    · rintro d id ⟨⟩ ⟨⟩
      exact (h.fits i c hi).superseded draft active.id hdraft hlock
    · simp
    · simp
    · simp [Phase.entry]
    · simp
  · exact fun id hid => .inl (hlock.trans hid)
  · intro _
    simp [Phase.early,hdraft]

theorem Sound.insertStep (h : w.Sound service) (hi : w.calls[i]? = some c) {issued : ℕ}
    {revoked : Option ℕ} (hphase : c.phase = .inserting draft issued revoked) (now : ℤ) :
    Moved service w (.advance i now) (w.insertStep service i draft issued revoked) := by
  have hdraft : c.phase.draft = some draft := by rw [hphase]; rfl
  have hlock : c.phase.lock = revoked := by rw [hphase]; rfl
  unfold World.insertStep
  cases hrival : w.elsewhere i (fun p => p.entry.any (rivals service draft)) with
  | true => exact ⟨.idle,h⟩
  | false =>
    rw [if_neg (by simp)]
    cases hfound : w.rows.find? (conflicts service draft revoked) with
    | some =>
      dsimp only
      split_ifs
      · exact ⟨.idle,h⟩
      · exact h.passes hi hdraft rfl (.inl rfl) (.inl rfl)
    | none =>
      refine ⟨.enters i c _ hi ⟨by simp,?_,?_⟩,
        h.entered hi ?_ (fun id hid => .inl (hlock.trans hid)) ?_ ?_ (by simp)⟩
      · rintro d n ⟨⟩
        exact .inl (by rw [hphase]; rfl)
      · rintro d ⟨⟩
        exact ⟨⟨issued,revoked,hphase⟩,hrival,now,rfl⟩
      · constructor
        · rintro d ⟨⟩
          exact (h.fits i c hi).drawn draft hdraft
        · rintro d id ⟨⟩ hid
          exact (h.fits i c hi).superseded draft id hdraft (hlock.trans hid)
        · simp
        · simp
        · rintro d ⟨⟩ r hr
          exact Bool.eq_false_of_not_eq_true (List.find?_eq_none.mp hfound r hr)
        · simp
      · intro _
        simp [Phase.early,hdraft]
      · rintro d ⟨⟩
        exact hrival

end Drafts

section Updates

variable {row update : Challenge D} {outcome : Outcome}

theorem Sound.updating (h : w.Sound service) (hi : w.calls[i]? = some c)
    (hrow : row ∈ w.rows) (hupdates : Updates row update)
    (hverdict : ∀ id, outcome = .verified id → row.id = id ∧ row.status = .active ∧
      update.status = .verified ∧ ∃ code, c.request = .verify code ∧
        service.verifyCode row.context code row.codeHash)
    (hlock : c.phase.lock = some row.id ∨ w.lockedElsewhere i row.id = false) {p : Phase D}
    (hp : p = .holding row update outcome ∨ p = .written row update outcome) :
    Moved service w a (w.enter i p) := by
  have hcarries : p.lock = some row.id ∧ p.draft = none ∧ p.entry = none ∧ p.early = false ∧
      p.count = none ∧ ∀ id, p ≠ .closed (.verified id) := by
    rcases hp with rfl | rfl <;> exact ⟨rfl,rfl,rfl,rfl,rfl,by simp⟩
  obtain ⟨hplock,hpdraft,hpentry,hpearly,hpcount,hpclosed⟩ := hcarries
  refine ⟨.enters i c p hi (.plain hpentry hpclosed (.inl hpcount)),
    h.entered hi ?_ ?_ (by simp [hpearly]) (by simp [hpentry]) (by simp [hpclosed])⟩
  · constructor
    · simp [hpdraft]
    · simp [hpdraft]
    · intro row' update' outcome' hphase
      rcases hp with rfl | rfl <;> rcases hphase with ⟨⟨⟩⟩ | ⟨⟨⟩⟩ <;> exact ⟨hrow,hupdates⟩
    · intro row' update' id hphase
      rcases hp with rfl | rfl <;> rcases hphase with ⟨⟨⟩⟩ | ⟨⟨⟩⟩ <;> exact hverdict id rfl
    · simp [hpentry]
    · rcases hp with rfl | rfl <;> simp
  · intro id hid
    rw [hplock] at hid
    cases hid
    exact hlock

omit [DecidableEq D] in
theorem updates_status {status : OtpStatus} (hactive : row.status = .active)
    (htried : row.Tried) (hstatus : status ≠ .active) :
    Updates row { row with status := status } :=
  ⟨rfl,.inl hactive,htried.1,fun h => absurd h hstatus⟩

theorem updates_attempt (hactive : row.status = .active) (htried : row.Tried) (code : String) :
    Updates row (service.applyAttempt row code).1 := by
  have hleft := htried.2 hactive
  simp only [Service.applyAttempt]
  split_ifs with hmatch hlast
  · exact ⟨rfl,.inl hactive,hleft,fun h => by cases h⟩
  · exact ⟨rfl,.inl hactive,hleft,fun h => by cases h⟩
  · exact ⟨rfl,.inl hactive,hleft,fun _ => Nat.lt_of_not_le hlast⟩

theorem attempt_verified {code : String} (h : (service.applyAttempt row code).2 = none) :
    (service.applyAttempt row code).1.status = .verified ∧
      service.verifyCode row.context code row.codeHash := by
  simp only [Service.applyAttempt] at h ⊢
  split_ifs at h ⊢ with hmatch
  exact ⟨rfl,hmatch⟩

theorem terminalFailure_none {status : OtpStatus} (h : terminalFailure status = none) :
    status = .active := by
  cases status <;> first | rfl | cases h

section

variable (h : w.Sound service) (hi : w.calls[i]? = some c)

include h hi

theorem Sound.verifyStep {organizationId id : ℕ} {code : String} {now : ℤ}
    (hphase : c.phase = .verifying organizationId id code now) :
    Moved service w a (w.verifyStep service i organizationId id code now) := by
  have hrequest := (h.fits i c hi).asked organizationId id code now hphase
  unfold World.verifyStep
  cases hlocked : w.lockedElsewhere i id with
  | true => exact ⟨.idle,h⟩
  | false =>
    rw [if_neg (by simp)]
    cases hfound : byId organizationId id w.rows with
    | none => exact h.closes hi rfl rfl
    | some row =>
      obtain ⟨hrow,-,hid⟩ := byId_some hfound
      have hfree : w.lockedElsewhere i row.id = false := hid ▸ hlocked
      cases hterminal : terminalFailure row.status with
      | some =>
        simp only [hterminal]
        exact h.closes hi rfl rfl
      | none =>
        have hactive := terminalFailure_none hterminal
        have htried := h.tried row hrow
        simp only [hterminal]
        split_ifs
        · exact h.updating hi hrow (updates_status hactive htried (by simp)) (by simp)
            (.inr hfree) (.inl rfl)
        · refine h.updating hi hrow (updates_attempt hactive htried code) ?_ (.inr hfree)
            (.inl rfl)
          intro id' hverified
          cases herror : (service.applyAttempt row code).2 with
          | some => simp [herror] at hverified
          | none =>
            rw [herror] at hverified
            cases hverified
            obtain ⟨hstatus,hmatch⟩ := attempt_verified herror
            exact ⟨hid,hactive,hstatus,code,hrequest,hmatch⟩

theorem Sound.unwindStep (organizationId id : ℕ) (deliveryError : String) :
    Moved service w a (w.unwindStep i organizationId id deliveryError) := by
  simp only [World.unwindStep]
  cases hlocked : w.lockedElsewhere i id with
  | true => exact ⟨.idle,h⟩
  | false =>
    rw [if_neg (by simp)]
    cases hfound : byId organizationId id w.rows with
    | none => exact h.closes hi rfl rfl
    | some row =>
      obtain ⟨hrow,-,hid⟩ := byId_some hfound
      dsimp only
      split_ifs with hactive
      · exact h.updating hi hrow (updates_status hactive (h.tried row hrow) (by simp)) (by simp)
          (.inr (hid ▸ hlocked)) (.inl rfl)
      · exact h.closes hi rfl rfl

theorem Sound.confirmStep (organizationId id messageId : ℕ) (now : ℤ) :
    Moved service w a (w.confirmStep i organizationId id messageId now) := by
  unfold World.confirmStep
  cases hlocked : w.lockedElsewhere i id with
  | true => exact ⟨.idle,h⟩
  | false =>
    rw [if_neg (by simp)]
    cases hfound : byId organizationId id w.rows with
    | none => exact h.closes hi rfl rfl
    | some row =>
      obtain ⟨hrow,-,hid⟩ := byId_some hfound
      have hupdates : Updates row { row with
          deliveryMessageId := some messageId
          updatedAt := now } := ⟨rfl,.inr rfl,h.tried row hrow⟩
      exact h.updating hi hrow hupdates (fun _ he => by cases he) (.inr (hid ▸ hlocked)) (.inr rfl)

theorem Sound.writes (hphase : c.phase = .holding row update outcome) (now : ℤ) :
    Moved service w a (w.enter i (.written row { update with updatedAt := now } outcome)) := by
  have hfits := h.fits i c hi
  obtain ⟨hrow,hupdates⟩ := hfits.updates row update outcome (.inl hphase)
  have hdated : Updates row { update with updatedAt := now } :=
    ⟨hupdates.origin,hupdates.status,hupdates.tried⟩
  refine h.updating hi hrow hdated ?_ (.inl (by rw [hphase]; rfl)) (.inr rfl)
  rintro id rfl
  exact hfits.verdict row update id (.inl hphase)

end

end Updates

end World

end NexusAi.Otp
