import NexusAi.Messaging.Progress

/-!
# Failed sends

Only an error of the provider's call is caught, marked and written into the claim. An
error of the platform that ends an owner anywhere else leaves its claim pending.
-/

namespace NexusAi.Messaging

namespace CallPhase

/-- The call has ended by raising an error of the platform. -/
def raises : CallPhase → Bool
  | .closed (.raised _) => true
  | .closed (.aborted (some error)) => error.code.isSome
  | _ => false

/-- Where an owner may stand if none of its errors but the provider's is the platform's. -/
def proper : CallPhase → Bool
  | .checked | .losing => false
  | .closed (.aborted (some error)) => error.code.isNone
  | _ => true

def failing : CallPhase → Bool
  | .condemned _ _ | .closed (.raised _) => true
  | _ => false

theorem failing_of_raises {phase : CallPhase} (hp : phase.proper) (h : phase.raises) :
    phase.failing ∧ phase.ended := by
  unfold raises at h
  split at h
  · exact ⟨rfl,rfl⟩
  · rename_i error
    rw [Option.isNone_iff_eq_none.mp (show error.code.isNone from hp)] at h
    cases h
  · cases h

end CallPhase

namespace World

/-- Of every owner that has raised an error the claim is FAILED and no message is queued. -/
def FailuresRecorded (w : World) : Prop :=
  ∀ (i : ℕ) c a k, w.calls[i]? = some c → c.isOwner → c.has a k → c.phase.raises →
    (∃ row, w.keyOf a k = some row ∧ row.status = .failed) ∧
      ∀ m ∈ w.messages, m.origin.2 = (a,some k) → m.status ≠ .queued

/-- The owner of a claim is ended by no error of the platform, that of the provider's call
apart. -/
def caught (w : World) : Action → Bool
  | .abort i error => (w.calls[i]?).all fun c =>
      !c.isOwner || error.all fun e => e.code.isNone
  | _ => true

/-- A message that failed is linked to no provider's id, so no callback finds it. -/
def Records (w : World) (c : Call) : Prop :=
  c.isOwner → c.phase.proper ∧ ∀ a k, c.has a k → c.phase.failing →
    (∀ m ∈ w.messages, m.origin.2 = (a,some k) → m.status = .failed ∧
      m.providerMessageId = none) ∧
    (c.phase.ended → ∃ row, w.keyOf a k = some row ∧ row.status = .failed)

def Recorded (w : World) : Prop := ∀ (i : ℕ) c, w.calls[i]? = some c → w.Records c

section Steps

variable {w w' : World} {i : ℕ} {c : Call}

theorem Recorded.failures (h : w.Recorded) : w.FailuresRecorded := by
  intro i c a k hi hown hk hraises
  obtain ⟨hproper,hfailing⟩ := h i c hi hown
  obtain ⟨hfails,hends⟩ := CallPhase.failing_of_raises hproper hraises
  obtain ⟨hmessages,hrow⟩ := hfailing a k hk hfails
  refine ⟨hrow hends,fun m hm hkey => ?_⟩
  rw [(hmessages m hm hkey).1]
  decide

theorem records_of_proper (hproper : c.phase.proper) (hfailing : c.phase.failing = false) :
    w.Records c := by
  refine fun _ => ⟨hproper,fun a k _ hfails => ?_⟩
  rw [hfailing] at hfails
  cases hfails

section

variable (h : w.Recorded) (hs : w.Sends) (hi : w.calls[i]? = some c)

include h hs hi

/-- Others' claims and messages are out of a call's reach. -/
theorem Recorded.moved {c' : Call} (hc' : w'.Records c')
    (hcalls : ∀ j, w'.calls[j]? = if j = i then some c' else w.calls[j]?)
    (hkeys : ∀ a k row, ¬ (c.isOwner ∧ c.has a k) → w.keyOf a k = some row →
      w'.keyOf a k = some row)
    (hmessages : ∀ m ∈ w'.messages, m ∈ w.messages ∨ ∀ k, m.origin.2.2 = some k →
      c.isOwner ∧ c.has m.origin.2.1 k) : w'.Recorded := by
  intro j d hd
  rw [hcalls] at hd
  split_ifs at hd with hj
  · rw [← Option.some.inj hd]
    exact hc'
  intro hown
  obtain ⟨hproper,hfailing⟩ := h j d hd hown
  refine ⟨hproper,fun a k hk hfails => ?_⟩
  have hother : ¬ (c.isOwner ∧ c.has a k) :=
    fun hc => hj (hs.sole j i d c a k hd hi hown hc.1 hk hc.2)
  obtain ⟨hrows,hrow⟩ := hfailing a k hk hfails
  constructor
  · intro m hm hkey
    rcases hmessages m hm with hm | hnew
    · exact hrows m hm hkey
    · refine absurd (hnew k ?_) ?_
      all_goals rw [hkey]
      exact hother
  · intro hends
    obtain ⟨row,hrow,hstatus⟩ := hrow hends
    exact ⟨row,hkeys a k row hother hrow,hstatus⟩

variable {phase : CallPhase}

theorem Recorded.entered (hc' : w'.Records { c with phase := phase })
    (hcalls : w'.calls = (w.enter i phase).calls) (hkeys : w'.keys = w.keys)
    (hmessages : w'.messages = w.messages) : w'.Recorded := by
  refine h.moved hs hi hc' ?_ ?_ fun m hm => .inl (hmessages ▸ hm)
  · rw [hcalls]
    exact enter_calls_self hi
  · intro a k row _ hrow
    rw [keyOf_eq hkeys,hrow]

theorem Recorded.open (hproper : phase.proper)
    (hfailing : phase.failing = false) : (w.enter i phase).Recorded :=
  h.entered hs hi (records_of_proper hproper hfailing) rfl rfl rfl

theorem Recorded.marked {message : MessageRow} (hm : c.phase.message = some message)
    (hearly : c.phase.early = false) {f : MessageRow → MessageRow}
    (hf : ∀ r, (f r).origin = r.origin) (hproper : phase.proper)
    (hfails : phase.failing → ∀ k, c.request.idempotencyKey = some k →
      phase.ended = false ∧ ∀ r ∈ w.messages, r.id = message.id →
        (f r).status = .failed ∧ (f r).providerMessageId = none) :
    ({ w with messages := Table.edit MessageRow.id [message.id] f w.messages }.enter i
      phase).Recorded := by
  obtain ⟨horigin,hkeyed⟩ := hs.carried i c message hi hm
  have hc' : World.Records ({ w with
      messages := Table.edit MessageRow.id [message.id] f w.messages }.enter i phase)
      { c with phase := phase } := by
    refine fun _ => ⟨hproper,fun a k hk hfailing => ?_⟩
    obtain ⟨hopen,hfailed⟩ := hfails hfailing k hk.2
    refine ⟨fun m hmem hkey => ?_,fun hends => by rw [hopen] at hends; cases hends⟩
    rcases Table.mem_edit.mp hmem with ⟨r,hr,hid,rfl⟩ | ⟨hold,hne⟩
    · exact hfailed r hr (List.mem_singleton.mp hid)
    · -- under its key the call's message is the only one
      have hsame : m.origin = message.origin := by
        refine hs.single _ (List.mem_map_of_mem hold) _ horigin ?_ (by rw [hkey]; simp)
        rw [hkeyed,hkey,← hk.1,← hk.2]
      exact absurd (List.mem_singleton.mpr (congrArg Prod.fst hsame)) hne
  refine h.moved hs hi hc' (enter_calls_self hi) (fun _ _ _ _ => id) fun m hmem => ?_
  rcases Table.mem_edit.mp hmem with ⟨r,hr,hid,rfl⟩ | ⟨hold,-⟩
  · have hfound := Table.find_of_mem hs.keyed hr
    rw [List.mem_singleton.mp hid] at hfound
    rw [hf,(hs.found hi hm hfound).2]
    exact .inr fun k hk => ⟨hs.owner hi hearly _ k ⟨rfl,hk⟩,rfl,hk⟩
  · exact .inl hold

theorem Recorded.finalized {a : ℕ} {k : String} (hk : c.has a k) (hearly : c.phase.early = false)
    {status : SendIdempotencyStatus} {messageId : Option ℕ} {result : Option MessageRow}
    {errorCode : Option String} {outcome : Outcome}
    (hproper : (CallPhase.closed outcome).proper)
    (hfails : (CallPhase.closed outcome).failing →
      c.phase.failing ∧ status = .failed) {w' : World} (hw' : w' = { w with
      keys := finalizeKey a k status messageId result errorCode w.keys }.enter i
        (.closed outcome)) : w'.Recorded := by
  subst hw'
  have howner := hs.owner hi hearly a k hk
  have hc' : World.Records ({ w with
      keys := finalizeKey a k status messageId result errorCode w.keys }.enter i
        (.closed outcome)) { c with phase := .closed outcome } := by
    refine fun _ => ⟨hproper,fun b l hbl hfailing => ⟨?_,fun _ => ?_⟩⟩
    · exact (((h i c hi howner).2 b l hbl) (hfails hfailing).1).1
    · obtain rfl : a = b := hk.1.symm.trans hbl.1
      obtain rfl : k = l := Option.some.inj (hk.2.symm.trans hbl.2)
      obtain ⟨row,hrow,-⟩ := hs.own i c a k hi howner hk
      refine ⟨_,(keyOf_finalized ..).trans (by rw [hrow,Option.map_some,if_pos rfl]),?_⟩
      exact (hfails hfailing).2
  refine h.moved hs hi hc' (enter_calls_self hi) ?_ fun m hm => .inl hm
  intro b l row hne hrow
  refine (keyOf_finalized a b k l status messageId result errorCode).trans ?_
  rw [hrow,Option.map_some,if_neg]
  intro hbl
  obtain ⟨rfl,rfl⟩ := Prod.mk.inj hbl
  exact hne ⟨howner,hk⟩

end

theorem Recorded.same (h : w.Recorded) (hcalls : w'.calls = w.calls) (hkeys : w'.keys = w.keys)
    (hmessages : ∀ m ∈ w'.messages, m ∈ w.messages ∨
      ∃ r ∈ w.messages, r.origin = m.origin ∧ r.providerMessageId ≠ none) : w'.Recorded := by
  intro i c hi hown
  rw [hcalls] at hi
  obtain ⟨hproper,hfailing⟩ := h i c hi hown
  refine ⟨hproper,fun a k hk hfails => ?_⟩
  obtain ⟨hrows,hrow⟩ := hfailing a k hk hfails
  rw [keyOf_eq hkeys]
  refine ⟨fun m hm hkey => ?_,hrow⟩
  rcases hmessages m hm with hm | ⟨r,hr,horigin,hnamed⟩
  · exact hrows m hm hkey
  · exact absurd (hrows r hr (horigin ▸ hkey)).2 hnamed

section

variable (h : w.Recorded) (hs : w.Sends)

include h hs

theorem Recorded.claimStep (i : ℕ) : (w.claimStep i).Recorded := by
  unfold World.claimStep
  split
  · rename_i request isOwner hi
    have hfresh : isOwner → False := fun hown => by cases (h i _ hi hown).1
    split
    · exact h.open hs hi rfl rfl
    · rename_i k _
      cases hfree : w.keyOf request.accountId k with
      | none =>
        simp only [claimKey_won hfree,if_true]
        refine h.moved hs hi (records_of_proper (c := ⟨request,true,.owner⟩) rfl rfl)
          (Batch.modify_at hi _) ?_ fun m hm => .inl hm
        intro a l row _ hrow
        refine (keyOf_append ..).trans ?_
        rw [hrow]
        rfl
      | some =>
        simp only [claimKey_lost hfree]
        exact h.entered hs hi (fun hown => (hfresh hown).elim) rfl rfl rfl
  · exact h

theorem Recorded.markStep (ht : w.Tracked) (i : ℕ) (now : ℤ) : (w.markStep i now).Recorded := by
  unfold World.markStep
  split
  · rename_i request isOwner message _ _ hi
    split
    · exact h.open hs hi rfl rfl
    · split
      · exact h.open hs hi rfl rfl
      · refine h.marked hs hi rfl rfl ?_ ?_ ?_
        · exact fun _ => rfl
        · split_ifs <;> rfl
        · split_ifs <;> exact fun h => by cases h
  · rename_i message _ hi
    split
    · exact h.open hs hi rfl rfl
    · refine h.marked hs hi rfl rfl ?_ ?_ fun _ k hk => ?_
      · exact fun _ => rfl
      · split_ifs <;> rfl
      · rw [if_pos (by rw [hk]; rfl)]
        refine ⟨rfl,fun r hr hid => ⟨rfl,?_⟩⟩
        obtain ⟨_,hr',hid',-,-,hnone⟩ := ht.unmarked i _ message hi rfl
        rw [Table.mem_unique hs.keyed hr hr' (hid.trans hid'.symm)]
        exact hnone
  · exact h

theorem Recorded.finalizeStep (i : ℕ) (answered : Bool) : (w.finalizeStep i answered).Recorded := by
  unfold World.finalizeStep
  split
  · rename_i request isOwner message hi
    cases hkey : request.idempotencyKey with
    | none => exact h.open hs hi (by cases answered <;> rfl) (by cases answered <;> rfl)
    | some =>
      refine h.finalized hs hi ⟨rfl,hkey⟩ rfl ?_ ?_ rfl
      · cases answered <;> rfl
      · cases answered <;> exact fun h => by cases h
  · rename_i request _ _ error hi
    have hproper : (CallPhase.closed (if answered then .raised error
        else .aborted none)).proper := by cases answered <;> rfl
    cases hkey : request.idempotencyKey with
    | none =>
      refine h.entered hs hi (fun _ => ⟨hproper,fun a k hk _ => ?_⟩) rfl rfl rfl
      exact (Call.not_has hkey a k hk).elim
    | some => exact h.finalized hs hi ⟨rfl,hkey⟩ rfl hproper (fun _ => ⟨rfl,rfl⟩) rfl
  · exact h

theorem Recorded.foldStep (ht : w.Tracked) (j : ℕ) (now : ℤ) : (w.foldStep j now).Recorded := by
  obtain ⟨hcalls,hkeys,-⟩ := foldStep_tables w j now
  refine h.same hcalls hkeys fun m hm => ?_
  unfold World.foldStep at hm
  split at hm
  · rename_i seen hj
    split at hm
    · exact .inl hm
    · simp only [enterRequest] at hm
      split_ifs at hm
      · rcases Table.mem_edit.mp hm with ⟨r,hr,hid,rfl⟩ | ⟨hm,-⟩
        · obtain ⟨_,-,_,hr',hid',-,hnamed⟩ := ht.seen _ (List.mem_of_getElem? hj) seen rfl
          rw [List.mem_singleton,← hid'] at hid
          refine .inr ⟨r,hr,(foldRow_origin ..).symm,?_⟩
          rw [Table.mem_unique hs.keyed hr hr' hid,hnamed]
          simp
        · exact .inl hm
      · exact .inl hm
  · exact .inl hm

theorem Recorded.step (ht : w.Tracked) (a : Action) (hok : w.caught a) :
    (w.step a).Recorded := by
  cases a with
  | send =>
    exact Batch.forall_concat (fun hown => by cases hown) h
  | claim i => exact h.claimStep hs i
  | lookup i =>
    simp only [World.step,lookupStep]
    split
    · rename_i request isOwner hi
      have hfresh : isOwner → False := fun hown => by cases (h i _ hi hown).1
      split <;> exact h.entered hs hi (fun hown => (hfresh hown).elim) rfl rfl rfl
    · exact h
  | persist =>
    simp only [World.step,persistStep]
    split
    · rename_i request isOwner hi
      refine h.moved hs hi (records_of_proper (c := ⟨request,isOwner,.queued _⟩) rfl rfl)
        (enter_calls_self hi) (fun _ _ _ _ => id) fun m hm => ?_
      rcases Table.mem_concat hm with hm | rfl
      · exact .inl hm
      · exact .inr fun k hk => ⟨hs.owner hi rfl _ k ⟨rfl,hk⟩,rfl,hk⟩
    · exact h
  | provide =>
    simp only [World.step,provideStep]
    split
    · rename_i isOwner _ hi
      split
      · exact h.entered hs hi (records_of_proper rfl rfl) rfl rfl rfl
      · rename_i error _
        refine h.entered hs hi (records_of_proper ?_ ?_) rfl rfl rfl
        · split_ifs with hcode
          · rfl
          · simpa [CallPhase.proper] using hcode
        · split_ifs <;> rfl
    · exact h
  | mark i now => exact h.markStep hs ht i now
  | finalize i answered => exact h.finalizeStep hs i answered
  | abort _ error =>
    simp only [World.step,abortStep]
    split
    · exact h
    · rename_i c _ hi
      refine h.entered hs hi (fun hown => records_of_proper ?_ rfl hown) rfl rfl rfl
      have hforeign : error.all (fun e => e.code.isNone) := by
        simpa [caught,hi,show c.isOwner from hown] using hok
      cases error with
      | none => rfl
      | some => exact hforeign
    · exact h
  | receive | drop => exact h.same rfl rfl fun _ => .inl
  | read j =>
    obtain ⟨hcalls,hkeys,hmessages,-⟩ := readStep_tables w j
    exact h.same hcalls hkeys fun _ hm => .inl (hmessages ▸ hm)
  | fold j now => exact h.foldStep hs ht j now

end

end Steps

end World

/-- In every run in which no error of the platform ends an owner but that of the provider's
call, every failed send is recorded as failed. -/
theorem failures_recorded (as : List Action)
    (hok : Run.Conforms World.step (fun w a => w.caught a) as World.initial) :
    (World.reach as).FailuresRecorded := by
  have hall := Run.exec_conforming World.step (fun w a => w.caught a)
    (fun w => w.Sends ∧ w.Tracked ∧ w.Recorded)
    (fun w a hok h => ⟨h.1.step a,h.2.1.moved h.1 (World.step_moves w a),
      h.2.2.step h.1 h.2.1 a hok⟩) as World.initial hok
    ⟨World.sends_initial,World.tracked_initial,fun i c hi => by cases hi⟩
  exact hall.2.2.failures

def refusedRun : List Action :=
  [.send sampleRequest none,.claim 0,.persist 0,.provide 0 (.raised (.deliveryFailed "E") false),
    .mark 0 10,.finalize 0 true]

theorem refusedRun_recorded : (World.reach refusedRun).FailuresRecorded :=
  failures_recorded refusedRun (by decide)

/-- The secret cannot be resolved: the claim stays pending and the message queued. -/
theorem unresolved_pending :
    ¬ (World.reach [.send sampleRequest none,.claim 0,.persist 0,
      .abort 0 (some (.nxs "NXS_VAULT_SECRET_NOT_FOUND"))]).FailuresRecorded := by
  intro h
  obtain ⟨⟨_,hrow,hstatus⟩,-⟩ := h 0 _ 1 "k1" rfl rfl ⟨rfl,rfl⟩ rfl
  obtain rfl := Option.some.inj hrow
  cases hstatus

end NexusAi.Messaging
