import NexusAi.Messaging.SendOnce

/-!
# What a step does to messages and receipts

One case for each way in which a step can touch a message, a callback request or
a receipt. Everything that is proved about delivery states goes by these cases.
-/

namespace NexusAi.Messaging

def CallPhase.unmarked : CallPhase → Option MessageRow
  | .queued m | .accepted m _ _ | .refused m _ => some m
  | _ => none

namespace World

def NoneUnmarked (w w' : World) : Prop :=
  ∀ (i : ℕ) c' m, w'.calls[i]? = some c' → c'.phase.unmarked = some m →
    ∃ c, w.calls[i]? = some c ∧ c.phase.unmarked = some m

structure SameRequests (w w' : World) : Prop where
  receipts : w'.receipts = w.receipts
  requests : w'.requests = w.requests
  folds : w'.folds = w.folds

/-- What `_mark_sent` and `_mark_failed` may write into a message. -/
inductive Marks (w : World) (m : MessageRow) (update : MessageRow → MessageRow) : Prop
  | sent (providerMessageId : String) (timestamp : Option ℤ) (now : ℤ)
      (hupdate : update = MessageRow.sentAs providerMessageId timestamp now)
      (hfree : byProviderId m.accountId (clip 200 providerMessageId) w.messages = none)
  | failed (code : String) (now : ℤ) (hupdate : update = MessageRow.failedWith code now)

inductive Moves (w : World) (a : Action) (w' : World) : Prop
  | quiet (hmessages : w'.messages = w.messages) (hunmarked : NoneUnmarked w w')
      (hsame : SameRequests w w')
  | queue (i : ℕ) (request : SendMessageRequest)
      (hmessages : w'.messages = w.messages++[MessageRow.queued w.messages.length request])
      (hunmarked : ∀ (j : ℕ) c' m, w'.calls[j]? = some c' → c'.phase.unmarked = some m →
        j = i ∧ m = MessageRow.queued w.messages.length request ∨
          ∃ c, w.calls[j]? = some c ∧ c.phase.unmarked = some m)
      (hsame : SameRequests w w')
  | mark (i : ℕ) (c : Call) (m : MessageRow) (update : MessageRow → MessageRow)
      (hi : w.calls[i]? = some c) (hm : c.phase.unmarked = some m) (hmarks : Marks w m update)
      (hmessages : w'.messages = Table.edit MessageRow.id [m.id] update w.messages)
      (hunmarked : ∀ (j : ℕ) c' m', w'.calls[j]? = some c' → c'.phase.unmarked = some m' →
        j ≠ i ∧ ∃ d, w.calls[j]? = some d ∧ d.phase.unmarked = some m')
      (hsame : SameRequests w w')
  | request (j : ℕ) (f : Request → Request) (r : Request) (hj : w.requests[j]? = some r)
      (hmessages : w'.messages = w.messages) (hcalls : w'.calls = w.calls)
      (hreceipts : w'.receipts = w.receipts) (hfolds : w'.folds = w.folds)
      (hrequests : w'.requests = w.requests.modify j f)
      (hkind : f r = r.dropped ∨ ∃ status, r.current = some status ∧ r.phase = .ready ∧
        ((f r = r.ended .replayed ∧ ∃ receipt ∈ w.receipts,
            receipt.identity = (r.accountId,statusEventId status)) ∨
          (f r = r.ended .deferred ∧ a = .read j ∧
            byProviderId r.accountId status.providerMessageId w.messages = none) ∨
          ∃ seen, f r = { r with phase := .folding seen } ∧
            byProviderId r.accountId status.providerMessageId w.messages = some seen))
  | receive (r : Request) (hr : r.done = [] ∧ r.phase = .ready)
      (hmessages : w'.messages = w.messages) (hcalls : w'.calls = w.calls)
      (hreceipts : w'.receipts = w.receipts) (hfolds : w'.folds = w.folds)
      (hrequests : w'.requests = w.requests++[r])
  | fold (j : ℕ) (now : ℤ) (r : Request) (seen : MessageRow) (status : NormalizedStatus)
      (ha : a = .fold j now) (hj : w.requests[j]? = some r) (hphase : r.phase = .folding seen)
      (hcurrent : r.current = some status) (hcalls : w'.calls = w.calls)
      (hmessages : w'.messages = if (applyCallback seen.status status.status).advanced then
        Table.edit MessageRow.id [seen.id] (foldRow status
          (applyCallback seen.status status.status).status now seen) w.messages else w.messages)
      (hreceipts : ∃ messageId, w'.receipts =
        w.receipts++[⟨r.accountId,statusEventId status,messageId⟩])
      (hfolds : w'.folds = w.folds++[⟨r.accountId,statusEventId status,seen.id,status.status,
        seen.status,(applyCallback seen.status status.status).status⟩])
      (hrequests : ∃ outcome, outcome ≠ .deferred ∧
        w'.requests = w.requests.modify j (Request.ended outcome))

section Steps

variable {w : World} {a : Action} {i : ℕ} {c : Call} {phase : CallPhase} {w' : World}

section

variable (hi : w.calls[i]? = some c) (h : ∀ m, phase.unmarked = some m → c.phase.unmarked = some m)
  (hcalls : w'.calls = (w.enter i phase).calls)

include hi h hcalls

theorem noneUnmarked_enter : NoneUnmarked w w' := by
  intro j c' m hc' hm
  rw [hcalls,enter_calls_self hi] at hc'
  by_cases hj : j = i
  · rw [if_pos hj] at hc'
    rw [← Option.some.inj hc'] at hm
    exact ⟨c,hj ▸ hi,h m hm⟩
  · rw [if_neg hj] at hc'
    exact ⟨c',hc',hm⟩

theorem moves_enter (hmessages : w'.messages = w.messages) (hsame : SameRequests w w') :
    Moves w a w' :=
  .quiet hmessages (noneUnmarked_enter hi h hcalls) hsame

end

theorem moves_self (w : World) : Moves w a w :=
  .quiet rfl (fun _ c _ hc hm => ⟨c,hc,hm⟩) ⟨rfl,rfl,rfl⟩

theorem claim_moves (w : World) (i : ℕ) : Moves w a (w.claimStep i) := by
  unfold claimStep
  split
  · rename_i hi
    split
    · exact moves_enter hi (by simp [CallPhase.unmarked]) rfl rfl ⟨rfl,rfl,rfl⟩
    · simp only
      split
      · refine .quiet rfl ?_ ⟨rfl,rfl,rfl⟩
        intro j c' m hc' hm
        simp only [List.getElem?_modify] at hc'
        obtain ⟨c,hc,rfl⟩ := Option.map_eq_some_iff.mp hc'
        by_cases hij : i = j
        · simp [hij,CallPhase.unmarked] at hm
        · exact ⟨c,hc,by simpa [hij] using hm⟩
      · exact moves_enter hi (by simp [CallPhase.unmarked]) rfl rfl ⟨rfl,rfl,rfl⟩
  · exact moves_self w

theorem enter_marked (hi : w.calls[i]? = some c) (hphase : phase.unmarked = none)
    (hcalls : w'.calls = (w.enter i phase).calls) (j : ℕ) (c' : Call) (m' : MessageRow)
    (hc' : w'.calls[j]? = some c') (hm' : c'.phase.unmarked = some m') :
    j ≠ i ∧ ∃ d, w.calls[j]? = some d ∧ d.phase.unmarked = some m' := by
  rw [hcalls,enter_calls_self hi] at hc'
  by_cases hj : j = i
  · rw [if_pos hj] at hc'
    rw [← Option.some.inj hc',hphase] at hm'
    cases hm'
  · rw [if_neg hj] at hc'
    exact ⟨hj,c',hc',hm'⟩

section

variable (w i)

theorem mark_moves (now : ℤ) : Moves w a (w.markStep i now) := by
  unfold markStep
  split
  · rename_i request isOwner message providerMessageId timestamp hi
    split
    · exact moves_enter hi (by simp [CallPhase.unmarked]) rfl rfl ⟨rfl,rfl,rfl⟩
    · rename_i hfree
      split
      · exact moves_enter hi (by simp [CallPhase.unmarked]) rfl rfl ⟨rfl,rfl,rfl⟩
      · have hnone : byProviderId message.accountId (clip 200 providerMessageId) w.messages =
            none := by
          simpa using hfree
        refine .mark i _ message _ hi rfl (.sent providerMessageId timestamp now rfl hnone) rfl
          (enter_marked hi ?_ rfl) ⟨rfl,rfl,rfl⟩
        split_ifs <;> rfl
  · rename_i message _ hi
    split
    · exact moves_enter hi (by simp [CallPhase.unmarked]) rfl rfl ⟨rfl,rfl,rfl⟩
    · refine .mark i _ message _ hi rfl (.failed _ now rfl) rfl (enter_marked hi ?_ rfl)
        ⟨rfl,rfl,rfl⟩
      split_ifs <;> rfl
  · exact moves_self w

theorem persist_moves : Moves w a (w.persistStep i) := by
  unfold persistStep
  split
  · rename_i request _ hi
    refine .queue i request rfl ?_ ⟨rfl,rfl,rfl⟩
    intro j c' m hc' hm
    rw [enter_calls_self (w := { w with
      messages := w.messages++[MessageRow.queued w.messages.length request] }) hi] at hc'
    by_cases hj : j = i
    · rw [if_pos hj] at hc'
      rw [← Option.some.inj hc'] at hm
      exact .inl ⟨hj,(Option.some.inj hm).symm⟩
    · rw [if_neg hj] at hc'
      exact .inr ⟨c',hc',hm⟩
  · exact moves_self w

theorem provide_moves (outcome : ProviderOutcome) : Moves w a (w.provideStep i outcome) := by
  unfold provideStep
  split
  · rename_i hi
    split
    · refine moves_enter hi ?_ rfl rfl ⟨rfl,rfl,rfl⟩
      exact fun m hm => hm
    · refine moves_enter hi (fun m hm => ?_) rfl rfl ⟨rfl,rfl,rfl⟩
      split_ifs at hm
      · exact hm
      · cases hm
  · exact moves_self w

theorem lookup_moves : Moves w a (w.lookupStep i) := by
  unfold lookupStep
  split
  · rename_i hi
    split <;> exact moves_enter hi (by simp [CallPhase.unmarked]) rfl rfl ⟨rfl,rfl,rfl⟩
  · exact moves_self w

theorem finalize_moves (answered : Bool) : Moves w a (w.finalizeStep i answered) := by
  unfold finalizeStep
  split
  · rename_i request isOwner message hi
    exact moves_enter hi (by simp [CallPhase.unmarked]) rfl rfl ⟨rfl,rfl,rfl⟩
  · rename_i hi
    exact moves_enter hi (by simp [CallPhase.unmarked]) rfl rfl ⟨rfl,rfl,rfl⟩
  · exact moves_self w

theorem abort_moves (error : Option SendError) : Moves w a (w.abortStep i error) := by
  unfold abortStep
  split
  · exact moves_self w
  · rename_i hi
    exact moves_enter hi (by simp [CallPhase.unmarked]) rfl rfl ⟨rfl,rfl,rfl⟩
  · exact moves_self w

end

theorem send_moves (w : World) (request : SendMessageRequest) (refusal : Option String) :
    Moves w a (w.sendStep request refusal) := by
  refine .quiet rfl ?_ ⟨rfl,rfl,rfl⟩
  intro j c' m hc' hm
  unfold sendStep at hc'
  rcases Batch.concat_cases hc' with ⟨-,rfl⟩ | hc'
  · cases refusal <;> cases hm
  · exact ⟨c',hc',hm⟩

theorem read_moves (w : World) (j : ℕ) : Moves w (.read j) (w.readStep j) := by
  unfold readStep
  split
  · rename_i hj
    split
    · exact moves_self w
    · rename_i status hcurrent
      split
      · exact moves_self w
      · split
        · rename_i hfound
          obtain ⟨receipt,hreceipt⟩ := Option.isSome_iff_exists.mp hfound
          exact .request j _ _ hj rfl rfl rfl rfl rfl (.inr ⟨status,hcurrent,rfl,.inl ⟨rfl,
            receipt,Table.find_mem hreceipt,Table.find_key hreceipt⟩⟩)
        · split
          · rename_i hnone
            exact .request j _ _ hj rfl rfl rfl rfl rfl
              (.inr ⟨status,hcurrent,rfl,.inr (.inl ⟨rfl,rfl,hnone⟩)⟩)
          · rename_i seen hseen
            exact .request j _ _ hj rfl rfl rfl rfl rfl
              (.inr ⟨status,hcurrent,rfl,.inr (.inr ⟨seen,rfl,hseen⟩)⟩)
  · exact moves_self w

theorem fold_moves (w : World) (j : ℕ) (now : ℤ) : Moves w (.fold j now) (w.foldStep j now) := by
  unfold foldStep
  split
  · rename_i seen hj
    split
    · exact moves_self w
    · rename_i status hcurrent
      refine .fold j now _ seen status rfl hj rfl hcurrent rfl rfl ⟨_,rfl⟩ rfl ⟨_,?_,rfl⟩
      split_ifs <;> simp
  · exact moves_self w

theorem drop_moves (w : World) (j : ℕ) : Moves w a (w.enterRequest j Request.dropped) := by
  cases hj : w.requests[j]? with
  | none =>
    have hlen : w.requests.length ≤ j := List.getElem?_eq_none_iff.mp hj
    have hsame : w.enterRequest j Request.dropped = w := by
      simp [enterRequest,List.modify_eq_self hlen]
    rw [hsame]
    exact moves_self w
  | some r => exact .request j _ r hj rfl rfl rfl rfl rfl (.inl rfl)

theorem step_moves (w : World) (a : Action) : Moves w a (w.step a) := by
  cases a with
  | send request refusal => exact send_moves w request refusal
  | claim i => exact claim_moves w i
  | lookup i => exact lookup_moves w i
  | persist i => exact persist_moves w i
  | provide i outcome => exact provide_moves w i outcome
  | mark i now => exact mark_moves w i now
  | finalize i answered => exact finalize_moves w i answered
  | abort i error => exact abort_moves w i error
  | receive => exact .receive _ ⟨rfl,rfl⟩ rfl rfl rfl rfl rfl
  | read j => exact read_moves w j
  | fold j now => exact fold_moves w j now
  | drop j => exact drop_moves w j

end Steps

end World

end NexusAi.Messaging
