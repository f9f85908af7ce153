import NexusAi.Messaging.DeliveryStatus
import NexusAi.Telephony.Folding

/-!
# Callbacks that have been answered

Both webhook services answer a request as accepted once they have been through it.
A callback whose message or call is not linked yet is deferred: its receipt is
rolled back and the request is accepted all the same. Where every callback finds
what it names, each one that was answered has its receipt and its fold.
-/

namespace NexusAi

namespace Messaging.World

/-- A callback that is read finds the message that it names. -/
def visible (w : World) : Action → Bool
  | .read j => match w.requests[j]? with
    | some r => r.current.all fun status =>
        (byProviderId r.accountId status.providerMessageId w.messages).isSome
    | none => true
  | _ => true

def Undeferred (w : World) : Prop := ∀ r ∈ w.requests, .deferred ∉ r.done

variable {w w' : World} {a : Action} {r : Request}

theorem ended_undeferred {outcome : FoldOutcome} (hr : .deferred ∉ r.done)
    (hne : outcome ≠ .deferred) : .deferred ∉ (r.ended outcome).done := by
  simp only [Request.ended,List.mem_append,List.mem_singleton,not_or]
  exact ⟨hr,fun h => hne h.symm⟩

theorem Undeferred.moved (hw : w.Undeferred) (hvisible : w.visible a) (h : Moves w a w') :
    w'.Undeferred := by
  cases h with
  | quiet _ _ hsame | queue _ _ _ _ hsame | mark _ _ _ _ _ _ _ _ _ hsame =>
    exact fun r hr => hw r (hsame.requests ▸ hr)
  | request _ _ r hj _ _ _ _ hrequests hkind =>
    have hr := hw r (List.mem_of_getElem? hj)
    rw [Undeferred,hrequests]
    refine Batch.forall_mem_modify hj ?_ hw
    rcases hkind with hf | ⟨_,hcurrent,_,⟨hf,-⟩ | ⟨-,ha,hnone⟩ | ⟨_,hf,-⟩⟩
    · rw [hf]
      unfold Request.dropped
      split <;> exact hr
    · rw [hf]
      exact ended_undeferred hr (by simp)
    · rw [ha] at hvisible
      simp [visible,hj,hcurrent,hnone] at hvisible
    · rw [hf]
      exact hr
  | receive _ hr _ _ _ _ hrequests =>
    intro r' hr'
    rw [hrequests] at hr'
    rcases Table.mem_concat hr' with hold | rfl
    · exact hw r' hold
    · rw [hr.1]
      simp
  | fold _ _ r _ _ _ hj _ _ _ _ _ _ hrequests =>
    obtain ⟨_,hne,hrequests⟩ := hrequests
    rw [Undeferred,hrequests]
    exact Batch.forall_mem_modify hj (ended_undeferred (hw r (List.mem_of_getElem? hj)) hne) hw

theorem Tracked.acknowledged (ht : w.Tracked) (hw : w.Undeferred)
    (hr : r ∈ w.requests) (hanswer : r.answer.isSome) {status : NormalizedStatus}
    (hstatus : status ∈ r.statuses) :
    (∃ receipt ∈ w.receipts, receipt.identity = (r.accountId,statusEventId status)) ∧
    ∃ f ∈ w.folds, f.accountId = r.accountId ∧ f.reported = status.status ∧
      f.after = (applyCallback f.before f.reported).status ∧
      w.Named r.accountId status.providerMessageId f.messageId := by
  have hlength : r.done.length = r.statuses.length := by
    unfold Request.answer at hanswer
    split at hanswer
    · split at hanswer
      · assumption
      · cases hanswer
    · cases hanswer
  obtain ⟨outcome,hdone,hreceipt⟩ := (ht.answered r hr).of_mem hlength hstatus
  have hne : outcome ≠ .deferred := by
    rintro rfl
    exact hw r hr hdone
  obtain ⟨f,hf,haccount,hreported,hnamed⟩ := ht.processed (hreceipt hne)
  exact ⟨hreceipt hne,f,hf,haccount,hreported,ht.applied f hf,hnamed⟩

end Messaging.World

namespace Telephony.World

/-- A callback that is processed finds the call that it names. -/
def visible (w : World) : Action → Bool
  | .process j _ => match w.requests[j]? with
    | some r => r.events[r.done.length]?.all fun event =>
        (byProviderCallId r.accountId event.providerCallId w.calls).isSome
    | none => true
  | _ => true

def Undeferred (w : World) : Prop := ∀ r ∈ w.requests, .deferred ∉ r.done

variable {w w' : World} {a : Action} {issued : ℕ → String → Callback}

theorem foldEvent_undeferred (event : NormalizedCallEvent) (now : ℤ) (row : CallRow)
    (sessions : List MediaRow) : (foldEvent event now row sessions).outcome ≠ .deferred := by
  unfold foldEvent
  split
  · simp only [foldStateEvent]
    split <;> simp
  · simp
  · simp only [foldMediaEvent]
    split
    · simp
    · split <;> simp
    · simp

variable {r : Request}

theorem ended_undeferred {outcome : Processed} (hr : .deferred ∉ r.done)
    (hne : outcome ≠ .deferred) : .deferred ∉ (r.ended outcome).done := by
  simp only [Request.ended,List.mem_append,List.mem_singleton,not_or]
  exact ⟨hr,fun h => hne h.symm⟩

theorem Undeferred.moved (hw : w.Undeferred) (hvisible : w.visible a) (h : Moves w a w') :
    w'.Undeferred := by
  cases h with
  | quiet _ hrequests | arrive _ _ _ _ hrequests | arrival _ _ _ _ _ hrequests =>
    exact fun r hr => hw r (hrequests ▸ hr)
  | receive _ _ _ _ hrequests =>
    intro r' hr'
    rw [hrequests] at hr'
    rcases Table.mem_concat hr' with hold | rfl
    · exact hw r' hold
    · simp
  | request _ _ r hj _ hrequests _ _ hkind =>
    have hr := hw r (List.mem_of_getElem? hj)
    rw [Undeferred,hrequests]
    refine Batch.forall_mem_modify hj ?_ hw
    rcases hkind with hf | ⟨event,hevent,⟨hf,-⟩ | ⟨-,⟨now,ha⟩,hnone⟩⟩
    · rw [hf]
      unfold Request.dropped
      split <;> exact hr
    · rw [hf]
      exact ended_undeferred hr (by simp)
    · rw [ha] at hvisible
      simp [visible,hj,hevent,hnone] at hvisible
  | fold _ now r event row hj _ _ _ hrequests =>
    rw [Undeferred,hrequests]
    exact Batch.forall_mem_modify hj (ended_undeferred (hw r (List.mem_of_getElem? hj))
      (foldEvent_undeferred event now row w.sessions)) hw

theorem Tracked.acknowledged (ht : w.Tracked issued) (hw : w.Undeferred)
    (hr : r ∈ w.requests) (hanswer : r.answer.isSome) {event : NormalizedCallEvent}
    (hevent : event ∈ r.events) :
    (∃ claim ∈ w.events, claim.identity = (r.accountId,event.providerEventId)) ∧
    ∃ f ∈ w.folds, f.accountId = r.accountId ∧ f.event = event ∧ f.before.id = f.callId ∧
      (∃ now sessions, f.after = (foldEvent event now f.before sessions).row) ∧
      w.Named r.accountId event.providerCallId f.callId := by
  have hlength : r.done.length = r.events.length := by
    unfold Request.answer at hanswer
    split at hanswer
    · rename_i h
      simp only [Bool.and_eq_true,decide_eq_true_eq] at h
      exact h.2
    · cases hanswer
  obtain ⟨outcome,hdone,hclaimed⟩ := (ht.answered r hr).of_mem hlength hevent
  have hne : outcome ≠ .deferred := by
    rintro rfl
    exact hw r hr hdone
  obtain ⟨claim,hclaim,hid⟩ := hclaimed hne
  have hacc : claim.accountId = r.accountId := congrArg Prod.fst hid
  have hev : claim.providerEventId = event.providerEventId := congrArg Prod.snd hid
  obtain ⟨f,hf,haccount,hfolded⟩ := ht.claimed claim hclaim event
    (by rw [hacc,hev]; exact ht.genuine r hr event hevent)
  obtain ⟨hnamed,hbefore,now,sessions,hafter⟩ := ht.folded f hf
  rw [haccount,hacc,hfolded] at hnamed
  rw [hfolded] at hafter
  exact ⟨⟨claim,hclaim,hid⟩,f,hf,haccount.trans hacc,hfolded,hbefore,⟨now,sessions,hafter⟩,hnamed⟩

end Telephony.World

namespace Webhooks

/-- In runs in which every callback finds the message or the call that it names, each
status and each event of an answered request has its receipt, and was folded into
what it names by the rules of the fold. -/
theorem answered_kept (as : List Messaging.Action)
    (hmessages : Run.Conforms Messaging.World.step (fun w a => w.visible a) as
      Messaging.World.initial)
    (issued : ℕ → String → Telephony.Callback) (bs : List Telephony.Action)
    (hauthentic : ∀ b ∈ bs, Telephony.Authentic issued b)
    (hcalls : Run.Conforms Telephony.World.step (fun w b => w.visible b) bs
      Telephony.World.initial) :
    (∀ r ∈ (Messaging.World.reach as).requests, r.answer.isSome → ∀ status ∈ r.statuses,
      (∃ receipt ∈ (Messaging.World.reach as).receipts,
        receipt.identity = (r.accountId,Messaging.statusEventId status)) ∧
      ∃ f ∈ (Messaging.World.reach as).folds,
        f.accountId = r.accountId ∧ f.reported = status.status ∧
        f.after = (Messaging.applyCallback f.before f.reported).status ∧
        (Messaging.World.reach as).Named r.accountId status.providerMessageId f.messageId) ∧
    (∀ r ∈ (Telephony.World.reach bs).requests, r.answer.isSome → ∀ event ∈ r.events,
      (∃ claim ∈ (Telephony.World.reach bs).events,
        claim.identity = (r.accountId,event.providerEventId)) ∧
      ∃ f ∈ (Telephony.World.reach bs).folds,
        f.accountId = r.accountId ∧ f.event = event ∧ f.before.id = f.callId ∧
        (∃ now sessions, f.after = (Telephony.foldEvent event now f.before sessions).row) ∧
        (Telephony.World.reach bs).Named r.accountId event.providerCallId f.callId) := by
  constructor
  · have hundeferred : (Messaging.World.reach as).Undeferred :=
      Run.exec_conforming Messaging.World.step _ Messaging.World.Undeferred
        (fun w a hvisible hw => hw.moved hvisible (Messaging.World.step_moves w a)) as
        Messaging.World.initial hmessages (by simp [Messaging.World.Undeferred,
          Messaging.World.initial])
    intro r hr hanswer status hstatus
    exact (Messaging.World.tracked_reach as).acknowledged hundeferred hr hanswer hstatus
  · have hundeferred : (Telephony.World.reach bs).Undeferred :=
      Run.exec_conforming Telephony.World.step _ Telephony.World.Undeferred
        (fun w b hvisible hw => hw.moved hvisible (Telephony.World.step_moves w b)) bs
        Telephony.World.initial hcalls (by simp [Telephony.World.Undeferred,
          Telephony.World.initial])
    intro r hr hanswer event hevent
    exact (Telephony.World.tracked_reach hauthentic).acknowledged hundeferred hr hanswer hevent

def sampleEvent : Telephony.NormalizedCallEvent :=
  ⟨"e1","c1",.state .answered,some 20,some 1⟩

def linkedMessage : List Messaging.Action :=
  [.send Messaging.sampleRequest none,.claim 0,.persist 0,.provide 0 (.sent "p1" none),
    .mark 0 10,.receive 1 [Messaging.sampleRead],.read 0,.fold 0 30]

def linkedCall : List Telephony.Action :=
  [.create 1,.place 0 (.accepted "c1"),.link 0,.receive 1 [sampleEvent],.process 0 30]

theorem linkedRuns_kept :
    (∀ r ∈ (Messaging.World.reach linkedMessage).requests, r.answer.isSome →
      ∀ status ∈ r.statuses, ∃ receipt ∈ (Messaging.World.reach linkedMessage).receipts,
        receipt.identity = (r.accountId,Messaging.statusEventId status)) ∧
    (∀ r ∈ (Telephony.World.reach linkedCall).requests, r.answer.isSome →
      ∀ event ∈ r.events, ∃ claim ∈ (Telephony.World.reach linkedCall).events,
        claim.identity = (r.accountId,event.providerEventId)) ∧
    (Messaging.World.reach linkedMessage).requests.map Messaging.Request.answer =
      [some (true,1,0)] ∧
    (Telephony.World.reach linkedCall).requests.map Telephony.Request.answer =
      [some (true,[.applied .answered])] := by
  have hauthentic : ∀ b ∈ linkedCall, Telephony.Authentic (fun _ _ => .event sampleEvent) b := by
    simp [linkedCall,Telephony.Authentic]
  obtain ⟨hmessages,hcalls⟩ := answered_kept linkedMessage (by decide +kernel)
    (fun _ _ => .event sampleEvent) linkedCall hauthentic (by decide +kernel)
  refine ⟨fun r hr hanswer status hstatus => (hmessages r hr hanswer status hstatus).1,
    fun r hr hanswer event hevent => (hcalls r hr hanswer event hevent).1,?_,?_⟩ <;>
  decide +kernel

/-- The provider has taken the message and the call, and calls back before they are
linked. Both requests are accepted, nothing of them is stored, and the link does not
bring them back. -/
def earlyMessage : List Messaging.Action :=
  [.send Messaging.sampleRequest none,.claim 0,.persist 0,.provide 0 (.sent "p1" none),
    .receive 1 [Messaging.sampleRead],.read 0,.mark 0 10,.finalize 0 true]

def earlyCall : List Telephony.Action :=
  [.create 1,.place 0 (.accepted "c1"),.receive 1 [sampleEvent],.process 0 30,.link 0]

theorem earlyRuns_lose :
    ((Messaging.World.reach earlyMessage).requests.map Messaging.Request.answer =
        [some (true,0,0)] ∧
      (Messaging.World.reach earlyMessage).receipts = [] ∧
      (Messaging.World.reach earlyMessage).messages.map
        (fun m => (m.providerMessageId,m.status)) = [(some "p1",.sent)]) ∧
    ((Telephony.World.reach earlyCall).requests.map Telephony.Request.answer =
        [some (true,[.deferred])] ∧
      (Telephony.World.reach earlyCall).events = [] ∧
      (Telephony.World.reach earlyCall).calls.map
        (fun c => (c.providerCallId,c.state)) = [(some "c1",.created)]) := by
  decide +kernel

end Webhooks

end NexusAi
