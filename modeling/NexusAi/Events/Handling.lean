import NexusAi.Events.Verdict

/-!
# How a delivery ends

What is promised of the broker and of the last delivery, what is tracked of a
message along its deliveries, and what one step does to the delivery that it is
about: it answers only for a finished event, and a last delivery ends only with
one.
-/

namespace NexusAi.Events

namespace Consumers

/-- The broker delivers what is open, and as often as the consumer has it set. An
event belongs to one organization wherever it is posted. -/
def brokered (s : EventsSettings) (organizationOf : ℕ → Option ℕ) (w : Consumers) :
    ConsumerAction → Bool
  | .post _ message => message.envelope.all fun envelope =>
      envelope.organizationId = organizationOf envelope.eventId
  | .deliver m _ => (w.postings[m]?).any fun p =>
      !p.settled && p.delivered < p.consumer.maxAttempts s
  | _ => true

def concluded (w : Consumers) (p : Posting) : Bool :=
  p.message.envelope.all fun envelope =>
    (w.receipt (p.consumer.name,envelope.eventId)).any ReceiptRow.finished

/-- The delivery is not the last one, or its event is finished. -/
def spares (s : EventsSettings) (w : Consumers) (d : Delivery × Posting) : Bool :=
  d.1.stage = .over || d.1.ordinal < d.2.consumer.maxAttempts s || w.concluded d.2

/-- While its event is open, the last delivery is not sent back and does not crash, and its
letter can be stored. -/
def lasting (s : EventsSettings) (w : Consumers) : ConsumerAction → Bool
  | .process i (some failure) => (w.delivery i).all fun d => d.1.stage ≠ .received ||
      routed (d.2.consumer.maxAttempts s) d.1.number failure ≠ .over || w.spares s d
  | .terminate i false _ | .crash i => (w.delivery i).all (w.spares s)
  | _ => true

def Finished (w : Consumers) (k : String × ℕ) : Prop :=
  ∃ r, w.receipt k = some r ∧ r.finished

/-- No delivery of the posting runs, and no further one will come. -/
def Over (s : EventsSettings) (w : Consumers) (m : ℕ) (p : Posting) : Prop :=
  (p.settled ∨ p.consumer.maxAttempts s ≤ p.delivered) ∧
    ∀ d ∈ w.deliveries, d.posting = m → d.stage = .over

structure Tracked (s : EventsSettings) (organizationOf : ℕ → Option ℕ) (w : Consumers) : Prop where
  known : ∀ p ∈ w.postings, ∀ e ∈ p.message.envelope, e.organizationId = organizationOf e.eventId
  lettered : ∀ k r, w.receipt k = some r → r.status = .dead → organizationOf k.2 ≠ none →
    ∃ letter ∈ w.letters, letter.identity = (k.2,.consumer,some k.1)
  posted : ∀ d ∈ w.deliveries, d.posting < w.postings.length
  committed : ∀ d ∈ w.deliveries, d.stage = .committed → ∀ p, w.postings[d.posting]? = some p →
    ∀ e ∈ p.message.envelope, w.Finished (p.consumer.name,e.eventId)
  settled : ∀ p ∈ w.postings, p.settled → ∀ e ∈ p.message.envelope,
    w.Finished (p.consumer.name,e.eventId)
  last : ∀ m p, w.postings[m]? = some p → p.consumer.maxAttempts s ≤ p.delivered →
    (∀ e ∈ p.message.envelope, w.Finished (p.consumer.name,e.eventId)) ∨
    ∃ d ∈ w.deliveries, d.posting = m ∧ d.stage ≠ .over ∧ p.consumer.maxAttempts s ≤ d.ordinal

section Tables

variable {s : EventsSettings} {registry : Registry} {w w' : Consumers} {k : String × ℕ}
  {a : ConsumerAction}

theorem Finished.of_receipts (h : w.Finished k) (hsame : w'.receipts = w.receipts) :
    w'.Finished k := by
  obtain ⟨r,hr,hf⟩ := h
  exact ⟨r,by unfold receipt at hr ⊢; rw [hsame,hr],hf⟩

theorem Finished.commit (h : w.Finished k) (name : String) (envelope : EventEnvelope)
    (number : ℕ) : (w.commit name envelope number).Finished k := by
  obtain ⟨r,hr,hf⟩ := h
  exact ⟨r,find_processReceipt_kept hr hf,hf⟩

theorem bury_finished (name : String) (envelope : EventEnvelope) (failure : Failure)
    (number : ℕ) : (w.bury name envelope failure number).Finished (name,envelope.eventId) := by
  obtain ⟨r,hr,hdead⟩ := bury_receipt (w := w) name envelope failure number
  exact ⟨r,hr,r.finished_iff.mpr (.inr hdead)⟩

theorem Finished.bury (h : w.Finished k) (name : String) (envelope : EventEnvelope)
    (failure : Failure) (number : ℕ) : (w.bury name envelope failure number).Finished k := by
  by_cases hk : k = (name,envelope.eventId)
  · rw [hk]
    exact bury_finished name envelope failure number
  · obtain ⟨r,hr,hf⟩ := h
    exact ⟨r,by rw [bury_receipt_other hk,hr],hf⟩

theorem commit_finished (name : String) (envelope : EventEnvelope) (number : ℕ) :
    (w.commit name envelope number).Finished (name,envelope.eventId) := by
  by_cases hf : (processReceipt name envelope number w.receipts).1.alreadyFinished
  · exact Finished.commit (processReceipt_finished.mp hf) name envelope number
  · obtain ⟨r,hr,hstatus⟩ := find_processReceipt (Bool.eq_false_of_not_eq_true hf)
    exact ⟨r,hr,r.finished_iff.mpr (.inl hstatus)⟩

theorem Finished.step (h : w.Finished k) : (w.step s registry a).Finished k := by
  cases step_writes s registry w a with
  | none _ hreceipts => exact h.of_receipts hreceipts
  | commit _ name envelope number hreceipts =>
    exact (h.commit name envelope number).of_receipts hreceipts
  | bury _ _ d p envelope failure _ _ hreceipts =>
    exact (h.bury p.consumer.name envelope failure d.number).of_receipts hreceipts

theorem commit_dead {r : ReceiptRow} {name : String} {envelope : EventEnvelope} {number : ℕ}
    (h : (w.commit name envelope number).receipt k = some r) (hdead : r.status = .dead) :
    w.receipt k = some r := by
  by_cases hk : k = (name,envelope.eventId)
  · subst hk
    by_cases hf : (processReceipt name envelope number w.receipts).1.alreadyFinished
    · obtain ⟨r',hr',hfinished⟩ := processReceipt_finished.mp hf
      have hkept : Table.find ReceiptRow.identity (name,envelope.eventId)
          (processReceipt name envelope number w.receipts).2 = some r' :=
        find_processReceipt_kept hr' hfinished
      rw [← Option.some.inj (hkept.symm.trans h)]
      exact hr'
    · obtain ⟨_,hr',hstatus⟩ := find_processReceipt (Bool.eq_false_of_not_eq_true hf)
      rw [Option.some.inj (hr'.symm.trans h),hdead] at hstatus
      cases hstatus
  · exact (find_processReceipt_other hk).symm.trans h

theorem posting_mem {i : ℕ} {d : Delivery} {p : Posting} (h : w.delivery i = some (d,p)) :
    w.deliveries[i]? = some d ∧ w.postings[d.posting]? = some p := by
  obtain ⟨_,hd,hp⟩ := Option.bind_eq_some_iff.mp h
  obtain ⟨_,hp',hpair⟩ := Option.map_eq_some_iff.mp hp
  obtain ⟨rfl,rfl⟩ := Prod.mk.inj hpair
  exact ⟨hd,hp'⟩

theorem Tracked.lettered_step {organizationOf : ℕ → Option ℕ} (hw : w.Tracked s organizationOf)
    {r : ReceiptRow} (hr : (w.step s registry a).receipt k = some r) (hdead : r.status = .dead)
    (htenant : organizationOf k.2 ≠ none) :
    ∃ letter ∈ (w.step s registry a).letters, letter.identity = (k.2,.consumer,some k.1) := by
  unfold receipt at hr
  cases step_writes s registry w a with
  | none _ hreceipts hletters =>
    rw [hreceipts] at hr
    rw [hletters]
    exact hw.lettered k r hr hdead htenant
  | commit _ _ _ _ hreceipts hletters =>
    rw [hreceipts] at hr
    rw [hletters]
    exact hw.lettered k r (commit_dead hr hdead) hdead htenant
  | bury _ _ d p envelope failure hfound hparsed hreceipts hletters =>
    rw [hreceipts] at hr
    rw [hletters]
    by_cases hk : k = (p.consumer.name,envelope.eventId)
    · subst hk
      have horganization := hw.known p (List.mem_of_getElem? (posting_mem hfound).2) envelope hparsed
      exact recorded envelope (by rw [horganization]; exact htenant) _ _ _ _ _ _
    · obtain ⟨letter,hletter,hidentity⟩ := hw.lettered k r
        ((bury_receipt_other hk failure d.number).symm.trans hr) hdead htenant
      exact ⟨letter,mem_record hletter,hidentity⟩

end Tables

structure Handled (s : EventsSettings) (w w' : Consumers) (i : ℕ) (d : Delivery) (p : Posting)
    (stage : Stage) (answered : Bool) : Prop where
  found : w.delivery i = some (d,p)
  deliveries : w'.deliveries = (w.enter i stage).deliveries
  postings : w'.postings = (w.settle d.posting answered).postings
  settles : answered ∨ stage = .committed → ∀ e ∈ p.message.envelope,
    w'.Finished (p.consumer.name,e.eventId)
  ends : stage = .over → d.stage ≠ .over → p.consumer.maxAttempts s ≤ d.ordinal →
    ∀ e ∈ p.message.envelope, w'.Finished (p.consumer.name,e.eventId)

section Handling

variable {s : EventsSettings} {registry : Registry} {organizationOf : ℕ → Option ℕ}
  {w : Consumers} {i : ℕ}

theorem settle_false (m : ℕ) : w.settle m false = w := by
  have hid : (fun p : Posting => { p with settled := p.settled || false }) = id := by
    funext p
    simp
  rw [settle,hid,List.modify_id]

theorem routed_committed (maxAttempts number : ℕ) (failure : Failure) :
    routed maxAttempts number failure ≠ .committed := by
  unfold routed
  split_ifs <;> simp

theorem admit_admitted {spec : ConsumerSpec} {message : Message} {envelope : EventEnvelope}
    (h : admitMessage registry spec message = .admitted envelope) : message.envelope = some envelope := by
  unfold admitMessage at h
  split at h
  · cases h
  · rename_i he
    split at h
    · cases h
    · split_ifs at h
      rw [he,Admission.admitted.inj h]

theorem admit_malformed {spec : ConsumerSpec} {message : Message}
    (h : admitMessage registry spec message = .malformed) : message.envelope = none := by
  unfold admitMessage at h
  split at h
  · assumption
  · split at h
    · cases h
    · split_ifs at h

variable {d : Delivery} {p : Posting}

theorem handled_enter (hfound : w.delivery i = some (d,p))
    {stage : Stage} (hstage : stage ≠ .committed)
    (hends : stage = .over → d.stage ≠ .over → p.consumer.maxAttempts s ≤ d.ordinal →
      ∀ e ∈ p.message.envelope, w.Finished (p.consumer.name,e.eventId)) :
    Handled s w (w.enter i stage) i d p stage false := by
  refine ⟨hfound,rfl,by rw [settle_false]; rfl,?_,?_⟩
  · rintro (h | h)
    · cases h
    · exact absurd h hstage
  · exact hends

theorem spares_finished (h : w.spares s (d,p)) (hrunning : d.stage ≠ .over)
    (hlast : p.consumer.maxAttempts s ≤ d.ordinal) (e : EventEnvelope)
    (he : e ∈ p.message.envelope) : w.Finished (p.consumer.name,e.eventId) := by
  have hparsed : p.message.envelope = some e := he
  have hconcluded : w.concluded p := by
    simpa [spares,hrunning,Nat.not_lt.mpr hlast] using h
  simp only [concluded,hparsed,Option.all_some,Option.any_eq_true] at hconcluded
  exact hconcluded

theorem process_handled {outcome : Option Failure} (ha : w.lasting s (.process i outcome)) :
    w.processStep s registry i outcome = w ∨ ∃ d p stage answered,
      Handled s w (w.processStep s registry i outcome) i d p stage answered := by
  unfold processStep
  split
  · rename_i m ordinal number p hfound
    refine .inr ⟨⟨m,ordinal,number,.received⟩,p,?_⟩
    split
    · rename_i hadmit
      have hnone := admit_malformed hadmit
      refine ⟨.over,_,hfound,rfl,rfl,?_,?_⟩
      · intro _ e he
        rw [hnone] at he
        cases he
      · intro _ _ _ e he
        rw [hnone] at he
        cases he
    · exact ⟨_,false,handled_enter hfound (by simp) (by simp)⟩
    · rename_i hadmit
      have hparsed := admit_admitted hadmit
      refine ⟨.committed,false,hfound,rfl,by rw [settle_false]; rfl,?_,by simp⟩
      intro _ e he
      rw [hparsed] at he
      obtain rfl := Option.some.inj he
      exact commit_finished _ _ _
    · refine ⟨_,false,handled_enter hfound (routed_committed _ _ _) fun hover hrunning hlast => ?_⟩
      refine spares_finished ?_ hrunning hlast
      simpa [lasting,hfound,hover] using ha
  · exact .inl rfl

theorem ack_handled (hw : w.Tracked s organizationOf) (outcome : Option Failure) :
    w.ackStep s i outcome = w ∨ ∃ d p stage answered,
      Handled s w (w.ackStep s i outcome) i d p stage answered := by
  unfold ackStep
  split
  · rename_i m ordinal number p hfound
    refine .inr ⟨⟨m,ordinal,number,.committed⟩,p,?_⟩
    have hplace := posting_mem hfound
    have hdone : ∀ e ∈ p.message.envelope, w.Finished (p.consumer.name,e.eventId) :=
      hw.committed _ (List.mem_of_getElem? hplace.1) rfl p hplace.2
    split
    · exact ⟨.over,true,hfound,rfl,rfl,fun _ => hdone,fun _ _ _ => hdone⟩
    · exact ⟨_,false,handled_enter hfound (routed_committed _ _ _) fun _ _ _ => hdone⟩
  · exact .inl rfl

theorem terminate_handled {stored termed : Bool}
    (ha : w.lasting s (.terminate i stored termed)) :
    w.terminateStep i stored termed = w ∨ ∃ d p stage answered,
      Handled s w (w.terminateStep i stored termed) i d p stage answered := by
  unfold terminateStep
  split
  · rename_i m ordinal number failure p hfound
    split
    · rename_i envelope hparsed
      have hdone : ∀ e ∈ p.message.envelope, (w.bury p.consumer.name envelope failure
          number).Finished (p.consumer.name,e.eventId) := by
        intro e he
        rw [hparsed] at he
        obtain rfl := Option.some.inj he
        exact bury_finished _ _ _ _
      refine .inr ⟨⟨m,ordinal,number,.terminal failure⟩,p,.over,?_⟩
      cases stored with
      | true => exact ⟨termed,hfound,rfl,rfl,fun _ => hdone,fun _ _ _ => hdone⟩
      | false =>
        simp only [lasting,hfound,Option.all_some] at ha
        exact ⟨false,handled_enter hfound (by simp) fun _ => spares_finished ha⟩
    · exact .inl rfl
  · exact .inl rfl

theorem crash_handled (hw : w.Tracked s organizationOf) (ha : w.lasting s (.crash i)) :
    w.enter i .over = w ∨ ∃ d p stage answered,
      Handled s w (w.enter i .over) i d p stage answered := by
  cases hd : w.deliveries[i]? with
  | none =>
    left
    have hlen : w.deliveries.length ≤ i := List.getElem?_eq_none_iff.mp hd
    simp [enter,List.modify_eq_self hlen]
  | some d =>
    have hlt := hw.posted d (List.mem_of_getElem? hd)
    have hfound : w.delivery i = some (d,w.postings[d.posting]) := by
      simp [delivery,hd,hlt]
    simp only [lasting,hfound,Option.all_some] at ha
    exact .inr ⟨d,_,.over,false,handled_enter hfound (by simp) fun _ => spares_finished ha⟩

end Handling

end Consumers

end NexusAi.Events
