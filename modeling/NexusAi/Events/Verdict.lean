import NexusAi.Events.Consumer

/-!
# One effect and one verdict

Only two transactions write receipts. The handler's one finds the receipt open
and leaves it processed. The terminal one does not look at what it finds, so a
delivery that fails after the commit, or after the commit of another one, buries
an event whose effect stands.
-/

namespace NexusAi.Events

namespace Consumers

def receipt (w : Consumers) (k : String × ℕ) : Option ReceiptRow :=
  Table.find ReceiptRow.identity k w.receipts

def sparing (w : Consumers) : ConsumerAction → Bool
  | .terminate i true _ => (w.delivery i).all fun d => d.2.message.envelope.all fun envelope =>
      (w.receipt (d.2.consumer.name,envelope.eventId)).all fun r => r.status ≠ .processed
  | _ => true

/-- What a step does to the tables: nothing, the transaction of a handler, or the
one that buries. -/
inductive Writes (w w' : Consumers) : ConsumerAction → Prop
  | none (a : ConsumerAction) (hreceipts : w'.receipts = w.receipts)
      (hletters : w'.letters = w.letters) (heffects : w'.effects = w.effects) : Writes w w' a
  | commit (a : ConsumerAction) (name : String) (envelope : EventEnvelope) (number : ℕ)
      (hreceipts : w'.receipts = (w.commit name envelope number).receipts)
      (hletters : w'.letters = w.letters)
      (heffects : w'.effects = (w.commit name envelope number).effects) : Writes w w' a
  | bury (i : ℕ) (termed : Bool) (d : Delivery) (p : Posting) (envelope : EventEnvelope)
      (failure : Failure) (hfound : w.delivery i = some (d,p))
      (hparsed : p.message.envelope = some envelope)
      (hreceipts : w'.receipts = (w.bury p.consumer.name envelope failure d.number).receipts)
      (hletters : w'.letters = (w.bury p.consumer.name envelope failure d.number).letters)
      (heffects : w'.effects = w.effects) : Writes w w' (.terminate i true termed)

theorem step_writes (s : EventsSettings) (registry : Registry) (w : Consumers)
    (a : ConsumerAction) : Writes w (w.step s registry a) a := by
  cases a with
  | post | crash => exact .none _ rfl rfl rfl
  | deliver =>
    simp only [step,deliverStep]
    split <;> exact .none _ rfl rfl rfl
  | process =>
    simp only [step,processStep]
    split
    · split
      · exact .none _ rfl rfl rfl
      · exact .none _ rfl rfl rfl
      · exact .commit _ _ _ _ rfl rfl rfl
      · exact .none _ rfl rfl rfl
    · exact .none _ rfl rfl rfl
  | ack =>
    simp only [step,ackStep]
    split
    · split <;> exact .none _ rfl rfl rfl
    · exact .none _ rfl rfl rfl
  | terminate i stored termed =>
    simp only [step,terminateStep]
    split
    · rename_i hfound
      split
      · rename_i envelope hparsed
        cases stored with
        | true => exact .bury i termed _ _ envelope _ hfound hparsed rfl rfl rfl
        | false => exact .none _ rfl rfl rfl
      · exact .none _ rfl rfl rfl
    · exact .none _ rfl rfl rfl

/-- Each event with an effect has one, and is processed. Each letter is about an
event that is dead for the consumer that it names. -/
structure Judged (w : Consumers) : Prop where
  once : w.effects.Nodup
  processed : ∀ k ∈ w.effects, ∃ r, w.receipt k = some r ∧ r.status = .processed
  dead : ∀ letter ∈ w.letters, ∃ name r, letter.consumerName = some name ∧
    w.receipt (name,letter.eventId) = some r ∧ r.status = .dead

section Steps

variable {w w' : Consumers}

theorem Judged.same (hw : w.Judged) (hreceipts : w'.receipts = w.receipts)
    (hletters : w'.letters = w.letters) (heffects : w'.effects = w.effects) : w'.Judged := by
  have hreceipt : w'.receipt = w.receipt := by
    unfold receipt
    rw [hreceipts]
  refine ⟨by rw [heffects]; exact hw.once,?_,?_⟩
  · rw [heffects,hreceipt]
    exact hw.processed
  · rw [hletters,hreceipt]
    exact hw.dead

variable {k : String × ℕ} {name : String} {envelope : EventEnvelope}

theorem commit_receipt {r : ReceiptRow} {number : ℕ} (h : w.receipt k = some r)
    (hr : r.status = .processed ∨ r.status = .dead) :
    (w.commit name envelope number).receipt k = some r :=
  find_processReceipt_kept h (r.finished_iff.mpr hr)

theorem Judged.commit (hw : w.Judged) (name : String) (envelope : EventEnvelope) (number : ℕ) :
    (w.commit name envelope number).Judged := by
  have hkept : ∀ k ∈ w.effects, ∃ r, (w.commit name envelope number).receipt k = some r ∧
      r.status = .processed := by
    intro k hk
    obtain ⟨r,hr,hstatus⟩ := hw.processed k hk
    exact ⟨r,commit_receipt hr (.inl hstatus),hstatus⟩
  have hdead : ∀ letter ∈ w.letters, ∃ consumer r, letter.consumerName = some consumer ∧
      (w.commit name envelope number).receipt (consumer,letter.eventId) = some r ∧
      r.status = .dead := by
    intro letter hletter
    obtain ⟨consumer,r,hname,hr,hstatus⟩ := hw.dead letter hletter
    exact ⟨consumer,r,hname,commit_receipt hr (.inr hstatus),hstatus⟩
  by_cases hf : (processReceipt name envelope number w.receipts).1.alreadyFinished
  · have heffects : (w.commit name envelope number).effects = w.effects := by
      simp [Consumers.commit,hf]
    exact ⟨by rw [heffects]; exact hw.once,by rw [heffects]; exact hkept,hdead⟩
  · have heffects : (w.commit name envelope number).effects =
        (name,envelope.eventId)::w.effects := by
      simp [Consumers.commit,hf]
    -- an effect that stands has a finished receipt, and the handler would not have run
    have hfresh : (name,envelope.eventId) ∉ w.effects := by
      intro hmem
      obtain ⟨r,hr,hstatus⟩ := hw.processed _ hmem
      exact hf (processReceipt_finished.mpr ⟨r,hr,r.finished_iff.mpr (.inl hstatus)⟩)
    refine ⟨?_,?_,hdead⟩
    · rw [heffects]
      exact List.nodup_cons.mpr ⟨hfresh,hw.once⟩
    · rw [heffects]
      intro k hk
      rcases List.mem_cons.mp hk with rfl | hk
      · exact find_processReceipt (Bool.eq_false_of_not_eq_true hf)
      · exact hkept k hk

theorem bury_receipt (name : String) (envelope : EventEnvelope) (failure : Failure) (number : ℕ) :
    ∃ r, (w.bury name envelope failure number).receipt (name,envelope.eventId) = some r ∧
      r.status = .dead := by
  refine ⟨_,(find_recordTerminal _ _ _).trans (if_pos rfl),?_⟩
  cases Table.find ReceiptRow.identity (name,envelope.eventId) w.receipts <;> rfl

theorem bury_receipt_other (hk : k ≠ (name,envelope.eventId)) (failure : Failure) (number : ℕ) :
    (w.bury name envelope failure number).receipt k = w.receipt k :=
  (find_recordTerminal _ _ _).trans (if_neg hk)

theorem Judged.bury (hw : w.Judged)
    (hopen : ∀ r, w.receipt (name,envelope.eventId) = some r → r.status ≠ .processed)
    (failure : Failure) (number : ℕ) : (w.bury name envelope failure number).Judged := by
  refine ⟨hw.once,?_,?_⟩
  · intro k hk
    obtain ⟨r,hr,hstatus⟩ := hw.processed k hk
    have hother : k ≠ (name,envelope.eventId) := by
      rintro rfl
      exact hopen r hr hstatus
    exact ⟨r,by rw [bury_receipt_other hother,hr],hstatus⟩
  · intro letter hletter
    rcases mem_record_cases hletter with hold | hnew
    · obtain ⟨consumer,r,hname,hr,hstatus⟩ := hw.dead letter hold
      by_cases hsame : (consumer,letter.eventId) = (name,envelope.eventId)
      · obtain ⟨r',hr',hstatus'⟩ := bury_receipt (w := w) name envelope failure number
        exact ⟨consumer,r',hname,by rw [hsame,hr'],hstatus'⟩
      · exact ⟨consumer,r,hname,by rw [bury_receipt_other hsame,hr],hstatus⟩
    · obtain ⟨r,hr,hstatus⟩ := bury_receipt (w := w) name envelope failure number
      have hname : letter.consumerName = some name := congrArg (fun k => k.2.2) hnew
      have hevent : letter.eventId = envelope.eventId := congrArg Prod.fst hnew
      exact ⟨name,r,hname,by rw [hevent,hr],hstatus⟩

theorem sparing_open {i : ℕ} {termed : Bool} {d : Delivery} {p : Posting}
    (ha : w.sparing (.terminate i true termed)) (hfound : w.delivery i = some (d,p))
    (hparsed : p.message.envelope = some envelope) (r : ReceiptRow)
    (hr : w.receipt (p.consumer.name,envelope.eventId) = some r) : r.status ≠ .processed := by
  simpa [sparing,hfound,hparsed,hr] using ha

theorem Judged.step (hw : w.Judged) (s : EventsSettings) (registry : Registry) (a : ConsumerAction)
    (ha : w.sparing a) : (w.step s registry a).Judged := by
  cases step_writes s registry w a with
  | none _ hreceipts hletters heffects => exact hw.same hreceipts hletters heffects
  | commit _ name envelope number hreceipts hletters heffects =>
    exact (hw.commit name envelope number).same hreceipts hletters heffects
  | bury _ _ d _ _ failure hfound hparsed hreceipts hletters heffects =>
    exact (hw.bury (sparing_open ha hfound hparsed) failure d.number).same hreceipts hletters
      heffects

theorem processed_step (s : EventsSettings) (registry : Registry) (a : ConsumerAction)
    (ha : w.sparing a) {r : ReceiptRow} (hr : w.receipt k = some r)
    (hstatus : r.status = .processed) : (w.step s registry a).receipt k = some r := by
  unfold receipt at hr ⊢
  cases step_writes s registry w a with
  | none _ hreceipts => rw [hreceipts,hr]
  | commit _ _ _ _ hreceipts =>
    rw [hreceipts]
    exact commit_receipt hr (.inl hstatus)
  | bury _ _ d p envelope failure hfound hparsed hreceipts =>
    have hother : k ≠ (p.consumer.name,envelope.eventId) := by
      rintro rfl
      exact sparing_open ha hfound hparsed r hr hstatus
    rw [hreceipts]
    exact (bury_receipt_other hother failure d.number).trans hr

end Steps

theorem judged_initial : initial.Judged :=
  ⟨List.nodup_nil,fun _ hk => absurd hk List.not_mem_nil,fun _ hk => absurd hk List.not_mem_nil⟩

end Consumers

/-- Where no processed event is buried, each consumer has the effect of an event
once at the most, a processed receipt stays as it is, and an event with a letter
for a consumer has no effect there. -/
theorem consumes_once (s : EventsSettings) (registry : Registry) (as : List ConsumerAction)
    (hok : Run.Conforms (Consumers.step s registry) (fun w a => w.sparing a) as
      Consumers.initial) :
    (∀ k, (Consumers.reach s registry as).effects.count k ≤ 1) ∧
    (∀ before after, as = before++after → ∀ k r,
      (Consumers.reach s registry before).receipt k = some r → r.status = .processed →
        (Consumers.reach s registry as).receipt k = some r) ∧
    ∀ letter ∈ (Consumers.reach s registry as).letters, ∀ name,
      letter.consumerName = some name →
        (name,letter.eventId) ∉ (Consumers.reach s registry as).effects := by
  have hjudged : (Consumers.reach s registry as).Judged :=
    Run.exec_conforming (Consumers.step s registry) _ Consumers.Judged
      (fun _ a ha hw => hw.step s registry a ha) as _ hok Consumers.judged_initial
  refine ⟨fun k => List.nodup_iff_count_le_one.mp hjudged.once k,?_,?_⟩
  · rintro before after rfl k r hr hstatus
    have hafter := ((Run.conforms_append _ _ before after _).mp hok).2
    have hsplit : Consumers.reach s registry (before++after) =
        Run.exec (Consumers.step s registry) after (Consumers.reach s registry before) :=
      Run.exec_append _ before after _
    rw [hsplit]
    exact Run.exec_conforming (Consumers.step s registry) _ (fun w => w.receipt k = some r)
      (fun w a ha hw => Consumers.processed_step s registry a ha hw hstatus) after _ hafter hr
  · intro letter hletter name hname hmem
    obtain ⟨_,r,hconsumer,hr,hdead⟩ := hjudged.dead letter hletter
    obtain ⟨_,hr',hprocessed⟩ := hjudged.processed _ hmem
    rw [hname] at hconsumer
    obtain rfl := Option.some.inj hconsumer
    rw [hr] at hr'
    rw [← Option.some.inj hr',hdead] at hprocessed
    cases hprocessed

def sampleConsumer : ConsumerSpec := ⟨"journal",["campaign.started"],none⟩

def sampleRegistry : Registry := [("campaign.started",1)]

def sampleMessage (eventId : ℕ) : Message :=
  ⟨some (sampleEnvelope eventId),some ⟨.tenant,"campaign"⟩,none,true⟩

/-- An event is processed while a second delivery of it waits. Another one fails
for good. -/
def settledRun : List ConsumerAction :=
  [.post sampleConsumer (sampleMessage 7),.post sampleConsumer (sampleMessage 8),
    .deliver 0 true,.deliver 0 true,.process 0 none,.process 1 none,
    .ack 0 (some (.foreign ["TimeoutError"])),.ack 1 none,
    .deliver 1 true,.process 2 (some (.platform .handlerTerminal)),.terminate 2 true true]

theorem settledRun_consumes :
    Run.Conforms (Consumers.step sampleSettings sampleRegistry) (fun w a => w.sparing a)
      settledRun Consumers.initial ∧
    (Consumers.reach sampleSettings sampleRegistry settledRun).receipts.map ReceiptRow.status =
      [.processed,.dead] ∧
    (Consumers.reach sampleSettings sampleRegistry settledRun).effects.count ("journal",7) ≤ 1 := by
  have hok : Run.Conforms (Consumers.step sampleSettings sampleRegistry)
      (fun w a => w.sparing a) settledRun Consumers.initial := by
    decide +kernel
  exact ⟨hok,by decide +kernel,
    (consumes_once sampleSettings sampleRegistry settledRun hok).1 ("journal",7)⟩

/-- The acknowledgement of the last delivery times out after the commit. -/
def unackedRun : List ConsumerAction :=
  [.post sampleConsumer (sampleMessage 7),.deliver 0 true,.crash 0,.deliver 0 true,
    .process 1 none,.ack 1 (some (.foreign ["TimeoutError"])),.terminate 1 true true]

/-- The event was processed, and is dead at the end with a letter. -/
theorem unackedRun_buries :
    (Consumers.reach sampleSettings sampleRegistry (unackedRun.take 5)).receipts.map
      ReceiptRow.status = [.processed] ∧
    (Consumers.reach sampleSettings sampleRegistry unackedRun).receipts.map
      ReceiptRow.status = [.dead] ∧
    (Consumers.reach sampleSettings sampleRegistry unackedRun).effects = [("journal",7)] ∧
    (Consumers.reach sampleSettings sampleRegistry unackedRun).letters.map
      DeadLetterRow.identity = [(7,.consumer,some "journal")] := by
  decide +kernel

end NexusAi.Events
