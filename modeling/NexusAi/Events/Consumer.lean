import NexusAi.Events.Outbox
import NexusAi.Lib.Run

/-!
# Durable consumers

The broker posts messages to consumers and delivers each of them until it is settled. A
delivery checks the message, runs one transaction with the claim of a receipt, the handler
and the mark in it, and acknowledges. What fails goes to a later delivery or to the
transaction that ends the event for this consumer. Deliveries of one event run side by
side, and each may crash where it stands. Of a NAK nothing is kept: the message is as open
as it was.
-/

namespace NexusAi.Events

inductive ReceiptStatus where
  | processing | processed | failed | dead
  deriving DecidableEq

structure ReceiptRow where
  consumerName : String
  eventId : ℕ
  organizationId : Option ℕ
  eventType : String
  status : ReceiptStatus
  attemptCount : ℕ
  lastErrorCode : Option String

def ReceiptRow.identity (row : ReceiptRow) : String × ℕ := (row.consumerName,row.eventId)

def ReceiptRow.finished (row : ReceiptRow) : Bool := row.status ∈ [.processed,.dead]

structure ReceiptClaim where
  (shouldProcess alreadyFinished : Bool)
  attempt : ℕ

def claimReceipt (consumerName : String) (envelope : EventEnvelope) (deliveryCount : ℕ)
    (rows : List ReceiptRow) : ReceiptClaim × List ReceiptRow :=
  let attempt := max 1 deliveryCount
  match Table.find ReceiptRow.identity (consumerName,envelope.eventId) rows with
  | none => (⟨true,false,attempt⟩,rows++[⟨consumerName,envelope.eventId,envelope.organizationId,
      envelope.eventType,.processing,attempt,none⟩])
  | some row =>
    if row.finished then (⟨false,true,row.attemptCount⟩,rows)
    else (⟨true,false,row.attemptCount+1⟩,
      Table.edit ReceiptRow.identity [(consumerName,envelope.eventId)] (fun r => { r with
        status := .processing
        attemptCount := row.attemptCount+1 }) rows)

def markProcessed (consumerName : String) (eventId : ℕ) (rows : List ReceiptRow) :
    List ReceiptRow :=
  Table.edit ReceiptRow.identity [(consumerName,eventId)] (fun r => { r with
    status := .processed
    lastErrorCode := none }) rows

def recordTerminal (consumerName : String) (envelope : EventEnvelope) (errorCode : String)
    (attempt : ℕ) (rows : List ReceiptRow) : List ReceiptRow :=
  Table.upsert ReceiptRow.identity ⟨consumerName,envelope.eventId,envelope.organizationId,
      envelope.eventType,.dead,max 1 attempt,some (truncated errorCode)⟩
    (fun r => { r with
      status := .dead
      lastErrorCode := some (truncated errorCode) }) rows

def processReceipt (consumerName : String) (envelope : EventEnvelope) (deliveryCount : ℕ)
    (rows : List ReceiptRow) : ReceiptClaim × List ReceiptRow :=
  let claim := claimReceipt consumerName envelope deliveryCount rows
  if claim.1.alreadyFinished then claim
  else (claim.1,markProcessed consumerName envelope.eventId claim.2)

section Lookups

variable {name : String} {envelope : EventEnvelope} {count : ℕ} {rows : List ReceiptRow}

theorem ReceiptRow.finished_iff (row : ReceiptRow) :
    row.finished ↔ row.status = .processed ∨ row.status = .dead := by
  simp [finished]

theorem find_markProcessed (eventId : ℕ) (k : String × ℕ) :
    Table.find ReceiptRow.identity k (markProcessed name eventId rows) =
      (Table.find ReceiptRow.identity k rows).map fun r => if k = (name,eventId) then { r with
        status := .processed
        lastErrorCode := none } else r := by
  unfold markProcessed
  rw [Table.find_edit]
  · simp only [List.mem_singleton]
  · exact fun _ _ => rfl

theorem find_recordTerminal (errorCode : String) (attempt : ℕ) (k : String × ℕ) :
    Table.find ReceiptRow.identity k (recordTerminal name envelope errorCode attempt rows) =
      if k = (name,envelope.eventId) then some (((Table.find ReceiptRow.identity k rows).map
        fun r => { r with
          status := .dead
          lastErrorCode := some (truncated errorCode) }).getD ⟨name,envelope.eventId,
            envelope.organizationId,envelope.eventType,.dead,max 1 attempt,
            some (truncated errorCode)⟩)
      else Table.find ReceiptRow.identity k rows := by
  refine Table.find_upsert ?_ k rows
  exact fun _ _ => rfl

variable {k : String × ℕ}

theorem find_claimReceipt_other (hk : k ≠ (name,envelope.eventId)) :
    Table.find ReceiptRow.identity k (claimReceipt name envelope count rows).2 =
      Table.find ReceiptRow.identity k rows := by
  unfold claimReceipt
  split
  · have hrow : ¬ (name,envelope.eventId) = k := fun he => hk he.symm
    simp [Table.find_append,ReceiptRow.identity,hrow]
  · split_ifs
    · rfl
    · have hother : k ∉ [(name,envelope.eventId)] := by simpa using hk
      rw [Table.find_edit]
      · simp [hother]
      · exact fun _ _ => rfl

theorem find_claimReceipt (h : (claimReceipt name envelope count rows).1.alreadyFinished = false) :
    ∃ r, Table.find ReceiptRow.identity (name,envelope.eventId)
      (claimReceipt name envelope count rows).2 = some r := by
  unfold claimReceipt at h ⊢
  cases hfound : Table.find ReceiptRow.identity (name,envelope.eventId) rows with
  | none =>
    refine ⟨⟨name,envelope.eventId,envelope.organizationId,envelope.eventType,.processing,
      max 1 count,none⟩,?_⟩
    simp [Table.find_append,ReceiptRow.identity,hfound]
  | some row =>
    simp only [hfound] at h ⊢
    split_ifs at h ⊢ with hf
    refine ⟨{ row with
      status := .processing
      attemptCount := row.attemptCount+1 },?_⟩
    rw [Table.find_edit]
    · simp [hfound]
    · exact fun _ _ => rfl

theorem processReceipt_finished :
    (processReceipt name envelope count rows).1.alreadyFinished ↔
      ∃ r, Table.find ReceiptRow.identity (name,envelope.eventId) rows = some r ∧
        r.finished := by
  unfold processReceipt claimReceipt
  cases h : Table.find ReceiptRow.identity (name,envelope.eventId) rows with
  | none => simp
  | some row => cases hf : row.finished <;> simp [hf]

theorem find_processReceipt_other (hk : k ≠ (name,envelope.eventId)) :
    Table.find ReceiptRow.identity k (processReceipt name envelope count rows).2 =
      Table.find ReceiptRow.identity k rows := by
  simp only [processReceipt]
  split_ifs
  · exact find_claimReceipt_other hk
  · rw [find_markProcessed,find_claimReceipt_other hk]
    simp [hk]

theorem find_processReceipt_kept {r : ReceiptRow}
    (h : Table.find ReceiptRow.identity k rows = some r) (hr : r.finished) :
    Table.find ReceiptRow.identity k (processReceipt name envelope count rows).2 = some r := by
  by_cases hk : k = (name,envelope.eventId)
  · subst hk
    simp [processReceipt,claimReceipt,h,hr]
  · rw [find_processReceipt_other hk,h]

theorem find_processReceipt
    (h : (processReceipt name envelope count rows).1.alreadyFinished = false) :
    ∃ r, Table.find ReceiptRow.identity (name,envelope.eventId)
      (processReceipt name envelope count rows).2 = some r ∧ r.status = .processed := by
  unfold processReceipt at h ⊢
  by_cases hf : (claimReceipt name envelope count rows).1.alreadyFinished
  · simp [hf] at h
  · obtain ⟨r,hr⟩ := find_claimReceipt (Bool.eq_false_of_not_eq_true hf)
    rw [if_neg hf]
    exact ⟨_,by rw [find_markProcessed,hr]; rfl,by simp⟩

end Lookups

structure ConsumerSpec where
  name : String
  eventTypes : List String
  maxDeliveryAttempts : Option ℕ

def ConsumerSpec.maxAttempts (s : EventsSettings) (spec : ConsumerSpec) : ℕ :=
  match spec.maxDeliveryAttempts with
  | some (n+1) => n+1
  | _ => s.maxDeliveryAttempts

theorem ConsumerSpec.maxAttempts_pos (s : EventsSettings) (spec : ConsumerSpec) :
    0 < spec.maxAttempts s := by
  unfold ConsumerSpec.maxAttempts
  split
  · exact Nat.succ_pos _
  · exact s.deliveryBounds.1

structure Subject where
  scope : EventScope
  domain : String

/-- A message as its parsers read it: the envelope of its data, its subject, and
of the payload the organization and whether its registered model accepts it. -/
structure Message where
  envelope : Option EventEnvelope
  subject : Option Subject
  payloadOrganization : Option String
  payloadValid : Bool

def EventEnvelope.domain (envelope : EventEnvelope) : String :=
  String.ofList (envelope.eventType.toList.takeWhile fun c => c ≠ '.')

def organizationText : Option ℕ → String
  | none => "None"
  | some id => toString id

def checkProvenance (message : Message) (envelope : EventEnvelope) : Option PlatformError :=
  match message.subject with
  | none => some .subjectInvalid
  | some subject =>
    if subject.scope ≠ envelope.scope then some .tenantScope
    else if subject.domain ≠ envelope.domain then some .tenantScope
    else if message.payloadOrganization.any fun text =>
      text ≠ organizationText envelope.organizationId then some .tenantScope
    else none

/-- The types and versions that have a payload model. -/
abbrev Registry := List (String × ℕ)

def modelFor (registry : Registry) (envelope : EventEnvelope) : Option PlatformError :=
  if (envelope.eventType,envelope.eventVersion) ∈ registry then none
  else if registry.any fun known => known.1 = envelope.eventType then
    some .versionUnsupported
  else some .typeUnknown

def decode (registry : Registry) (message : Message) (envelope : EventEnvelope) :
    Option PlatformError :=
  match modelFor registry envelope with
  | some error => some error
  | none => if message.payloadValid then none else some .contractInvalid

inductive Admission where
  | malformed
  | rejected (error : PlatformError)
  | admitted (envelope : EventEnvelope)

def admitMessage (registry : Registry) (spec : ConsumerSpec) (message : Message) : Admission :=
  match message.envelope with
  | none => .malformed
  | some envelope =>
    match (checkProvenance message envelope).or (decode registry message envelope) with
    | some error => .rejected error
    | none => if envelope.eventType ∈ spec.eventTypes then .admitted envelope
        else .rejected .contractInvalid

inductive Stage where
  | received | committed | terminal (failure : Failure) | over
  deriving DecidableEq

/-- The class an exception of the transaction or of the acknowledgement is caught
under. -/
def retried : Failure → Bool
  | .platform .handlerTerminal => false
  | .platform .handlerRetryable => true
  | .foreign mro => "TimeoutError" ∈ mro || classifyNames mro = .retryable
  | failure => classifyFailure failure = .retryable

/-- What is left to do after an exception: a NAK ends the delivery. -/
def routed (maxAttempts number : ℕ) (failure : Failure) : Stage :=
  if retried failure then
    if shouldDeadLetter number maxAttempts then .terminal failure else .over
  else .terminal failure

structure Posting where
  consumer : ConsumerSpec
  message : Message
  delivered : ℕ
  settled : Bool

/-- A delivery, with the number that the broker gave it and the one that was read
from its metadata. -/
structure Delivery where
  (posting ordinal number : ℕ)
  stage : Stage

structure Consumers where
  receipts : List ReceiptRow
  letters : List DeadLetterRow
  /-- The consumers and events whose effect has been committed, once for each commit. -/
  effects : List (String × ℕ)
  postings : List Posting
  deliveries : List Delivery

inductive ConsumerAction where
  | post (consumer : ConsumerSpec) (message : Message)
  | deliver (posting : ℕ) (readable : Bool)
  | process (delivery : ℕ) (outcome : Option Failure)
  | ack (delivery : ℕ) (outcome : Option Failure)
  | terminate (delivery : ℕ) (stored termed : Bool)
  | crash (delivery : ℕ)

namespace Consumers

def initial : Consumers := ⟨[],[],[],[],[]⟩

def delivery (w : Consumers) (i : ℕ) : Option (Delivery × Posting) :=
  (w.deliveries[i]?).bind fun d => (w.postings[d.posting]?).map fun p => (d,p)

def enter (w : Consumers) (i : ℕ) (stage : Stage) : Consumers :=
  { w with deliveries := w.deliveries.modify i fun d => { d with stage := stage } }

def settle (w : Consumers) (m : ℕ) (answered : Bool) : Consumers :=
  { w with postings := w.postings.modify m fun p => { p with settled := p.settled || answered } }

def deliverStep (w : Consumers) (m : ℕ) (readable : Bool) : Consumers :=
  match w.postings[m]? with
  | none => w
  | some p => { w with
    postings := w.postings.modify m fun p => { p with delivered := p.delivered+1 }
    deliveries := w.deliveries++[⟨m,p.delivered+1,if readable then p.delivered+1 else 1,
      .received⟩] }

/-- The transaction of a delivery that was admitted. -/
def commit (w : Consumers) (name : String) (envelope : EventEnvelope) (number : ℕ) : Consumers :=
  let processed := processReceipt name envelope number w.receipts
  { w with
    receipts := processed.2
    effects := if processed.1.alreadyFinished then w.effects
      else (name,envelope.eventId)::w.effects }

/-- The transaction of `_terminal`. -/
def bury (w : Consumers) (name : String) (envelope : EventEnvelope) (failure : Failure)
    (number : ℕ) : Consumers :=
  { w with
    receipts := recordTerminal name envelope (safeErrorCode failure) number w.receipts
    letters := record envelope .consumer (classifyFailure failure) (safeErrorCode failure) number
      (some name) w.letters }

def processStep (s : EventsSettings) (registry : Registry) (w : Consumers) (i : ℕ)
    (outcome : Option Failure) : Consumers :=
  match w.delivery i with
  | some (⟨m,_,number,.received⟩,p) =>
    match admitMessage registry p.consumer p.message, outcome with
    | .malformed, _ => (w.settle m outcome.isNone).enter i .over
    | .rejected error, _ => w.enter i (.terminal (.platform error))
    | .admitted envelope, none =>
      (w.commit p.consumer.name envelope number).enter i .committed
    | .admitted _, some failure => w.enter i (routed (p.consumer.maxAttempts s) number failure)
  | _ => w

def ackStep (s : EventsSettings) (w : Consumers) (i : ℕ) (outcome : Option Failure) : Consumers :=
  match w.delivery i with
  | some (⟨m,_,number,.committed⟩,p) =>
    match outcome with
    | none => (w.settle m true).enter i .over
    | some failure => w.enter i (routed (p.consumer.maxAttempts s) number failure)
  | _ => w

/-- Whether the letter is stored or not, the delivery ends. -/
def terminateStep (w : Consumers) (i : ℕ) (stored termed : Bool) : Consumers :=
  match w.delivery i with
  | some (⟨m,_,number,.terminal failure⟩,p) =>
    match p.message.envelope with
    | some envelope =>
      if stored then
        ((w.bury p.consumer.name envelope failure number).settle m termed).enter i .over
      else w.enter i .over
    | none => w
  | _ => w

def step (s : EventsSettings) (registry : Registry) (w : Consumers) : ConsumerAction → Consumers
  | .post consumer message => { w with postings := w.postings++[⟨consumer,message,0,false⟩] }
  | .deliver m readable => w.deliverStep m readable
  | .process i outcome => w.processStep s registry i outcome
  | .ack i outcome => w.ackStep s i outcome
  | .terminate i stored termed => w.terminateStep i stored termed
  | .crash i => w.enter i .over

def reach (s : EventsSettings) (registry : Registry) (as : List ConsumerAction) : Consumers :=
  Run.exec (step s registry) as initial

end Consumers

end NexusAi.Events
