import NexusAi.Lib.Table

/-!
# Events, outbox and dead letters

A failure is what the handlers of the event platform ask of an exception. Of an envelope
only what relays and consumers decide on is kept. A row of the outbox keeps the envelope
that its stored text parses to, or none if it does not parse when it is read. Updates name
a row by its id alone. Delays and instants are microseconds.
-/

namespace NexusAi.Events

inductive FailureClass where
  | retryable | terminal
  deriving DecidableEq

inductive PlatformError where
  | internal | contractInvalid | typeUnknown | versionUnsupported | subjectInvalid | tenantScope
  | publishFailed | durableTransportUnavailable | handlerRetryable | handlerTerminal
  deriving DecidableEq

namespace PlatformError

def code : PlatformError → String
  | .internal => "NXS_EVENT_INTERNAL"
  | .contractInvalid => "NXS_EVENT_CONTRACT_INVALID"
  | .typeUnknown => "NXS_EVENT_TYPE_UNKNOWN"
  | .versionUnsupported => "NXS_EVENT_VERSION_UNSUPPORTED"
  | .subjectInvalid => "NXS_EVENT_SUBJECT_INVALID"
  | .tenantScope => "NXS_EVENT_TENANT_SCOPE"
  | .publishFailed => "NXS_EVENT_PUBLISH_FAILED"
  | .durableTransportUnavailable => "NXS_EVENT_DURABLE_TRANSPORT_UNAVAILABLE"
  | .handlerRetryable => "NXS_EVENT_HANDLER_RETRYABLE"
  | .handlerTerminal => "NXS_EVENT_HANDLER_TERMINAL"

def failureClass : PlatformError → FailureClass
  | .publishFailed | .durableTransportUnavailable | .handlerRetryable => .retryable
  | _ => .terminal

end PlatformError

inductive Failure where
  | platform (error : PlatformError)
  | nxs (code : String) (mro : List String)
  | foreign (mro : List String)
  deriving DecidableEq

def retryableNames : List String :=
  ["TimeoutError","ConnectionError","ConnectionResetError","ConnectionRefusedError","OSError",
    "BrokenPipeError","NoRespondersError","ServiceUnavailableError","DisconnectedError",
    "OperationalError","InterfaceError","DBAPIError","InternalError_"]

def classifyNames (mro : List String) : FailureClass :=
  if mro.any fun name => name ∈ retryableNames then .retryable else .terminal

def classifyFailure : Failure → FailureClass
  | .platform error => error.failureClass
  | .nxs _ mro => classifyNames mro
  | .foreign mro => classifyNames mro

def safeErrorCode : Failure → String
  | .platform error => error.code
  | .nxs code _ => code
  | .foreign mro => String.ofList ((mro.headD "").toList.take 64)

def maxExponent : ℕ := 20

def backoffDelay (attempt base limit : ℕ) : ℕ :=
  if attempt < 1 then 0 else min limit (base*2^min (attempt-1) maxExponent)

def shouldDeadLetter (attempt maxAttempts : ℕ) : Bool := maxAttempts ≤ attempt

inductive EventScope where
  | tenant | global
  deriving DecidableEq

/-- The identity of an event. A tenant event has an organization, a global one has none. -/
structure EventEnvelope where
  eventId : ℕ
  eventType : String
  eventVersion : ℕ
  scope : EventScope
  organizationId : Option ℕ
  scopeConsistency : scope = .tenant ↔ organizationId ≠ none

structure EventsSettings where
  (publisherBatchSize publisherLeaseSeconds maxPublishAttempts maxDeliveryAttempts retryBaseDelay : ℕ)
  retryMaxDelay : ℕ
  batchBounds : 1 ≤ publisherBatchSize ∧ publisherBatchSize ≤ 1000
  leaseBounds : 5 ≤ publisherLeaseSeconds ∧ publisherLeaseSeconds ≤ 600
  publishBounds : 1 ≤ maxPublishAttempts ∧ maxPublishAttempts ≤ 50
  deliveryBounds : 1 ≤ maxDeliveryAttempts ∧ maxDeliveryAttempts ≤ 50
  delayBounds : retryBaseDelay ≤ retryMaxDelay

def sampleSettings : EventsSettings where
  publisherBatchSize := 2
  publisherLeaseSeconds := 30
  maxPublishAttempts := 2
  maxDeliveryAttempts := 2
  retryBaseDelay := 1000000
  retryMaxDelay := 60000000
  batchBounds := by decide
  leaseBounds := by decide
  publishBounds := by decide
  deliveryBounds := by decide
  delayBounds := by decide

def sampleEnvelope (eventId : ℕ) : EventEnvelope :=
  ⟨eventId,"campaign.started",1,.tenant,some 1,by decide⟩

inductive OutboxStatus where
  | pending | publishing | published | failed | dead
  deriving DecidableEq

structure OutboxRow where
  (id organizationId : ℕ)
  eventType : String
  eventVersion : ℕ
  subject : String
  envelope : Option EventEnvelope
  status : OutboxStatus
  attemptCount : ℕ
  availableAt : ℤ
  (lastErrorCode leaseOwner : Option String)
  (leaseExpiresAt publishedAt : Option ℤ)

structure OutboxItem where
  (id organizationId : ℕ)
  eventType : String
  eventVersion : ℕ
  subject : String
  envelope : Option EventEnvelope
  attemptCount : ℕ

def second : ℤ := 1000000

/-- A second row under the id of an event is refused and leaves the first. The
flag says whether the stored text parses when it is read. -/
def enqueue (envelope : EventEnvelope) (subject : String) (readable : Bool) (now : ℤ)
    (rows : List OutboxRow) : List OutboxRow :=
  match envelope.organizationId with
  | none => rows
  | some organizationId =>
    if (Table.find OutboxRow.id envelope.eventId rows).isSome then rows
    else rows++[⟨envelope.eventId,organizationId,envelope.eventType,envelope.eventVersion,subject,
      if readable then some envelope else none,.pending,0,now,none,none,none,none⟩]

def OutboxRow.claimable (now : ℤ) (row : OutboxRow) : Bool :=
  ((row.status = .pending ∨ row.status = .failed) && row.availableAt ≤ now) ||
    (row.status = .publishing && row.leaseExpiresAt.any fun t => t ≤ now)

def OutboxRow.item (row : OutboxRow) : OutboxItem :=
  ⟨row.id,row.organizationId,row.eventType,row.eventVersion,row.subject,row.envelope,
    row.attemptCount⟩

/-- The ids that a claim takes, earliest first. Rows locked elsewhere are skipped. -/
def candidates (batchSize : ℕ) (now : ℤ) (skipped : List ℕ) (rows : List OutboxRow) : List ℕ :=
  (((rows.filter fun r => r.claimable now && r.id ∉ skipped).insertionSort fun r s =>
    r.availableAt ≤ s.availableAt).take batchSize).map OutboxRow.id

def OutboxRow.claimed (owner : String) (lease : ℤ) (row : OutboxRow) : OutboxRow :=
  { row with
    status := .publishing
    leaseOwner := some owner
    leaseExpiresAt := some lease
    attemptCount := row.attemptCount+1 }

def claimBatch (owner : String) (batchSize leaseSeconds : ℕ) (now : ℤ) (skipped : List ℕ)
    (rows : List OutboxRow) : List OutboxItem × List OutboxRow :=
  let ids := candidates batchSize now skipped rows
  let claimed := Table.edit OutboxRow.id ids (OutboxRow.claimed owner (now+leaseSeconds*second)) rows
  ((claimed.filter fun r => r.id ∈ ids).map OutboxRow.item,claimed)

def markPublished (id : ℕ) (now : ℤ) (rows : List OutboxRow) : List OutboxRow :=
  Table.edit OutboxRow.id [id] (fun r => { r with
    status := .published
    publishedAt := some now
    leaseOwner := none
    leaseExpiresAt := none
    lastErrorCode := none }) rows

def truncated (code : String) : String := String.ofList (code.toList.take 64)

def reschedule (id : ℕ) (errorCode : String) (availableAt : ℤ) (rows : List OutboxRow) :
    List OutboxRow :=
  Table.edit OutboxRow.id [id] (fun r => { r with
    status := .failed
    lastErrorCode := some (truncated errorCode)
    availableAt := availableAt
    leaseOwner := none
    leaseExpiresAt := none }) rows

def markDead (id : ℕ) (errorCode : String) (rows : List OutboxRow) : List OutboxRow :=
  Table.edit OutboxRow.id [id] (fun r => { r with
    status := .dead
    lastErrorCode := some (truncated errorCode)
    leaseOwner := none
    leaseExpiresAt := none }) rows

inductive Origin where
  | outboxPublish | consumer
  deriving DecidableEq

structure DeadLetterRow where
  (organizationId eventId : ℕ)
  eventType : String
  eventVersion : ℕ
  origin : Origin
  consumerName : Option String
  failureClass : FailureClass
  errorCode : String
  attemptCount : ℕ

def DeadLetterRow.identity (row : DeadLetterRow) : ℕ × Origin × Option String :=
  (row.eventId,row.origin,row.consumerName)

/-- Only tenant events get a row, and only one for each origin and consumer. -/
def record (envelope : EventEnvelope) (origin : Origin) (failureClass : FailureClass)
    (errorCode : String) (attemptCount : ℕ) (consumerName : Option String)
    (letters : List DeadLetterRow) : List DeadLetterRow :=
  match envelope.organizationId with
  | none => letters
  | some organizationId =>
    if (Table.find DeadLetterRow.identity (envelope.eventId,origin,consumerName) letters).isSome
    then letters
    else letters++[⟨organizationId,envelope.eventId,envelope.eventType,envelope.eventVersion,
      origin,consumerName,failureClass,truncated errorCode,attemptCount⟩]

theorem mem_record {envelope : EventEnvelope} {origin : Origin} {failureClass : FailureClass}
    {errorCode : String} {attemptCount : ℕ} {consumerName : Option String}
    {letters : List DeadLetterRow} {row : DeadLetterRow} (h : row ∈ letters) :
    row ∈ record envelope origin failureClass errorCode attemptCount consumerName letters := by
  unfold record
  split
  · exact h
  · split_ifs
    · exact h
    · exact List.mem_append_left _ h

theorem mem_record_cases {envelope : EventEnvelope} {origin : Origin} {failureClass : FailureClass}
    {errorCode : String} {attemptCount : ℕ} {consumerName : Option String}
    {letters : List DeadLetterRow} {row : DeadLetterRow}
    (h : row ∈ record envelope origin failureClass errorCode attemptCount consumerName letters) :
    row ∈ letters ∨ row.identity = (envelope.eventId,origin,consumerName) := by
  unfold record at h
  split at h
  · exact .inl h
  · split_ifs at h
    · exact .inl h
    · rcases List.mem_append.mp h with hold | hnew
      · exact .inl hold
      · exact .inr (by rw [List.mem_singleton.mp hnew]; rfl)

theorem recorded (envelope : EventEnvelope) (htenant : envelope.organizationId ≠ none)
    (origin : Origin) (failureClass : FailureClass) (errorCode : String) (attemptCount : ℕ)
    (consumerName : Option String) (letters : List DeadLetterRow) :
    ∃ row ∈ record envelope origin failureClass errorCode attemptCount consumerName letters,
      row.identity = (envelope.eventId,origin,consumerName) := by
  unfold record
  split
  · contradiction
  · split_ifs with hfound
    · obtain ⟨row,hrow⟩ := Option.isSome_iff_exists.mp hfound
      exact ⟨row,Table.find_mem hrow,Table.find_key hrow⟩
    · exact ⟨_,List.mem_append_right _ (List.mem_singleton_self _),rfl⟩

end NexusAi.Events
