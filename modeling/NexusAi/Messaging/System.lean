import Mathlib.Data.String.Basic
import Mathlib.Data.List.Lex
import NexusAi.Lib.Table
import NexusAi.Lib.Run

/-!
# Messages, sends and callbacks

The tables of claims, messages and receipts with the statements that read and write
them; a digest is kept as what was digested. A send goes from claim to queue, provider,
mark and final claim, each of them a transaction of its own or a call to the provider,
and may fail or die between any two. A callback request folds its statuses one after
another, each in one transaction that reads the message first and writes it at its
commit. The unique index on receipts lets the second of two such transactions wait for
the first.
-/

namespace NexusAi.Messaging

inductive MessageChannel where
  | whatsapp | email | sms

inductive MessageStatus where
  | received | queued | sending | sent | delivered | read | failed
  deriving DecidableEq

namespace MessageStatus

def rank : MessageStatus → ℕ
  | .received => 0
  | .queued => 1
  | .sending => 2
  | .sent => 3
  | .delivered => 4
  | .read => 5
  | .failed => 5

def terminal (status : MessageStatus) : Bool := status ∈ [.read,.failed]

end MessageStatus

structure TransitionOutcome where
  status : MessageStatus
  (advanced duplicate : Bool)

def applyCallback (current reported : MessageStatus) : TransitionOutcome :=
  if reported = current then ⟨current,false,true⟩
  else if current.terminal then ⟨current,false,false⟩
  else if reported = .failed ∨ current.rank < reported.rank then ⟨reported,true,false⟩
  else ⟨current,false,false⟩

theorem applyCallback_rank (current reported : MessageStatus) :
    current.rank ≤ (applyCallback current reported).status.rank := by
  cases current <;> cases reported <;> decide

theorem applyCallback_terminal {current : MessageStatus} (h : current.terminal)
    (reported : MessageStatus) : (applyCallback current reported).status = current := by
  revert h
  cases current <;> cases reported <;> decide

theorem applyCallback_ends (current : MessageStatus) {reported : MessageStatus}
    (h : reported.terminal) : (applyCallback current reported).status.terminal := by
  revert h
  cases current <;> cases reported <;> decide

theorem applyCallback_kept {current reported : MessageStatus}
    (h : (applyCallback current reported).advanced = false) :
    (applyCallback current reported).status = current := by
  revert h
  cases current <;> cases reported <;> decide

def statusMap : MessageChannel → List (String × MessageStatus)
  | .email => [("queued",.queued),("sent",.sent),("delivered",.delivered),("opened",.read),
      ("read",.read),("bounced",.failed),("failed",.failed),("dropped",.failed)]
  | .sms => [("queued",.queued),("accepted",.queued),("sending",.sending),("sent",.sent),
      ("delivered",.delivered),("undelivered",.failed),("failed",.failed)]
  | .whatsapp => [("sent",.sent),("delivered",.delivered),("read",.read),("failed",.failed)]

/-- A status callback as its provider's parser hands it over: the word it came
with is one of its channel's, and stands for the status. -/
structure NormalizedStatus where
  channel : MessageChannel
  (providerMessageId providerStatus : String)
  status : MessageStatus
  occurredAt : Option ℤ
  errorCode : Option String
  mapped : (providerStatus,status) ∈ statusMap channel

theorem statusMap_agree (c d : MessageChannel) :
    ∀ p ∈ statusMap c, ∀ q ∈ statusMap d, p.1 = q.1 → p.2 = q.2 := by
  cases c <;> cases d <;> decide

theorem statusMap_plain (c : MessageChannel) :
    ∀ p ∈ statusMap c, ':' ∉ p.1.toList ∧ p.1.toList.length ≤ 20 := by
  cases c <;> decide

inductive MessageContentType where
  | text | html | media
  deriving DecidableEq

structure MediaMetadata where
  (providerMediaId declaredMimeType declaredFilename : Option String)
  declaredByteSize : Option ℕ
  caption : Option String
  deriving DecidableEq

structure MessageContent where
  contentType : MessageContentType
  (text html : Option String)
  media : List MediaMetadata
  deriving DecidableEq

/-- A request to send, with its recipients normalized. -/
structure SendMessageRequest where
  (accountId conversationId : ℕ)
  recipients : List String
  content : MessageContent
  subject : Option String
  replyToMessageId : Option ℕ
  idempotencyKey : Option String

structure Canonical where
  (accountId conversationId : ℕ)
  recipients : List String
  content : MessageContent
  subject : Option String
  replyTo : Option ℕ
  deriving DecidableEq

inductive Digest where
  | sha256 (canonical : Canonical)
  deriving DecidableEq

def sendFingerprint (request : SendMessageRequest) : Digest :=
  .sha256 ⟨request.accountId,request.conversationId,
    request.recipients.insertionSort fun a b => a.toList ≤ b.toList,request.content,request.subject,
    request.replyToMessageId⟩

def clip (n : ℕ) (text : String) : String := String.ofList (text.toList.take n)

structure MessageRow where
  (id accountId conversationId : ℕ)
  recipients : List String
  content : MessageContent
  replyToMessageId : Option ℕ
  idempotencyKey : Option String
  status : MessageStatus
  (providerMessageId errorCode : Option String)
  (providerTimestamp sentAt deliveredAt readAt failedAt : Option ℤ)

/-- The row that `_persist_queued` inserts. -/
def MessageRow.queued (id : ℕ) (request : SendMessageRequest) : MessageRow :=
  ⟨id,request.accountId,request.conversationId,request.recipients,request.content,
    request.replyToMessageId,request.idempotencyKey,.queued,none,none,none,none,none,none,none⟩

def MessageRow.origin (row : MessageRow) : ℕ × ℕ × Option String :=
  (row.id,row.accountId,row.idempotencyKey)

def MessageRow.sentAs (providerMessageId : String) (timestamp : Option ℤ) (now : ℤ)
    (row : MessageRow) : MessageRow :=
  { row with
    status := .sent
    providerMessageId := some (clip 200 providerMessageId)
    sentAt := some now
    providerTimestamp := timestamp }

def MessageRow.failedWith (code : String) (now : ℤ) (row : MessageRow) : MessageRow :=
  { row with
    status := .failed
    failedAt := some now
    errorCode := some code }

def byProviderId (accountId : ℕ) (providerMessageId : String) (rows : List MessageRow) :
    Option MessageRow :=
  rows.find? fun r => r.accountId = accountId ∧ r.providerMessageId = some providerMessageId

inductive SendIdempotencyStatus where
  | pending | completed | failed

structure KeyRow where
  accountId : ℕ
  idempotencyKey : String
  requestFingerprint : Digest
  status : SendIdempotencyStatus
  messageId : Option ℕ
  result : Option MessageRow
  errorCode : Option String

def KeyRow.identity (row : KeyRow) : ℕ × String := (row.accountId,row.idempotencyKey)

def claimKey (accountId : ℕ) (key : String) (fingerprint : Digest) (rows : List KeyRow) :
    Bool × List KeyRow :=
  match Table.find KeyRow.identity (accountId,key) rows with
  | none => (true,rows++[⟨accountId,key,fingerprint,.pending,none,none,none⟩])
  | some _ => (false,rows)

def finalizeKey (accountId : ℕ) (key : String) (status : SendIdempotencyStatus)
    (messageId : Option ℕ) (result : Option MessageRow) (errorCode : Option String)
    (rows : List KeyRow) : List KeyRow :=
  Table.edit KeyRow.identity [(accountId,key)] (fun r => { r with
    status := status
    messageId := messageId
    result := result
    errorCode := errorCode }) rows

inductive SendError where
  | idempotencyConflict
  | sendInProgress
  | deliveryFailed (originalCode : String)
  | nxs (code : String)
  | foreign (name : String)

/-- The code of an error of the platform; other exceptions have none. -/
def SendError.code : SendError → Option String
  | .idempotencyConflict => some "NXS_MSG_IDEMPOTENCY_CONFLICT"
  | .sendInProgress => some "NXS_MSG_SEND_IN_PROGRESS"
  | .deliveryFailed _ => some "NXS_MSG_DELIVERY_FAILED"
  | .nxs code => some code
  | .foreign _ => none

/-- How a send ends: by its own answer, by a check before the claim, or by a
failure around it. A process that dies answers nothing. -/
inductive Outcome where
  | returned (message : MessageRow)
  | raised (error : SendError)
  | refused (code : String)
  | aborted (error : Option SendError)

def replayOrRaise (existing : KeyRow) (fingerprint : Digest) : Outcome :=
  if existing.requestFingerprint ≠ fingerprint then .raised .idempotencyConflict
  else match existing.status, existing.result with
    | .completed, some message => .returned message
    | .failed, _ => .raised (.deliveryFailed (existing.errorCode.getD "NXS_MSG_DELIVERY_FAILED"))
    | _, _ => .raised .sendInProgress

structure ReceiptRow where
  accountId : ℕ
  eventId : String
  messageId : Option ℕ

def ReceiptRow.identity (row : ReceiptRow) : ℕ × String := (row.accountId,row.eventId)

def statusEventId (status : NormalizedStatus) : String :=
  clip 400 ("st:"++status.providerMessageId++":"++status.providerStatus)

/-- The row after a fold that advanced it. `seen` is the row that was read. -/
def foldRow (status : NormalizedStatus) (reached : MessageStatus) (now : ℤ)
    (seen row : MessageRow) : MessageRow :=
  match reached with
  | .delivered => { row with
    status := reached
    deliveredAt := some (status.occurredAt.getD now) }
  | .read => { row with
    status := reached
    readAt := some (status.occurredAt.getD now)
    deliveredAt := some (seen.deliveredAt.getD (status.occurredAt.getD now)) }
  | .failed => { row with
    status := reached
    failedAt := some (status.occurredAt.getD now)
    errorCode := some (status.errorCode.getD "NXS_MSG_DELIVERY_FAILED") }
  | _ => { row with status := reached }

section

variable (status : NormalizedStatus) (reached : MessageStatus) (now : ℤ) (seen row : MessageRow)

@[simp] theorem foldRow_id : (foldRow status reached now seen row).id = row.id := by
  cases reached <;> rfl

@[simp] theorem foldRow_status : (foldRow status reached now seen row).status = reached := by
  cases reached <;> rfl

@[simp] theorem foldRow_origin : (foldRow status reached now seen row).origin = row.origin := by
  cases reached <;> rfl

@[simp] theorem foldRow_provider :
    (foldRow status reached now seen row).providerMessageId = row.providerMessageId := by
  cases reached <;> rfl

end

/-- Where a send stands. A row that a phase carries is the one its transaction
returned. -/
inductive CallPhase where
  | checked
  | losing
  | owner
  | queued (message : MessageRow)
  | accepted (message : MessageRow) (providerMessageId : String) (timestamp : Option ℤ)
  | refused (message : MessageRow) (error : SendError)
  | marked (message : MessageRow)
  | condemned (message : MessageRow) (error : SendError)
  | closed (outcome : Outcome)

/-- A call of `send` whose request has been validated. -/
structure Call where
  request : SendMessageRequest
  isOwner : Bool
  phase : CallPhase

inductive FoldOutcome where
  | advanced | duplicate | ignored | replayed | deferred
  deriving DecidableEq

/-- Where a request stands with the status that comes next. -/
inductive RequestPhase where
  | ready | folding (seen : MessageRow) | failed

/-- A callback request: the outcomes of the statuses it has been through. -/
structure Request where
  accountId : ℕ
  statuses : List NormalizedStatus
  done : List FoldOutcome
  phase : RequestPhase

def Request.current (request : Request) : Option NormalizedStatus :=
  request.statuses[request.done.length]?

/-- The answer to a request, once it has been through its statuses: accepted, and
how many it advanced and how many it knew. -/
def Request.answer (request : Request) : Option (Bool × ℕ × ℕ) :=
  match request.phase with
  | .ready => if request.done.length = request.statuses.length then
      some (true,request.done.count .advanced,request.done.count .replayed) else none
  | _ => none

def Request.ended (outcome : FoldOutcome) (request : Request) : Request :=
  { request with
    done := request.done++[outcome]
    phase := .ready }

def Request.dropped (request : Request) : Request :=
  if request.answer.isSome then request else { request with phase := .failed }

/-- A fold that committed: the event, the message and its states before and after. -/
structure Fold where
  accountId : ℕ
  eventId : String
  messageId : ℕ
  (reported before after : MessageStatus)

structure World where
  keys : List KeyRow
  messages : List MessageRow
  receipts : List ReceiptRow
  calls : List Call
  requests : List Request
  /-- The calls that have called the provider, once for each time. -/
  provided : List ℕ
  /-- The calls whose message the provider has taken. -/
  taken : List ℕ
  folds : List Fold

inductive ProviderOutcome where
  | sent (providerMessageId : String) (timestamp : Option ℤ)
  | raised (error : SendError) (taken : Bool)

inductive Action where
  | send (request : SendMessageRequest) (refusal : Option String)
  | claim (call : ℕ)
  | lookup (call : ℕ)
  | persist (call : ℕ)
  | provide (call : ℕ) (outcome : ProviderOutcome)
  | mark (call : ℕ) (now : ℤ)
  | finalize (call : ℕ) (answered : Bool)
  | abort (call : ℕ) (error : Option SendError)
  | receive (accountId : ℕ) (statuses : List NormalizedStatus)
  | read (request : ℕ)
  | fold (request : ℕ) (now : ℤ)
  | drop (request : ℕ)

namespace World

def initial : World := ⟨[],[],[],[],[],[],[],[]⟩

def enter (w : World) (i : ℕ) (phase : CallPhase) : World :=
  { w with calls := w.calls.modify i fun c => { c with phase := phase } }

/-- A request that fails one of the checks before the claim ends with its error. -/
def sendStep (w : World) (request : SendMessageRequest) (refusal : Option String) : World :=
  { w with calls := w.calls++[⟨request,false,match refusal with
    | none => .checked
    | some code => .closed (.refused code)⟩] }

def claimStep (w : World) (i : ℕ) : World :=
  match w.calls[i]? with
  | some ⟨request,_,.checked⟩ =>
    match request.idempotencyKey with
    | none => w.enter i .owner
    | some key =>
      let claimed := claimKey request.accountId key (sendFingerprint request) w.keys
      if claimed.1 then { w with
        keys := claimed.2
        calls := w.calls.modify i fun c => { c with
          isOwner := true
          phase := .owner } }
      else w.enter i .losing
  | _ => w

def lookupStep (w : World) (i : ℕ) : World :=
  match w.calls[i]? with
  | some ⟨request,_,.losing⟩ =>
    match request.idempotencyKey.bind fun key =>
        Table.find KeyRow.identity (request.accountId,key) w.keys with
    | some existing => w.enter i (.closed (replayOrRaise existing (sendFingerprint request)))
    | none => w.enter i (.closed (.raised .sendInProgress))
  | _ => w

def persistStep (w : World) (i : ℕ) : World :=
  match w.calls[i]? with
  | some ⟨request,_,.owner⟩ =>
    let row := MessageRow.queued w.messages.length request
    { w with messages := w.messages++[row] }.enter i (.queued row)
  | _ => w

/-- An exception that is none of the platform's is not caught. -/
def provideStep (w : World) (i : ℕ) (outcome : ProviderOutcome) : World :=
  match w.calls[i]? with
  | some ⟨_,_,.queued message⟩ =>
    match outcome with
    | .sent providerMessageId timestamp => { w with
        provided := i::w.provided
        taken := i::w.taken }.enter i (.accepted message providerMessageId timestamp)
    | .raised error taken => { w with
        provided := i::w.provided
        taken := if taken then i::w.taken else w.taken }.enter i
          (if error.code.isSome then .refused message error else .closed (.aborted (some error)))
  | _ => w

/-- `_mark_sent` and `_mark_failed`. The provider's id is unique in its account. -/
def markStep (w : World) (i : ℕ) (now : ℤ) : World :=
  match w.calls[i]? with
  | some ⟨request,_,.accepted message providerMessageId timestamp⟩ =>
    if (byProviderId message.accountId (clip 200 providerMessageId) w.messages).isSome then
      w.enter i (.closed (.aborted (some (.foreign "IntegrityError"))))
    else match Table.find MessageRow.id message.id w.messages with
      | none => w.enter i (.closed (.aborted (some (.foreign "AssertionError"))))
      | some row =>
        let update := MessageRow.sentAs providerMessageId timestamp now
        { w with messages := Table.edit MessageRow.id [message.id] update w.messages }.enter i
          (if request.idempotencyKey.isSome then .marked (update row)
          else .closed (.returned (update row)))
  | some ⟨request,_,.refused message error⟩ =>
    match Table.find MessageRow.id message.id w.messages with
    | none => w.enter i (.closed (.aborted (some (.foreign "AssertionError"))))
    | some row =>
      let update := MessageRow.failedWith (error.code.getD "NXS_MSG_DELIVERY_FAILED") now
      { w with messages := Table.edit MessageRow.id [message.id] update w.messages }.enter i
        (if request.idempotencyKey.isSome then .condemned (update row) error
        else .closed (.raised error))
  | _ => w

/-- The last transaction, after which the process may still die. -/
def finalizeStep (w : World) (i : ℕ) (answered : Bool) : World :=
  match w.calls[i]? with
  | some ⟨request,_,.marked message⟩ => { w with
      keys := match request.idempotencyKey with
        | some key => finalizeKey request.accountId key .completed (some message.id)
            (some message) none w.keys
        | none => w.keys }.enter i (.closed (if answered then .returned message else .aborted none))
  | some ⟨request,_,.condemned message error⟩ => { w with
      keys := match request.idempotencyKey with
        | some key => finalizeKey request.accountId key .failed (some message.id) none
            error.code w.keys
        | none => w.keys }.enter i (.closed (if answered then .raised error else .aborted none))
  | _ => w

/-- A failing transaction, an exception or the death of the process. -/
def abortStep (w : World) (i : ℕ) (error : Option SendError) : World :=
  match w.calls[i]? with
  | some ⟨_,_,.closed _⟩ => w
  | some _ => w.enter i (.closed (.aborted error))
  | none => w

def enterRequest (w : World) (j : ℕ) (f : Request → Request) : World :=
  { w with requests := w.requests.modify j f }

/-- Another transaction that has inserted the same receipt and not committed. -/
def contended (w : World) (accountId : ℕ) (eventId : String) : Bool :=
  w.requests.any fun r => match r.phase with
    | .folding _ => r.accountId = accountId &&
        r.current.any fun status => statusEventId status = eventId
    | _ => false

/-- The receipt's insert and the read of the message. -/
def readStep (w : World) (j : ℕ) : World :=
  match w.requests[j]? with
  | some ⟨accountId,statuses,done,.ready⟩ =>
    match statuses[done.length]? with
    | none => w
    | some status =>
      if w.contended accountId (statusEventId status) then w
      else if (Table.find ReceiptRow.identity (accountId,statusEventId status) w.receipts).isSome
      then w.enterRequest j (Request.ended .replayed)
      else match byProviderId accountId status.providerMessageId w.messages with
        | none => w.enterRequest j (Request.ended .deferred)
        | some seen => w.enterRequest j fun r => { r with phase := .folding seen }
  | _ => w

/-- The commit of a fold, computed from the row that was read. -/
def foldStep (w : World) (j : ℕ) (now : ℤ) : World :=
  match w.requests[j]? with
  | some ⟨accountId,statuses,done,.folding seen⟩ =>
    match statuses[done.length]? with
    | none => w
    | some status =>
      let outcome := applyCallback seen.status status.status
      let folded : World := { w with
        messages := if outcome.advanced then Table.edit MessageRow.id [seen.id]
          (foldRow status outcome.status now seen) w.messages else w.messages
        receipts := w.receipts++[⟨accountId,statusEventId status,
          if outcome.advanced then some seen.id else none⟩]
        folds := w.folds++[⟨accountId,statusEventId status,seen.id,status.status,seen.status,
          outcome.status⟩] }
      folded.enterRequest j (Request.ended (if outcome.advanced then .advanced
        else if outcome.duplicate then .duplicate else .ignored))
  | _ => w

def step (w : World) : Action → World
  | .send request refusal => w.sendStep request refusal
  | .claim i => w.claimStep i
  | .lookup i => w.lookupStep i
  | .persist i => w.persistStep i
  | .provide i outcome => w.provideStep i outcome
  | .mark i now => w.markStep i now
  | .finalize i answered => w.finalizeStep i answered
  | .abort i error => w.abortStep i error
  | .receive accountId statuses => { w with requests := w.requests++[⟨accountId,statuses,[],.ready⟩] }
  | .read j => w.readStep j
  | .fold j now => w.foldStep j now
  | .drop j => w.enterRequest j Request.dropped

def reach (as : List Action) : World := Run.exec step as initial

end World

end NexusAi.Messaging
