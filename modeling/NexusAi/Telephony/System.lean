import NexusAi.Lib.Run
import NexusAi.Lib.Table

/-!
# Placing calls and folding their events

A call is created, placed at the provider and linked to the provider's id in three
transactions with the provider between the first two. Callbacks fold their events one
after another, each in one transaction that holds the row of its call. An inbound call is
checked for and then inserted, with nothing to hold in between. Any of them may fail or
die at every point. Instants are microseconds.
-/

namespace NexusAi.Telephony

inductive CallState where
  | created | ringing | earlyMedia | answered | bridged | ending
  | completed | failed | cancelled | busy | noAnswer
  deriving DecidableEq

inductive CallDisposition where
  | answered | noAnswer | busy | failed | cancelled | unknown
  deriving DecidableEq

def CallState.stateRank : CallState → ℕ
  | .created => 0
  | .ringing => 1
  | .earlyMedia => 2
  | .answered => 3
  | .bridged => 4
  | .ending => 5
  | .completed | .failed | .cancelled | .busy | .noAnswer => 6

def isTerminal (state : CallState) : Bool :=
  state ∈ [.completed,.failed,.cancelled,.busy,.noAnswer]

def dispositionFor : CallState → Option CallDisposition
  | .completed => some .answered
  | .noAnswer => some .noAnswer
  | .busy => some .busy
  | .failed => some .failed
  | .cancelled => some .cancelled
  | _ => none

def providerOrderPrecedes (tsA : Option ℤ) (seqA : Option ℕ) (tsB : Option ℤ)
    (seqB : Option ℕ) : Bool :=
  match seqA, seqB, tsA, tsB with
  | some a, some b, _, _ => a < b
  | _, _, some a, some b => a < b
  | _, _, _, _ => false

inductive FoldOutcome where
  | applied | ignored

structure FoldResult where
  outcome : FoldOutcome
  state : CallState
  disposition : Option CallDisposition
  reason : String

def foldState (current : CallState) (currentRank : ℕ) (currentTs : Option ℤ)
    (currentSequence : Option ℕ) (proposed : CallState) (proposedTs : Option ℤ)
    (proposedSequence : Option ℕ) : FoldResult :=
  if isTerminal current then
    ⟨.ignored,current,dispositionFor current,
      if proposed = current then "duplicate-terminal" else "call-already-terminal"⟩
  else if proposed = current then ⟨.ignored,current,none,"duplicate-state"⟩
  else if !isTerminal proposed &&
      providerOrderPrecedes proposedTs proposedSequence currentTs currentSequence then
    ⟨.ignored,current,none,"stale-provider-order"⟩
  else if proposed.stateRank < currentRank then ⟨.ignored,current,none,"stale-lower-rank"⟩
  else if proposed.stateRank = currentRank then ⟨.ignored,current,none,"same-rank-no-change"⟩
  else if isTerminal proposed then
    ⟨.applied,proposed,dispositionFor proposed,"terminal-transition"⟩
  else ⟨.applied,proposed,none,"forward-transition"⟩

inductive MediaState where
  | pending | active | stopped
  deriving DecidableEq

inductive MediaDirection where
  | inbound | outbound | bidirectional

inductive DtmfDigit where
  | d0 | d1 | d2 | d3 | d4 | d5 | d6 | d7 | d8 | d9 | star | hash | a | b | c | d

/-- What an event says. Each kind has what its validator asks for. -/
inductive EventPayload where
  | state (state : CallState)
  | dtmf (digit : DtmfDigit)
  | media (state : MediaState) (direction : Option MediaDirection) (bridgeId streamId : Option String)

inductive TelephonyEventType where
  | state | dtmf | media
  deriving DecidableEq

def EventPayload.eventType : EventPayload → TelephonyEventType
  | .state _ => .state
  | .dtmf _ => .dtmf
  | .media .. => .media

structure NormalizedCallEvent where
  (providerEventId providerCallId : String)
  payload : EventPayload
  providerTimestamp : Option ℤ
  providerSequence : Option ℕ

structure NormalizedInboundCall where
  (providerEventId providerCallId dialedNumber caller : String)
  providerTimestamp : Option ℤ

structure CallRow where
  (id accountId : ℕ)
  state : CallState
  stateRank : ℕ
  disposition : Option CallDisposition
  (providerCallId errorCode : Option String)
  providerTimestamp : Option ℤ
  providerSequence : Option ℕ
  (ringingAt answeredAt endedAt : Option ℤ)
  deriving DecidableEq

def CallRow.placed (id accountId : ℕ) : CallRow :=
  ⟨id,accountId,.created,CallState.created.stateRank,none,none,none,none,none,none,none,none⟩

def CallRow.rung (id accountId : ℕ) (inbound : NormalizedInboundCall) (now : ℤ) : CallRow :=
  ⟨id,accountId,.ringing,CallState.ringing.stateRank,none,some inbound.providerCallId,none,
    inbound.providerTimestamp,none,some now,none,none⟩

def byProviderCallId (accountId : ℕ) (providerCallId : String) (rows : List CallRow) :
    Option CallRow :=
  rows.find? fun row =>
    row.accountId = accountId ∧ row.providerCallId = some providerCallId

structure EventRow where
  accountId : ℕ
  (providerEventId providerCallId : String)
  eventType : TelephonyEventType

def EventRow.identity (row : EventRow) : ℕ × String := (row.accountId,row.providerEventId)

structure MediaRow where
  (id callId : ℕ)
  direction : MediaDirection
  state : MediaState
  (bridgeId streamId : Option String)
  (startedAt stoppedAt : Option ℤ)

inductive Emitted where
  | call (callId : ℕ) (state : CallState)
  | dtmf (callId : ℕ) (digit : DtmfDigit)
  | media (callId sessionId : ℕ) (direction : MediaDirection) (started : Bool)

def stateEvent (row : CallRow) : List Emitted :=
  if row.state = .earlyMedia then [] else [.call row.id row.state]

/-- Where `create_call` stands with its call. -/
inductive PlacePhase where
  | dialing
  | accepted (providerCallId : String)
  | ambiguous
  | refused
  | closed
  deriving DecidableEq

inductive Processed where
  | applied (state : CallState)
  | ignored (reason : String)
  | dtmf | media | replayed | deferred
  deriving DecidableEq

/-- A callback request: the outcomes of the events it has been through. -/
structure Request where
  accountId : ℕ
  events : List NormalizedCallEvent
  done : List Processed
  failed : Bool

/-- The answer to a request that has been through its events: accepted, and what
became of each. -/
def Request.answer (request : Request) : Option (Bool × List Processed) :=
  if !request.failed && request.done.length = request.events.length then some (true,request.done)
  else none

def Request.ended (outcome : Processed) (request : Request) : Request :=
  { request with done := request.done++[outcome] }

def Request.dropped (request : Request) : Request :=
  if request.answer.isSome then request else { request with failed := true }

inductive ArrivalPhase where
  | arrived | checked | replayed | duplicate | created | failed
  deriving DecidableEq

/-- An inbound call for a number that the account owns. -/
structure Arrival where
  accountId : ℕ
  inbound : NormalizedInboundCall
  phase : ArrivalPhase

/-- An event that was folded into a call, with the row before and after. -/
structure Fold where
  accountId : ℕ
  event : NormalizedCallEvent
  callId : ℕ
  (before after : CallRow)

structure World where
  calls : List CallRow
  events : List EventRow
  sessions : List MediaRow
  outbox : List Emitted
  /-- What became of placing each call, by the call's id. -/
  phases : List PlacePhase
  requests : List Request
  arrivals : List Arrival
  folds : List Fold

inductive PlaceOutcome where
  | accepted (providerCallId : String) | timeout | error | died

inductive Action where
  | create (accountId : ℕ)
  | dispatch (callId : ℕ)
  | revoke (callId : ℕ) (now : ℤ)
  | place (callId : ℕ) (outcome : PlaceOutcome)
  | link (callId : ℕ)
  | mark (callId : ℕ) (now : ℤ)
  | die (callId : ℕ)
  | hangup (callId : ℕ)
  | arrive (accountId : ℕ) (inbound : NormalizedInboundCall)
  | check (arrival : ℕ)
  | admitCall (arrival : ℕ) (now : ℤ)
  | receive (accountId : ℕ) (events : List NormalizedCallEvent)
  | process (request : ℕ) (now : ℤ)
  | drop (request : ℕ)

/-- The changes of `_mark_failed` and of a revoked admission. -/
def CallRow.failedWith (code : String) (now : ℤ) (row : CallRow) : CallRow :=
  { row with
    state := .failed
    stateRank := CallState.failed.stateRank
    disposition := some .failed
    errorCode := some code
    endedAt := some now }

def CallRow.linked (providerCallId : String) (row : CallRow) : CallRow :=
  { row with
    providerCallId := some (String.ofList (providerCallId.toList.take 200))
    errorCode := if row.errorCode = some "NXS_TELEPHONY_PROVIDER_DISPATCH_UNCONFIRMED" then none
      else row.errorCode }

def CallRow.folded (event : NormalizedCallEvent) (result : FoldResult) (now : ℤ) (row : CallRow) :
    CallRow :=
  { row with
    state := result.state
    stateRank := result.state.stateRank
    providerTimestamp := event.providerTimestamp.or row.providerTimestamp
    providerSequence := event.providerSequence.or row.providerSequence
    disposition := result.disposition.or row.disposition
    ringingAt := if result.state = .ringing ∧ row.ringingAt = none then some now else row.ringingAt
    answeredAt := if result.state = .answered ∧ row.answeredAt = none then some now
      else row.answeredAt
    endedAt := if isTerminal result.state then some now else row.endedAt }

/-- What a fold writes: the row, the media sessions, the outbox, and its outcome. -/
structure FoldWrites where
  row : CallRow
  sessions : List MediaRow
  outbox : List Emitted
  outcome : Processed

def foldStateEvent (event : NormalizedCallEvent) (proposed : CallState) (now : ℤ) (row : CallRow)
    (sessions : List MediaRow) : FoldWrites :=
  let result := foldState row.state row.stateRank row.providerTimestamp row.providerSequence
    proposed event.providerTimestamp event.providerSequence
  match result.outcome with
  | .ignored => ⟨row,sessions,[],.ignored result.reason⟩
  | .applied => ⟨row.folded event result now,sessions,stateEvent (row.folded event result now),
      .applied result.state⟩

def foldMediaEvent (state : MediaState) (direction : Option MediaDirection)
    (bridgeId streamId : Option String) (now : ℤ) (row : CallRow) (sessions : List MediaRow) :
    FoldWrites :=
  let towards := direction.getD .bidirectional
  let existing := bridgeId.bind fun bridge =>
    sessions.find? fun s => s.callId = row.id ∧ s.bridgeId = some bridge
  match state, existing with
  | .active, none => ⟨row,sessions++[⟨sessions.length,row.id,towards,.active,bridgeId,streamId,
      some now,none⟩],[.media row.id sessions.length towards true],.media⟩
  | .stopped, some session =>
    if session.state = .stopped then ⟨row,sessions,[],.media⟩
    else ⟨row,Table.edit MediaRow.id [session.id] (fun s => { s with
        state := .stopped
        stoppedAt := some now }) sessions,[.media row.id session.id towards false],.media⟩
  | _, _ => ⟨row,sessions,[],.media⟩

def foldEvent (event : NormalizedCallEvent) (now : ℤ) (row : CallRow) (sessions : List MediaRow) :
    FoldWrites :=
  match event.payload with
  | .state proposed => foldStateEvent event proposed now row sessions
  | .dtmf digit => ⟨row,sessions,[.dtmf row.id digit],.dtmf⟩
  | .media state direction bridgeId streamId =>
    foldMediaEvent state direction bridgeId streamId now row sessions

namespace World

def initial : World := ⟨[],[],[],[],[],[],[],[]⟩

def edit (w : World) (id : ℕ) (f : CallRow → CallRow) : World :=
  { w with calls := Table.edit CallRow.id [id] f w.calls }

def emit (w : World) (id : ℕ) : World :=
  { w with outbox := w.outbox++((Table.find CallRow.id id w.calls).map stateEvent).getD [] }

def turn (w : World) (id : ℕ) (phase : PlacePhase) : World :=
  { w with phases := w.phases.set id phase }

/-- Fails a call, unless it has come to its end. -/
def fail (w : World) (id : ℕ) (code : String) (now : ℤ) : World :=
  match Table.find CallRow.id id w.calls with
  | some row => if isTerminal row.state then w else (w.edit id (CallRow.failedWith code now)).emit id
  | none => w

def createStep (w : World) (accountId : ℕ) : World :=
  { w with
    calls := w.calls++[CallRow.placed w.calls.length accountId]
    phases := w.phases++[PlacePhase.dialing] }.emit w.calls.length

/-- The admission's fence before the provider is called. -/
def dispatchStep (w : World) (id : ℕ) : World :=
  match w.phases[id]?, Table.find CallRow.id id w.calls with
  | some .dialing, some row => if isTerminal row.state then w else w.edit id fun r =>
      { r with errorCode := some "NXS_TELEPHONY_PROVIDER_DISPATCH_UNCONFIRMED" }
  | _, _ => w

def placeStep (w : World) (id : ℕ) (outcome : PlaceOutcome) : World :=
  match w.phases[id]? with
  | some .dialing => w.turn id (match outcome with
    | .accepted providerCallId => .accepted providerCallId
    | .timeout => .ambiguous
    | .error => .refused
    | .died => .closed)
  | _ => w

/-- A second call with the provider's id is refused by the unique constraint. -/
def linkStep (w : World) (id : ℕ) : World :=
  match w.phases[id]? with
  | some (.accepted providerCallId) =>
    if w.calls.any fun row => row.id ≠ id ∧
        some row.accountId = (Table.find CallRow.id id w.calls).map CallRow.accountId ∧
        row.providerCallId = some (String.ofList (providerCallId.toList.take 200)) then
      w.turn id .closed
    else (w.edit id (CallRow.linked providerCallId)).turn id .closed
  | _ => w

def markStep (w : World) (id : ℕ) (now : ℤ) : World :=
  match w.phases[id]? with
  | some .refused => (w.fail id "NXS_TELEPHONY_PROVIDER_ERROR" now).turn id .closed
  | some .ambiguous => (w.edit id fun row => if isTerminal row.state then row else
      { row with errorCode := some "NXS_TELEPHONY_PROVIDER_TIMEOUT" }).turn id .closed
  | _ => w

def hangupStep (w : World) (id : ℕ) : World :=
  match Table.find CallRow.id id w.calls with
  | some row => if isTerminal row.state then w else (w.edit id fun r => { r with
      state := .ending
      stateRank := CallState.ending.stateRank
      errorCode := none }).emit id
  | none => w

def enterArrival (w : World) (k : ℕ) (phase : ArrivalPhase) : World :=
  { w with arrivals := w.arrivals.modify k fun a => { a with phase := phase } }

/-- Another transaction that has inserted the same claim and not committed. -/
def contended (w : World) (accountId : ℕ) (providerEventId : String) : Bool :=
  w.arrivals.any fun a => a.phase = .checked ∧ a.accountId = accountId ∧
    a.inbound.providerEventId = providerEventId

/-- A text that does not fit its column. -/
def tooLong (text : String) : Bool := 200 < text.toList.length

def inboundClaim (a : Arrival) : EventRow :=
  ⟨a.accountId,a.inbound.providerEventId,a.inbound.providerCallId,.state⟩

/-- The claim of an inbound call and the look for the call. -/
def checkStep (w : World) (k : ℕ) : World :=
  match w.arrivals[k]? with
  | some ⟨accountId,inbound,.arrived⟩ =>
    if w.contended accountId inbound.providerEventId then w
    else if (Table.find EventRow.identity (accountId,inbound.providerEventId) w.events).isSome then
      w.enterArrival k .replayed
    else if tooLong inbound.providerEventId || tooLong inbound.providerCallId then
      w.enterArrival k .failed
    else match byProviderCallId accountId inbound.providerCallId w.calls with
      | some _ => { w with
          events := w.events++[inboundClaim ⟨accountId,inbound,.arrived⟩] }.enterArrival k .duplicate
      | none => w.enterArrival k .checked
  | _ => w

/-- The insert of the call. One that lost to another transaction takes its claim
with it. -/
def admitStep (w : World) (k : ℕ) (now : ℤ) : World :=
  match w.arrivals[k]? with
  | some ⟨accountId,inbound,.checked⟩ =>
    match byProviderCallId accountId inbound.providerCallId w.calls with
    | some _ => w.enterArrival k .replayed
    | none =>
      let row := CallRow.rung w.calls.length accountId inbound now
      { w with
        calls := w.calls++[row]
        phases := w.phases++[PlacePhase.closed]
        events := w.events++[inboundClaim ⟨accountId,inbound,.checked⟩]
        outbox := w.outbox++stateEvent row }.enterArrival k .created
  | _ => w

def enterRequest (w : World) (j : ℕ) (f : Request → Request) : World :=
  { w with requests := w.requests.modify j f }

def processStep (w : World) (j : ℕ) (now : ℤ) : World :=
  match w.requests[j]? with
  | some ⟨accountId,events,done,false⟩ =>
    match events[done.length]? with
    | none => w
    | some event =>
      if w.contended accountId event.providerEventId then w
      else if (Table.find EventRow.identity (accountId,event.providerEventId) w.events).isSome then
        w.enterRequest j (Request.ended .replayed)
      else if tooLong event.providerEventId || tooLong event.providerCallId then
        w.enterRequest j Request.dropped
      else match byProviderCallId accountId event.providerCallId w.calls with
        | none => w.enterRequest j (Request.ended .deferred)
        | some row =>
          let writes := foldEvent event now row w.sessions
          let folded : World := { w with
            calls := Table.edit CallRow.id [row.id] (fun r => (foldEvent event now r w.sessions).row)
              w.calls
            sessions := writes.sessions
            outbox := w.outbox++writes.outbox
            events := w.events++[⟨accountId,event.providerEventId,event.providerCallId,
              event.payload.eventType⟩]
            folds := w.folds++[⟨accountId,event,row.id,row,writes.row⟩] }
          folded.enterRequest j (Request.ended writes.outcome)
  | _ => w

def step (w : World) : Action → World
  | .create accountId => w.createStep accountId
  | .dispatch id => w.dispatchStep id
  | .revoke id now => w.fail id "NXS_TELEPHONY_ADMISSION_FAILED" now
  | .place id outcome => w.placeStep id outcome
  | .link id => w.linkStep id
  | .mark id now => w.markStep id now
  | .die id => if id < w.phases.length then w.turn id .closed else w
  | .hangup id => w.hangupStep id
  | .arrive accountId inbound => { w with arrivals := w.arrivals++[⟨accountId,inbound,.arrived⟩] }
  | .check k => w.checkStep k
  | .admitCall k now => w.admitStep k now
  | .receive accountId events => { w with requests := w.requests++[⟨accountId,events,[],false⟩] }
  | .process j now => w.processStep j now
  | .drop j => w.enterRequest j Request.dropped

def reach (as : List Action) : World := Run.exec step as initial

end World

end NexusAi.Telephony
