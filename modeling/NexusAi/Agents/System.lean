import NexusAi.Lib.Run

/-!
# Agent sessions and turns side by side

The rows that a turn reads and writes, and the calls of all processes, which take turns
one awaited operation at a time. A transaction that first locks the row of the session
is one step. An awaited operation may raise instead, and a transaction that raises may
have been committed all the same. The transaction that fails a turn reads the turn before
it locks anything, so it is two steps. Rows are named by their places, and the owner of a
turn is the place of the call that opened it. Instants and latencies are milliseconds.
-/

namespace NexusAi.Agents

inductive AgentSessionState where
  | pending | active | waitingTool | responding
  | completed | failed | cancelled | expired
  deriving DecidableEq

inductive AgentTurnState where
  | pending | running | awaitingTools | finalizing
  | completed | failed | cancelled
  deriving DecidableEq

def sessionIsTerminal (state : AgentSessionState) : Bool :=
  state ∈ [AgentSessionState.completed,.failed,.cancelled,.expired]

def turnIsTerminal (state : AgentTurnState) : Bool :=
  state ∈ [AgentTurnState.completed,.failed,.cancelled]

def sessionEdges : AgentSessionState → List AgentSessionState
  | .pending => [.active,.responding]
  | .active => [.waitingTool,.responding]
  | .waitingTool => [.active,.responding]
  | .responding => [.active]
  | _ => []

/-- The state that a proposal leads to; whatever is not applied changes nothing. -/
def foldAgentSessionState (current proposed : AgentSessionState) : AgentSessionState :=
  if sessionIsTerminal current then current
  else if proposed = current then current
  else if sessionIsTerminal proposed then proposed
  else if proposed ∈ sessionEdges current then proposed
  else current

structure SessionRow where
  state : AgentSessionState
  errorCode : Option String
  startedAt : ℤ
  correlationId : Option String
  turnCount : ℕ
  deriving DecidableEq

structure TurnRow where
  (sessionId sequence : ℕ)
  state : AgentTurnState
  inputText : String
  (responseText finishReason : Option String)
  (inputTokens outputTokens toolCallCount : ℕ)
  latencyMs : ℤ
  (errorCode idempotencyKey : Option String)
  requestFingerprint : String
  executionOwnerId : ℕ
  responseCorrelationId : Option String
  createdAt : ℤ
  deriving DecidableEq

structure SubmitTurnRequest where
  content : String
  (idempotencyKey correlationId : Option String)
  deriving DecidableEq

structure AgentResponse where
  (sessionId turnId : ℕ)
  (content finishReason : String)
  (toolCalls inputTokens outputTokens totalTokens : ℕ)
  latencyMs : ℤ
  correlationId : Option String
  deriving DecidableEq

/-- The response that a replay is given. An empty text stands for none. -/
def responseFromTurn (turnId : ℕ) (turn : TurnRow) : AgentResponse :=
  ⟨turn.sessionId,turnId,turn.responseText.getD "",
    (turn.finishReason.filter fun r => r ≠ "").getD "STOP",turn.toolCallCount,
    turn.inputTokens,turn.outputTokens,turn.inputTokens+turn.outputTokens,turn.latencyMs,
    turn.responseCorrelationId⟩

inductive ModelFinishReason where
  | stop | toolCalls | length | contentFilter | error
  deriving DecidableEq

def ModelFinishReason.value : ModelFinishReason → String
  | .stop => "STOP"
  | .toolCalls => "TOOL_CALLS"
  | .length => "LENGTH"
  | .contentFilter => "CONTENT_FILTER"
  | .error => "ERROR"

structure ModelToolCall where
  (id name argumentsHash : String)
  deriving DecidableEq

structure ModelResponse where
  assistantContent : String
  finishReason : ModelFinishReason
  toolCalls : List ModelToolCall
  (inputTokens outputTokens : ℕ)

structure TurnOutcome where
  content : String
  finishReason : ModelFinishReason
  (inputTokens outputTokens toolCalls : ℕ)
  deriving DecidableEq

/-- What an awaited operation may raise. A timeout is noticed at some instant. -/
inductive Fault where
  | timeout (now : ℤ)
  | cancelled
  | nxs (code : String)
  | other
  deriving DecidableEq

inductive AgentError where
  | disabled | busy | sessionNotFound | invalidState | sessionExpired | agentCancelled
  | turnTimeout | idempotencyConflict
  | idempotentReplay (originalErrorCode : Option String)
  | fault (fault : Fault)
  deriving DecidableEq

inductive Result where
  | returned (response : AgentResponse)
  | raised (error : AgentError)
  deriving DecidableEq

structure Settings where
  enabled : Bool
  maxSessionMs : ℤ
  (maxOutputChars maxToolCallsPerResponse maxToolCallsPerTurn : ℕ)

/-- The settings, the digest of a request and what the tool bridge says of the
structure of a call. -/
structure Service where
  settings : Settings
  fingerprint : ℕ → String → String
  wellFormed : ModelToolCall → Bool

namespace Service

def lifetimeExceeded (v : Service) (startedAt now : ℤ) : Bool :=
  startedAt+v.settings.maxSessionMs-now ≤ 0

def validateResponse (v : Service) (r : ModelResponse) : Option String :=
  if v.settings.maxOutputChars < r.assistantContent.length then some "NXS_AGENT_OUTPUT_INVALID"
  else if ¬ (r.toolCalls.map ModelToolCall.id).Nodup then some "NXS_AGENT_OUTPUT_INVALID"
  else if r.toolCalls.all v.wellFormed then none
  else some "NXS_AGENT_TOOL_INVALID"

end Service

def staleTerminalCode (session : SessionRow) : String :=
  match session.errorCode.filter fun c => c ≠ "" with
  | some code => code
  | none =>
    match session.state with
    | .expired => "NXS_AGENT_SESSION_EXPIRED"
    | .cancelled => "NXS_AGENT_CANCELLED"
    | _ => "NXS_AGENT_INVALID_STATE"

def raiseForStaleSession : AgentSessionState → AgentError
  | .expired => .sessionExpired
  | .cancelled => .agentCancelled
  | _ => .invalidState

def elapsedMs (start now : ℤ) : ℤ := max 0 (now-start)

structure Claim where
  turnId : ℕ
  startedAt : ℤ
  correlationId : Option String
  createdAt : ℤ
  deriving DecidableEq

structure Loop where
  (maxToolIterations iteration : ℕ)
  executed : List (String × String)
  (requested inputTokens outputTokens : ℕ)
  deriving DecidableEq

inductive Work where
  | preparing
  | authorizingModel (loop : Loop)
  | dispatchingModel (loop : Loop)
  | callingModel (loop : Loop)
  | authorizingTool (loop : Loop) (call : ModelToolCall) (rest : List ModelToolCall)
  | dispatchingTool (loop : Loop) (call : ModelToolCall) (rest : List ModelToolCall)
  | callingTool (loop : Loop) (call : ModelToolCall) (rest : List ModelToolCall)
  | recordingTool (loop : Loop) (rest : List ModelToolCall)
  deriving DecidableEq

/-- How a turn is failed, and what its call then raises. -/
structure Failure where
  errorCode : String
  cancelled : Bool
  error : AgentError
  deriving DecidableEq

inductive Phase where
  | arrived
  | opening
  | opened
  | working (work : Work)
  | finishing (outcome : TurnOutcome)
  | expiring
  | failing (failure : Failure)
  | writing (failure : Failure)
  | ended (result : Result)
  deriving DecidableEq

structure Call where
  (process sessionId : ℕ)
  request : SubmitTurnRequest
  claim : Option Claim
  phase : Phase
  deriving DecidableEq

inductive StopPhase where
  | waiting | locked | ended
  deriving DecidableEq

structure Stop where
  (process sessionId : ℕ)
  cancelled : Bool
  phase : StopPhase

structure ModelPermit where
  (sessionId turnId iteration : ℕ)

structure ToolPermit where
  (sessionId turnId : ℕ)
  (toolKey argumentsHash : String)

inductive Event where
  | turnStarted (turnId : ℕ)
  | turnCompleted (turnId : ℕ)
  | responseReady (turnId : ℕ)
  | turnFailed (turnId : ℕ) (errorCode : String)
  | sessionEnded (sessionId : ℕ) (state : AgentSessionState)

structure World where
  sessions : List SessionRow
  turns : List TurnRow
  modelPermits : List ModelPermit
  toolPermits : List ToolPermit
  events : List Event
  calls : List Call
  stops : List Stop
  /-- The calls that have gone to the model or to a tool, in order. -/
  dispatches : List ℕ

inductive Reply where
  | done (now : ℤ)
  | prepared (maxToolIterations : ℕ)
  | responded (response : ModelResponse)
  | fault (fault : Fault) (landed : Bool) (now : ℤ)

inductive Action where
  | start (startedAt : ℤ) (correlationId : Option String)
  | submit (process sessionId : ℕ) (request : SubmitTurnRequest)
  | advance (call : ℕ) (reply : Reply)
  | stop (process sessionId : ℕ) (cancelled : Bool)
  | advanceStop (stop : ℕ) (reply : Reply)

/-- The call holds the lock of its session in its process. -/
def Phase.holds : Phase → Bool
  | .arrived | .ended _ => false
  | _ => true

section Flow

/-- The branches of `submit_turn` that a raised turn task goes through. -/
def handle (v : Service) (claim : Claim) : Fault → Phase
  | .timeout now =>
    if v.lifetimeExceeded claim.startedAt now then .expiring
    else .failing ⟨"NXS_AGENT_TURN_TIMEOUT",false,.turnTimeout⟩
  | .cancelled => .failing ⟨"NXS_AGENT_CANCELLED",true,.fault .cancelled⟩
  | .nxs code => .failing ⟨code,false,.fault (.nxs code)⟩
  | .other => .ended (.raised (.fault .other))

def refuse (code : String) : Phase := .failing ⟨code,false,.fault (.nxs code)⟩

/-- The next tool call of a response that is not a repetition. -/
def nextTool (v : Service) (loop : Loop) : List ModelToolCall → Phase
  | [] => .working (.authorizingModel { loop with iteration := loop.iteration+1 })
  | call::rest =>
    if v.settings.maxToolCallsPerTurn < loop.requested+1 then refuse "NXS_AGENT_TOOL_LOOP_LIMIT"
    else if (call.name,call.argumentsHash) ∈ loop.executed then
      nextTool v { loop with requested := loop.requested+1 } rest
    else .working (.authorizingTool { loop with requested := loop.requested+1 } call rest)

def respond (v : Service) (loop : Loop) (r : ModelResponse) : Phase :=
  match v.validateResponse r with
  | some code => refuse code
  | none =>
    let loop := { loop with inputTokens := loop.inputTokens+r.inputTokens,
                            outputTokens := loop.outputTokens+r.outputTokens }
    if r.toolCalls = [] ∨ r.finishReason ≠ .toolCalls then
      .finishing ⟨r.assistantContent,r.finishReason,loop.inputTokens,loop.outputTokens,
        loop.executed.length⟩
    else if loop.maxToolIterations ≤ loop.iteration then refuse "NXS_AGENT_TOOL_LOOP_LIMIT"
    else if v.settings.maxToolCallsPerResponse < r.toolCalls.length then
      refuse "NXS_AGENT_OUTPUT_INVALID"
    else nextTool v loop r.toolCalls

/-- A failing `_fail_turn` is ignored unless it was cancelled. -/
def Failure.unwind (failure : Failure) : Fault → Phase
  | .cancelled => .ended (.raised (.fault .cancelled))
  | _ => .ended (.raised failure.error)

def raise (fault : Fault) : Phase := .ended (.raised (.fault fault))

end Flow

namespace World

def initial : World := ⟨[],[],[],[],[],[],[],[]⟩

def enter (w : World) (i : ℕ) (phase : Phase) : World :=
  { w with calls := w.calls.modify i fun c => { c with phase := phase } }

def claim (w : World) (i : ℕ) (claim : Claim) : World :=
  { w with calls := w.calls.modify i fun c => { c with claim := some claim } }

def putSession (w : World) (id : ℕ) (row : SessionRow) : World :=
  { w with sessions := w.sessions.set id row }

def putTurn (w : World) (id : ℕ) (row : TurnRow) : World :=
  { w with turns := w.turns.set id row }

def emit (w : World) (events : List Event) : World := { w with events := w.events++events }

/-- Some call or stop of the process holds the lock of the session. -/
def locked (w : World) (process sessionId : ℕ) : Bool :=
  (w.calls.any fun c => (c.process = process ∧ c.sessionId = sessionId) && c.phase.holds) ||
    w.stops.any fun s =>
      s.process = process ∧ s.sessionId = sessionId ∧ s.phase = .locked

/-- A transaction with its outcome, where `tx` is what it commits and what comes
next, and `broken` what a raised one leads to. -/
def transact (w : World) (i : ℕ) (reply : Reply) (tx : ℤ → World × Phase)
    (broken : Fault → Phase) : World :=
  match reply with
  | .done now => (tx now).1.enter i (tx now).2
  | .fault f true now => (tx now).1.enter i (broken f)
  | .fault f false _ => w.enter i (broken f)
  | _ => w

section Transactions

def terminalize (w : World) (sessionId : ℕ) (target : AgentSessionState)
    (errorCode : Option String) : World :=
  match w.sessions[sessionId]? with
  | none => w
  | some session =>
    if sessionIsTerminal session.state then w
    else (w.putSession sessionId
      { session with state := foldAgentSessionState session.state target,
                     errorCode := errorCode }).emit [.sessionEnded sessionId target]

def byIdempotencyKey (w : World) (sessionId : ℕ) (key : String) : Option ℕ :=
  w.turns.findIdx? fun t => t.sessionId = sessionId ∧ t.idempotencyKey = some key

def activeForSession (w : World) (sessionId : ℕ) : Bool :=
  w.turns.any fun t => t.sessionId = sessionId && !turnIsTerminal t.state

def resolveExistingTurn (turnId : ℕ) (existing : TurnRow) (fingerprint : String) : Result :=
  if existing.requestFingerprint ≠ fingerprint then .raised .idempotencyConflict
  else if existing.state = .completed then .returned (responseFromTurn turnId existing)
  else if turnIsTerminal existing.state then .raised (.idempotentReplay existing.errorCode)
  else .raised .busy

/-- The admission of a new turn under the lock of its session. -/
def admitTurn (v : Service) (w : World) (i : ℕ) (c : Call) (session : SessionRow) (now : ℤ) :
    World × Phase :=
  if sessionIsTerminal session.state then (w,.ended (.raised .invalidState))
  else if v.lifetimeExceeded session.startedAt now then
    (w.terminalize c.sessionId .expired (some "NXS_AGENT_SESSION_EXPIRED"),
      .ended (.raised .sessionExpired))
  else if w.activeForSession c.sessionId then (w,.ended (.raised .busy))
  else
    let turn : TurnRow :=
      ⟨c.sessionId,session.turnCount+1,.running,c.request.content,none,none,0,0,0,0,none,
        c.request.idempotencyKey,v.fingerprint c.sessionId c.request.content,i,none,now⟩
    (((({ w with turns := w.turns++[turn] }).putSession c.sessionId
        { session with turnCount := session.turnCount+1 }).emit
          [.turnStarted w.turns.length]).claim i
            ⟨w.turns.length,session.startedAt,session.correlationId,now⟩,.opened)

/-- What the key of a request already stands for. -/
def existingTurn (w : World) (c : Call) : Option (ℕ × TurnRow) :=
  c.request.idempotencyKey.bind fun key =>
    (w.byIdempotencyKey c.sessionId key).bind fun t => (w.turns[t]?).map fun row => (t,row)

def openTurn (v : Service) (w : World) (i : ℕ) (c : Call) (now : ℤ) : World × Phase :=
  match w.sessions[c.sessionId]? with
  | none => (w,.ended (.raised .sessionNotFound))
  | some session =>
    match w.existingTurn c with
    | some (t,row) =>
      (w,.ended (resolveExistingTurn t row (v.fingerprint c.sessionId c.request.content)))
    | none => admitTurn v w i c session now

/-- The turn is this worker's and still active. -/
def turnAuthority (w : World) (i : ℕ) (c : Call) (claim : Claim) : Bool :=
  (w.turns[claim.turnId]?).any fun turn =>
    !turnIsTerminal turn.state && (turn.sessionId = c.sessionId ∧ turn.executionOwnerId = i)

def revoked (w : World) (c : Call) : Option SessionRow :=
  (w.sessions[c.sessionId]?).filter fun session => sessionIsTerminal session.state

/-- The fence before a dispatch: the permit is created only while the session is
live, by the owner of the turn, and once. -/
def authorizeDispatch (w : World) (i : ℕ) (c : Call) (claim : Claim) (taken : Bool)
    (permit : World) (next : Phase) : World × Phase :=
  match w.revoked c with
  | some session =>
    (w,.failing ⟨staleTerminalCode session,true,raiseForStaleSession session.state⟩)
  | none =>
    if !w.turnAuthority i c claim then (w,refuse "NXS_AGENT_INVALID_STATE")
    else if taken then (w,refuse "NXS_AGENT_INVALID_STATE")
    else (permit,next)

def authorizeModelDispatch (w : World) (i : ℕ) (c : Call) (claim : Claim) (loop : Loop) :
    World × Phase :=
  w.authorizeDispatch i c claim
    (w.modelPermits.any fun p =>
      p.turnId = claim.turnId ∧ p.iteration = loop.iteration)
    { w with modelPermits := w.modelPermits++[⟨c.sessionId,claim.turnId,loop.iteration⟩] }
    (.working (.dispatchingModel loop))

def authorizeToolDispatch (w : World) (i : ℕ) (c : Call) (claim : Claim) (loop : Loop)
    (call : ModelToolCall) (rest : List ModelToolCall) : World × Phase :=
  w.authorizeDispatch i c claim
    (w.toolPermits.any fun p =>
      p.turnId = claim.turnId ∧ p.toolKey = call.name ∧
        p.argumentsHash = call.argumentsHash)
    { w with
      toolPermits := w.toolPermits++[⟨c.sessionId,claim.turnId,call.name,call.argumentsHash⟩] }
    (.working (.dispatchingTool loop call rest))

def truncated (v : Service) (outcome : TurnOutcome) : String :=
  String.ofList (outcome.content.toList.take v.settings.maxOutputChars)

def completedTurn (v : Service) (c : Call) (claim : Claim) (outcome : TurnOutcome) (now : ℤ)
    (turn : TurnRow) : TurnRow :=
  { turn with
    state := .completed
    responseText := some (truncated v outcome)
    finishReason := some outcome.finishReason.value
    inputTokens := outcome.inputTokens
    outputTokens := outcome.outputTokens
    toolCallCount := outcome.toolCalls
    responseCorrelationId := c.request.correlationId.or claim.correlationId
    latencyMs := elapsedMs claim.createdAt now }

def finishedResponse (v : Service) (c : Call) (claim : Claim) (outcome : TurnOutcome) (now : ℤ) :
    AgentResponse :=
  ⟨c.sessionId,claim.turnId,truncated v outcome,outcome.finishReason.value,outcome.toolCalls,
    outcome.inputTokens,outcome.outputTokens,outcome.inputTokens+outcome.outputTokens,
    elapsedMs claim.createdAt now,c.request.correlationId.or claim.correlationId⟩

def failedTurn (claim : Claim) (cancelled : Bool) (errorCode : String) (now : ℤ)
    (turn : TurnRow) : TurnRow :=
  { turn with
    state := if cancelled then .cancelled else .failed
    errorCode := some errorCode
    latencyMs := elapsedMs claim.createdAt now }

def finishTurn (v : Service) (w : World) (c : Call) (claim : Claim) (outcome : TurnOutcome)
    (now : ℤ) : World × Phase :=
  match w.sessions[c.sessionId]?, w.turns[claim.turnId]? with
  | some session, some turn =>
    if sessionIsTerminal session.state then
      ((w.putTurn claim.turnId (failedTurn claim true (staleTerminalCode session) now turn)).emit
          [.turnFailed claim.turnId (staleTerminalCode session)],
        .ended (.raised (raiseForStaleSession session.state)))
    else
      (((w.putTurn claim.turnId (completedTurn v c claim outcome now turn)).putSession c.sessionId
          { session with state := foldAgentSessionState session.state .active }).emit
            [.turnCompleted claim.turnId,.responseReady claim.turnId],
        .ended (.returned (finishedResponse v c claim outcome now)))
  | _, _ => (w,raise .other)

def failTurn (w : World) (c : Call) (claim : Claim) (failure : Failure) (now : ℤ) :
    World × Phase :=
  match w.turns[claim.turnId]? with
  | none => (w,.ended (.raised failure.error))
  | some turn =>
    let w := w.putTurn claim.turnId (failedTurn claim failure.cancelled failure.errorCode now turn)
    let w := match w.sessions[c.sessionId]? with
      | some session =>
        if sessionIsTerminal session.state then w
        else w.putSession c.sessionId { session with state := .active }
      | none => w
    (w.emit [.turnFailed claim.turnId failure.errorCode],.ended (.raised failure.error))

def expireSession (w : World) (c : Call) : World × Phase :=
  (w.terminalize c.sessionId .expired (some "NXS_AGENT_SESSION_EXPIRED"),
    .failing ⟨"NXS_AGENT_SESSION_EXPIRED",true,.sessionExpired⟩)

end Transactions

section Steps

def dispatch (w : World) (i : ℕ) (next : Phase) : World :=
  { w with dispatches := w.dispatches++[i] }.enter i next

/-- The runtime loop of a turn. Whatever it raises goes through the branches of
`submit_turn`. -/
def work (v : Service) (w : World) (i : ℕ) (c : Call) (claim : Claim) (reply : Reply) :
    Work → World
  | .preparing =>
    match reply with
    | .prepared n => w.enter i (.working (.authorizingModel ⟨n,0,[],0,0,0⟩))
    | .fault f _ _ => w.enter i (handle v claim f)
    | _ => w
  | .authorizingModel loop =>
    w.transact i reply (fun _ => w.authorizeModelDispatch i c claim loop) (handle v claim)
  | .dispatchingModel loop =>
    match reply with
    | .done _ => w.dispatch i (.working (.callingModel loop))
    | .fault f _ _ => w.enter i (handle v claim f)
    | _ => w
  | .callingModel loop =>
    match reply with
    | .responded r => w.enter i (respond v loop r)
    | .fault f _ _ => w.enter i (handle v claim f)
    | _ => w
  | .authorizingTool loop call rest =>
    w.transact i reply (fun _ => w.authorizeToolDispatch i c claim loop call rest) (handle v claim)
  | .dispatchingTool loop call rest =>
    match reply with
    | .done _ => w.dispatch i (.working (.callingTool loop call rest))
    | .fault f _ _ => w.enter i (handle v claim f)
    | _ => w
  | .callingTool loop call rest =>
    match reply with
    | .done _ => w.enter i (.working (.recordingTool
        { loop with executed := loop.executed++[(call.name,call.argumentsHash)] } rest))
    | .fault f _ _ => w.enter i (handle v claim f)
    | _ => w
  | .recordingTool loop rest =>
    match reply with
    | .done _ => w.enter i (nextTool v loop rest)
    | .fault f _ _ => w.enter i (handle v claim f)
    | _ => w

def arrive (v : Service) (w : World) (i : ℕ) (c : Call) : World :=
  if !v.settings.enabled then w.enter i (.ended (.raised .disabled))
  else if w.locked c.process c.sessionId then w.enter i (.ended (.raised .busy))
  else w.enter i .opening

/-- A call that has opened its turn. -/
def advanceOwner (v : Service) (w : World) (i : ℕ) (c : Call) (claim : Claim) (reply : Reply) :
    World :=
  match c.phase with
  | .opened =>
    match reply with
    | .done _ => w.enter i (.working .preparing)
    | .fault f _ _ => w.enter i (raise f)
    | _ => w
  | .working work => w.work v i c claim reply work
  | .finishing outcome => w.transact i reply (w.finishTurn v c claim outcome) raise
  | .expiring => w.transact i reply (fun _ => w.expireSession c) raise
  | .failing failure =>
    match reply with
    | .done _ =>
      if (w.turns[claim.turnId]?).all fun turn => turnIsTerminal turn.state then
        w.enter i (.ended (.raised failure.error))
      else w.enter i (.writing failure)
    | .fault f _ _ => w.enter i (failure.unwind f)
    | _ => w
  | .writing failure => w.transact i reply (w.failTurn c claim failure) failure.unwind
  | _ => w

def advance (v : Service) (w : World) (i : ℕ) (c : Call) (reply : Reply) : World :=
  match c.phase with
  | .arrived => w.arrive v i c
  | .opening => w.transact i reply (w.openTurn v i c) raise
  | _ =>
    match c.claim with
    | some claim => w.advanceOwner v i c claim reply
    | none => w

def enterStop (w : World) (j : ℕ) (phase : StopPhase) : World :=
  { w with stops := w.stops.modify j fun s => { s with phase := phase } }

def endSession (w : World) (s : Stop) : World :=
  if s.cancelled then w.terminalize s.sessionId .cancelled (some "NXS_AGENT_CANCELLED")
  else w.terminalize s.sessionId .completed none

def advanceStop (w : World) (j : ℕ) (s : Stop) (reply : Reply) : World :=
  match s.phase with
  | .waiting => if w.locked s.process s.sessionId then w else w.enterStop j .locked
  | .locked =>
    match reply with
    | .done _ | .fault _ true _ => (w.endSession s).enterStop j .ended
    | _ => w.enterStop j .ended
  | .ended => w

def step (v : Service) (w : World) : Action → World
  | .start startedAt correlationId =>
    { w with sessions := w.sessions++[⟨.active,none,startedAt,correlationId,0⟩] }
  | .submit process sessionId request =>
    { w with calls := w.calls++[⟨process,sessionId,request,none,.arrived⟩] }
  | .advance i reply =>
    match w.calls[i]? with
    | none => w
    | some c => w.advance v i c reply
  | .stop process sessionId cancelled =>
    { w with stops := w.stops++[⟨process,sessionId,cancelled,.waiting⟩] }
  | .advanceStop j reply =>
    match w.stops[j]? with
    | none => w
    | some s => w.advanceStop j s reply

end Steps

end World

end NexusAi.Agents
