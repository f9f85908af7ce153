import NexusAi.Lib.Sweep
import NexusAi.Workflow.Entities
import NexusAi.Lib.Run

/-!
# Workers on a workflow run

Every writer locks the run row first, so the rows of a run change by one transaction at a
time. Advancing is a fixed point over the pending steps, swept in the order of their keys. A
worker claims a ready step, executes it outside of any transaction and then commits what
came out or reports the failure, so a claim may be executed more than once, committed late
or never.
-/

namespace NexusAi.Workflow
open NexusAi.Checked

structure StepRow where
  spec : StepSpec
  state : StepState
  (attemptCount maxAttempts : ℕ)
  (executionOwnerId claimToken : Option ℕ)
  output : Option Json.Fields
  errorCode : Option String
  externalReference : Option ℕ

def StepRow.key (r : StepRow) : String := r.spec.key

structure RunRow where
  state : RunState
  stateVersion : ℕ
  input : Json.Fields
  output : Option Json.Fields
  (errorCode terminalReason : Option String)

inductive Source where
  | engine | worker

inductive Transition where
  | run (previous : Option RunState) (target : RunState)
  | step (key : String) (previous : Option StepState) (target : StepState)

structure HistoryRow where
  transition : Transition
  reasonCode : String
  source : Source

structure Db where
  run : RunRow
  steps : List StepRow
  history : List HistoryRow
  fresh : ℕ

structure StepClaim where
  spec : StepSpec
  input : Json.Fields
  (ownerId claimToken : ℕ)

def stateOf (rows : List StepRow) (key : String) : StepState :=
  match Table.find StepRow.key key rows with
  | some r => r.state
  | none => .pending

def dependencyStates (rows : List StepRow) (spec : StepSpec) : List StepState :=
  spec.dependsOn.map (stateOf rows)

def resolution (rows : List StepRow) (spec : StepSpec) : Option StepState :=
  resolvePendingStep (dependencyStates rows spec) spec.dependencyMode

def outputs (rows : List StepRow) : Json.Fields :=
  rows.filterMap fun r => r.output.map fun o => (r.key,.obj o)

/-- All rows of a run are created at one time, so their keys order them. -/
def listSteps (rows : List StepRow) : List StepRow :=
  rows.insertionSort fun r s => r.key ≤ s.key

namespace Db

def putStep (db : Db) (row : StepRow) : Db :=
  { db with steps := Table.put StepRow.key row db.steps }

def addTransition (db : Db) (t : Transition) (reason : String) (source : Source) : Db :=
  { db with history := db.history++[⟨t,String.ofList (reason.toList.take 96),source⟩] }

/-- Write a step row together with its entry in the history. -/
def moveStep (db : Db) (row : StepRow) (previous : StepState) (reason : String)
    (source : Source) : Db :=
  (db.putStep row).addTransition (.step row.key (some previous) row.state) reason source

/-- The run row in its next state, apart from the check that it may go there. -/
def enterState (db : Db) (target : RunState) (reason : String) : Db :=
  let next : RunRow := { db.run with
    state := target
    stateVersion := db.run.stateVersion+1
    errorCode := if target = .failed then some reason else db.run.errorCode
    terminalReason := if target ∈ [RunState.completed,.failed,.cancelled] then some reason
      else db.run.terminalReason }
  ({ db with run := next } : Db).addTransition (.run (some db.run.state) target) reason .engine

def transitionRun (db : Db) (target : RunState) (reason : String) : Result Db := do
  requireWorkflowTransition db.run.state target
  pure (db.enterState target reason)

end Db

def initialState (spec : StepSpec) : StepState :=
  if spec.dependsOn = [] then .ready else .pending

def newStep (spec : StepSpec) : StepRow :=
  ⟨spec,initialState spec,0,spec.retry.maxAttempts,none,none,none,none,none⟩

def addStep (db : Db) (spec : StepSpec) : Db :=
  ({ db with steps := db.steps++[newStep spec] } : Db).addTransition
    (.step spec.key none (initialState spec))
    (if spec.dependsOn = [] then "INITIAL_READY" else "AWAITING_DEPENDENCIES") .engine

def startRun (g : Graph) (input : Json.Fields) : Db :=
  g.published.foldl addStep
    ((⟨⟨.pending,1,input,none,none,none⟩,[],[],0⟩ : Db).enterState .running "WORKFLOW_STARTED")

/-- `locked` are the rows that the query skips. -/
def claim (db : Db) (ownerId : ℕ) (locked : String → Bool) : Db × Option StepClaim :=
  if db.run.state ≠ .running then (db,none)
  else match (listSteps db.steps).find? fun r => r.state = .ready && !locked r.key with
    | none => (db,none)
    | some row =>
      let token := db.fresh
      let next := { row with
        state := .running, attemptCount := row.attemptCount+1,
        executionOwnerId := some ownerId, claimToken := some token }
      (({ db with fresh := db.fresh+1 } : Db).moveStep next .ready "STEP_CLAIMED" .worker,
        some ⟨row.spec,db.run.input,ownerId,token⟩)

/-- The row of a claim as long as the claim holds and the run is open. -/
def fencedRow (db : Db) (claim : StepClaim) : Option StepRow :=
  if db.run.state = .running ∨ db.run.state = .paused then
    (Table.find StepRow.key claim.spec.key db.steps).filter fun r =>
      r.state = .running && r.executionOwnerId = some claim.ownerId &&
        r.claimToken = some claim.claimToken
  else none

/-- A pending step whose dependencies give a verdict moves on. -/
def resolveStep (db : Db) (key : String) : Option Db := do
  let row ← (Table.find StepRow.key key db.steps).filter fun r => r.state = .pending
  let target ← resolution db.steps row.spec
  pure (db.moveStep { row with state := target } .pending
    (if target = .ready then "DEPENDENCIES_COMPLETE" else "INACTIVE_BRANCH") .engine)

/-- A sweep that changes anything resolves a pending step, so one round more
than there are steps is enough. -/
def sweeps (db : Db) : Db :=
  Sweep.saturate resolveStep (Kahn.sorted (db.steps.map StepRow.key)) (db.steps.length+1) db

def advance (db : Db) : Result Db :=
  if db.run.state ≠ .running then .ok db
  else
    let db := sweeps db
    if db.steps.all fun r => r.state.settled then
      ({ db with run := { db.run with output := some (outputs db.steps) } } : Db).transitionRun
        .completed "WORKFLOW_COMPLETED"
    else .ok db

def finishStep (db : Db) (claim : StepClaim) (output : Json.Fields) (reference : Option ℕ) :
    Result Db := do
  let row ← present (fencedRow db claim) .executionFenced
  let next := { row with
    state := .completed, output := some output, externalReference := reference }
  advance (db.moveStep next .running "STEP_COMPLETED" .worker)

def skipStep (keys : List String) (row : StepRow) : StepRow :=
  if row.key ∈ keys ∧ (row.state = .pending ∨ row.state = .ready) then
    { row with state := .skipped }
  else row

def skipSteps (db : Db) (keys : List String) : Db :=
  { db with
    steps := db.steps.map (skipStep keys)
    history := db.history++(db.steps.filter fun r =>
      r.key ∈ keys ∧ (r.state = .pending ∨ r.state = .ready)).map fun r =>
        ⟨.step r.key (some r.state) .skipped,"CONDITION_NOT_SELECTED",.engine⟩ }

def finishCondition (db : Db) (claim : StepClaim) (output : Json.Fields)
    (skipped : List String) : Result Db := do
  let row ← present (fencedRow db claim) .executionFenced
  let next := { row with state := .completed, output := some output }
  advance (skipSteps (db.moveStep next .running "CONDITION_EVALUATED" .worker) skipped)

def failStep (db : Db) (claim : StepClaim) (errorCode : String) (retryable : Bool) :
    Result Db := do
  let row ← present (fencedRow db claim) .executionFenced
  if retryable ∧ row.attemptCount < row.maxAttempts then
    pure (db.moveStep { row with
      state := .ready, executionOwnerId := none, claimToken := none,
      errorCode := some errorCode } .running "STEP_RETRY_READY" .worker)
  else
    (db.moveStep { row with state := .failed, errorCode := some errorCode } .running errorCode
      .worker).transitionRun .failed errorCode

def cancelStep (row : StepRow) : StepRow :=
  if row.state = .pending ∨ row.state = .ready then { row with state := .cancelled } else row

def cancelSteps (db : Db) : Db :=
  { db with
    steps := db.steps.map cancelStep
    history := db.history++(db.steps.filter fun r =>
      r.state = .pending ∨ r.state = .ready).map fun r =>
        ⟨.step r.key (some r.state) .cancelled,"WORKFLOW_CANCELLED",.engine⟩ }

def pauseRun (db : Db) : Result Db := db.transitionRun .paused "WORKFLOW_PAUSED"

def resumeRun (db : Db) : Result Db := do
  let db ← db.transitionRun .running "WORKFLOW_RESUMED"
  advance db

def cancelRun (db : Db) : Result Db := do
  let db ← db.transitionRun .cancelled "WORKFLOW_CANCELLED"
  pure (cancelSteps db)

/-- What the tool engine or an agent answers; other steps ask neither. -/
inductive Answer where
  | nothing
  | tool (value : Json)
  | agent (sessionId : ℕ) (content finishReason : String)
  deriving DecidableEq

structure Execution where
  claim : StepClaim
  output : Json.Fields
  reference : Option ℕ
  skipped : Option (List String)

structure World where
  db : Db
  claims : List StepClaim
  executions : List Execution

def ConditionFields.selected (c : ConditionFields) (b : Bool) : List String :=
  if b then c.thenSteps else c.elseSteps

def conditionOutput (c : ConditionFields) (selected : Bool) : Json.Fields :=
  [("selected",.bool selected),
    ("selected_steps",.arr ((c.selected selected).map .str)),
    ("skipped_steps",.arr ((c.selected !selected).map .str))]

def respond : StepConfig → Answer → Option (Json.Fields × Option ℕ)
  | .tool _ _, .tool (.obj fields) => some (fields,none)
  | .tool _ _, .tool value => some ([("result",value)],none)
  | .agent _ _, .agent sessionId content finishReason =>
    some ([("content",.str content),("finish_reason",.str finishReason)],some sessionId)
  | .noop output, _ => some (output,none)
  | _, _ => none

def execute (db : Db) (claim : StepClaim) (answer : Answer) : Option Execution :=
  match claim.spec.config with
  | .condition c =>
    let selected := evaluateCondition c claim.input (outputs (listSteps db.steps))
    some ⟨claim,conditionOutput c.toConditionFields selected,none,some (c.selected !selected)⟩
  | config => (respond config answer).map fun p => ⟨claim,p.1,p.2,none⟩

def finish (db : Db) (e : Execution) : Result Db :=
  match e.skipped with
  | none => finishStep db e.claim e.output e.reference
  | some keys => finishCondition db e.claim e.output keys

inductive Action where
  | claim (ownerId : ℕ) (locked : String → Bool)
  | execute (claim : ℕ) (answer : Answer)
  | finish (execution : ℕ)
  | fail (claim : ℕ) (code : String) (retryable : Bool)
  | pause
  | resume
  | cancel

def settleWith (x : Result Db) (w : World) : World :=
  match x with
  | .ok db => { w with db := db }
  | .error _ => w

def step (w : World) : Action → World
  | .claim ownerId locked =>
    let (db,c) := claim w.db ownerId locked
    { w with db := db, claims := w.claims++c.toList }
  | .execute i answer =>
    match w.claims[i]? with
    | none => w
    | some c => { w with executions := w.executions++(execute w.db c answer).toList }
  | .finish j =>
    match w.executions[j]? with
    | none => w
    | some e => settleWith (finish w.db e) w
  | .fail i code retryable =>
    match w.claims[i]? with
    | none => w
    | some c =>
      settleWith (failStep w.db c code (retryable && code ∈ c.spec.retry.retryableCodes)) w
  | .pause => settleWith (pauseRun w.db) w
  | .resume => settleWith (resumeRun w.db) w
  | .cancel => settleWith (cancelRun w.db) w

def start (g : Graph) (input : Json.Fields) : World := ⟨startRun g input,[],[]⟩

def reach (g : Graph) (input : Json.Fields) (as : List Action) : World :=
  Run.exec step as (start g input)

end NexusAi.Workflow
