import NexusAi.Lib.Run
import NexusAi.Lib.Custody

/-!
# Placements of organizations in cells

Placements are mutated under exclusive locks on the cell, the organization and the
placement. Transactions that need a placement hold a shared lock on it until they
end. A worker without a cell holds a shared lock on the organization instead. Every
statement of a transaction is a step, and so is its commit. A lock that is not free is
waited for: the step leaves everything as it is.

The organizations are fixed, and hashes stand for what they hash. The receipts of
cell retirement are left out.
-/

namespace NexusAi.Cells
open NexusAi.RowLocks

inductive CellState
  | registered | retired
  deriving DecidableEq

inductive PlacementState
  | active | suspended
  deriving DecidableEq

inductive PlacementOperation
  | assign | suspend | resume
  deriving DecidableEq

def maxGeneration : ℕ := 9223372036854775807

structure Content where
  cellId : ℕ
  operation : PlacementOperation
  expectedGeneration : Option ℕ
  reasonCode : String
  deriving DecidableEq

structure PlacementMutation extends Content where
  idempotencyKey : String
  validGeneration : operation = .assign ↔ expectedGeneration = none

structure PlacementSnapshot where
  (organizationId placementId cellId assignmentGeneration : ℕ)
  state : PlacementState
  deriving DecidableEq

structure Cell where
  state : CellState
  hasPlacements : Bool

structure Placement where
  (id cellId assignmentGeneration : ℕ)
  state : PlacementState

def snapshot (organizationId : ℕ) (p : Placement) : PlacementSnapshot :=
  ⟨organizationId,p.id,p.cellId,p.assignmentGeneration,p.state⟩

structure Receipt where
  organizationId : ℕ
  operation : PlacementOperation
  idempotencyKey : String
  fingerprint : Content
  (placementId cellId resultGeneration : ℕ)
  newState : PlacementState

def Receipt.snapshot (r : Receipt) : PlacementSnapshot :=
  ⟨r.organizationId,r.placementId,r.cellId,r.resultGeneration,r.newState⟩

structure AssignmentEvent where
  operation : PlacementOperation
  placement : PlacementSnapshot
  reasonCode : String

inductive CellError
  | permissionDenied
  | placementConflict
  | placementRequired
  | placementFenced
  | cellUnavailable
  | aborted

inductive MutatePhase
  | authorizing
  | checking
  | lockingCell
  | lockingOrganization
  | receiving
  | lockingPlacement
  | committing (placement : Placement)
  | ended (answer : Except CellError PlacementSnapshot)

inductive ExecutePhase
  | lockingOrganization
  | reading
  | admittingCell (expected : PlacementSnapshot)
  | admittingPlacement (expected : PlacementSnapshot)
  | working (admitted : Option PlacementSnapshot)
  | ended (answer : Except CellError Unit)

inductive RetirePhase
  | lockingCell
  | committing
  | ended (answer : Except CellError Unit)

inductive Work
  | mutate (organizationId : ℕ) (request : PlacementMutation) (phase : MutatePhase)
  | execute (organizationId : ℕ) (workerCellId : Option ℕ) (route : Option PlacementSnapshot)
      (phase : ExecutePhase)
  | retire (cellId : ℕ) (phase : RetirePhase)

inductive Resource
  | cell (id : ℕ)
  | organization (id : ℕ)
  | placement (organizationId : ℕ)
  deriving DecidableEq

structure Transaction where
  work : Work
  locks : List (Resource × Mode)

structure World where
  cells : List Cell
  placements : ℕ → Option Placement
  receipts : List Receipt
  events : List AssignmentEvent
  transactions : List Transaction

/-- How a statement ends: it goes through, the actor is refused, or the transaction is
lost, rolled back or committed all the same. -/
inductive Answer
  | done
  | refused
  | lost (committed : Bool)

inductive Action
  | register
  | retire (cellId : ℕ)
  | mutate (organizationId : ℕ) (request : PlacementMutation)
  | execute (organizationId : ℕ) (workerCellId : Option ℕ) (route : Option PlacementSnapshot)
  | advance (i : ℕ) (answer : Answer)

def mutated (request : PlacementMutation) (id : ℕ) (placement : Option Placement) :
    Except CellError Placement :=
  match request.operation, placement with
  | .assign, some _ => .error .placementConflict
  | .assign, none => .ok ⟨id,request.cellId,1,.active⟩
  | _, none => .error .placementConflict
  | operation, some p =>
    let required : PlacementState := if operation = .suspend then .active else .suspended
    if p.cellId ≠ request.cellId ∨ some p.assignmentGeneration ≠ request.expectedGeneration ∨
        p.assignmentGeneration = maxGeneration ∨ p.state ≠ required then
      .error .placementConflict
    else
      .ok { p with
        state := if required = .active then .suspended else .active
        assignmentGeneration := p.assignmentGeneration+1 }

def receiptOf (organizationId : ℕ) (request : PlacementMutation) (p : Placement) : Receipt :=
  ⟨organizationId,request.operation,request.idempotencyKey,request.toContent,p.id,p.cellId,
    p.assignmentGeneration,p.state⟩

def Receipt.event (r : Receipt) : AssignmentEvent :=
  ⟨r.operation,r.snapshot,r.fingerprint.reasonCode⟩

namespace World

def initial : World := ⟨[],fun _ => none,[],[],[]⟩

def locks (w : World) (i : ℕ) : List (Resource × Mode) :=
  ((w.transactions[i]?).map Transaction.locks).getD []

def free (w : World) (i : ℕ) (r : Resource) (m : Mode) : Bool :=
  (List.range w.transactions.length).all fun j => j = i ||
    (w.locks j).all fun k => k.1 ≠ r || (m = .shared ∧ k.2 = .shared)

def put (w : World) (i : ℕ) (work : Work) (locks : List (Resource × Mode)) : World :=
  { w with transactions := w.transactions.set i ⟨work,locks⟩ }

def lock (w : World) (i : ℕ) (r : Resource) (m : Mode) (next : Work) : World :=
  w.put i next ((r,m)::w.locks i)

def whenFree (w : World) (i : ℕ) (r : Resource) (m : Mode) (after : World) : World :=
  if w.free i r m then after else w

def proceed (w : World) (i : ℕ) (next : Work) : World := w.put i next (w.locks i)

def finish (w : World) (i : ℕ) (next : Work) : World := w.put i next []

def receiptFor (w : World) (organizationId : ℕ) (request : PlacementMutation) : Option Receipt :=
  w.receipts.find? fun r => r.organizationId = organizationId ∧
    r.operation = request.operation ∧ r.idempotencyKey = request.idempotencyKey

def isRegistered (w : World) (cellId : ℕ) : Bool :=
  (w.cells[cellId]?).any fun c => c.state = .registered

/-- The rows of a mutation. Inserting a placement marks its cell. -/
def mutationWritten (w : World) (organizationId : ℕ) (request : PlacementMutation)
    (p : Placement) : World :=
  { w with
    placements := Function.update w.placements organizationId (some p)
    cells := if request.operation = .assign then
        w.cells.modify request.cellId fun c => { c with hasPlacements := true }
      else w.cells
    receipts := w.receipts++[receiptOf organizationId request p]
    events := w.events++[(receiptOf organizationId request p).event] }

def mutateStep (known : ℕ → Bool) (w : World) (i organizationId : ℕ)
    (request : PlacementMutation) (phase : MutatePhase) (answer : Answer) : World :=
  let next (phase : MutatePhase) : Work := .mutate organizationId request phase
  let raise (e : CellError) : World := w.finish i (next (.ended (.error e)))
  match phase, answer with
  | .ended _, _ => w
  | .committing p, .done =>
    (w.mutationWritten organizationId request p).finish i
      (next (.ended (.ok (snapshot organizationId p))))
  | .committing p, .lost true =>
    (w.mutationWritten organizationId request p).finish i (next (.ended (.error .aborted)))
  | _, .lost _ => raise .aborted
  | .authorizing, .refused => raise .permissionDenied
  | .authorizing, _ => w.proceed i (next .checking)
  | .checking, _ =>
    match w.receiptFor organizationId request with
    | some r =>
      if r.fingerprint ≠ request.toContent then raise .placementConflict
      else w.proceed i (next .lockingCell)
    | none => w.proceed i (next .lockingCell)
  | .lockingCell, _ =>
    w.whenFree i (.cell request.cellId) .exclusive
      (if w.isRegistered request.cellId then
        w.lock i (.cell request.cellId) .exclusive (next .lockingOrganization)
      else raise .cellUnavailable)
  | .lockingOrganization, _ =>
    w.whenFree i (.organization organizationId) .exclusive
      (if known organizationId then
        w.lock i (.organization organizationId) .exclusive (next .receiving)
      else raise .permissionDenied)
  | .receiving, _ =>
    match w.receiptFor organizationId request with
    | some r =>
      if r.fingerprint ≠ request.toContent then raise .placementConflict
      else w.finish i (next (.ended (.ok r.snapshot)))
    | none => w.proceed i (next .lockingPlacement)
  | .lockingPlacement, _ =>
    w.whenFree i (.placement organizationId) .exclusive
      (match mutated request w.receipts.length (w.placements organizationId),
        w.placements organizationId with
      | .error e, _ => raise e
      | .ok p, none => w.proceed i (next (.committing p))
      | .ok p, some _ => w.lock i (.placement organizationId) .exclusive (next (.committing p)))
  | .committing _, .refused => raise .aborted

/-- The checks that `admit` makes of the locked placement. -/
def admits (workerCellId : ℕ) (expected : PlacementSnapshot) (p : Placement) : Bool :=
  p.id = expected.placementId ∧ p.cellId = workerCellId ∧
    p.assignmentGeneration = expected.assignmentGeneration ∧ p.state = .active ∧
    expected.state = .active

def executeStep (known : ℕ → Bool) (w : World) (i organizationId : ℕ) (workerCellId : Option ℕ)
    (route : Option PlacementSnapshot) (phase : ExecutePhase) (answer : Answer) : World :=
  let next (phase : ExecutePhase) : Work := .execute organizationId workerCellId route phase
  let raise (e : CellError) : World := w.finish i (next (.ended (.error e)))
  match phase, answer with
  | .ended _, _ => w
  | .working _, .done => w.finish i (next (.ended (.ok ())))
  | _, .lost _ => raise .aborted
  | .lockingOrganization, _ =>
    w.whenFree i (.organization organizationId) .shared
      (if known organizationId then
        w.lock i (.organization organizationId) .shared (next .reading)
      else w.proceed i (next .reading))
  | .reading, _ =>
    match workerCellId, w.placements organizationId with
    | none, none => w.proceed i (next (.working none))
    | none, some _ => raise .placementFenced
    | some _, none => raise .placementRequired
    | some cellId, some p =>
      let expected := route.getD (snapshot organizationId p)
      if expected.organizationId ≠ organizationId ∨ expected.cellId ≠ cellId then
        raise .placementFenced
      else w.proceed i (next (.admittingCell expected))
  | .admittingCell expected, _ =>
    w.whenFree i (.cell expected.cellId) .shared
      (if w.isRegistered expected.cellId then
        w.lock i (.cell expected.cellId) .shared (next (.admittingPlacement expected))
      else raise .cellUnavailable)
  | .admittingPlacement expected, _ =>
    w.whenFree i (.placement organizationId) .shared
      (match w.placements organizationId with
      | none => raise .placementRequired
      | some p =>
        if admits expected.cellId expected p then
          w.lock i (.placement organizationId) .shared (next (.working (some expected)))
        else raise .placementFenced)
  | .working _, .refused => raise .aborted

def retireStep (w : World) (i cellId : ℕ) (phase : RetirePhase) (answer : Answer) : World :=
  let next (phase : RetirePhase) : Work := .retire cellId phase
  let raise (e : CellError) : World := w.finish i (next (.ended (.error e)))
  match phase, answer with
  | .ended _, _ => w
  | .committing, .lost false => raise .aborted
  | .committing, .refused => raise .aborted
  | .committing, _ =>
    { w with
      cells := w.cells.modify cellId fun c => { c with state := .retired }
    }.finish i (next (.ended (.ok ())))
  | .lockingCell, .done =>
    w.whenFree i (.cell cellId) .exclusive
      (match w.cells[cellId]? with
      | none => raise .cellUnavailable
      | some c =>
        if c.state ≠ .registered ∨ c.hasPlacements then raise .placementConflict
        else w.lock i (.cell cellId) .exclusive (next .committing))
  | .lockingCell, _ => raise .aborted

def advanceStep (known : ℕ → Bool) (w : World) (i : ℕ) (answer : Answer) : World :=
  match (w.transactions[i]?).map Transaction.work with
  | none => w
  | some (.mutate organizationId request phase) =>
    w.mutateStep known i organizationId request phase answer
  | some (.execute organizationId workerCellId route phase) =>
    w.executeStep known i organizationId workerCellId route phase answer
  | some (.retire cellId phase) => w.retireStep i cellId phase answer

def begins (w : World) (work : Work) : World :=
  { w with transactions := w.transactions++[⟨work,[]⟩] }

def step (known : ℕ → Bool) (w : World) : Action → World
  | .register => { w with cells := w.cells++[⟨.registered,false⟩] }
  | .retire cellId => w.begins (.retire cellId .lockingCell)
  | .mutate organizationId request => w.begins (.mutate organizationId request .authorizing)
  | .execute organizationId workerCellId route =>
    w.begins (.execute organizationId workerCellId route
      (if workerCellId.isNone then .lockingOrganization else .reading))
  | .advance i answer => w.advanceStep known i answer

end World

end NexusAi.Cells
