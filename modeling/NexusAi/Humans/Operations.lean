import NexusAi.Lib.Checked
import NexusAi.Lib.Run
import NexusAi.Lib.Table

/-!
# Human agent operations

Work items, the agents they are assigned to and the ownership of the
conversations, one transaction each. A return to AI is a transaction before the
session is started and one after it, which binds, rejects or gives it up; the
answer of the agent service is a parameter of the second. Digests are what they
are made of.
-/

namespace NexusAi.Humans
open NexusAi.Checked

inductive HumanError where
  | conflict (detail : String)
  | invalidState (detail : String)
  | executionFenced (detail : String)
  | notFound (detail : String)
  | capacityExceeded (detail : String)
  | boundaryUnavailable (detail : String)
  | integrityError

abbrev Result (α : Type) := Except HumanError α

inductive WorkItemState where
  | queued | claimed | accepted | active | aiReturnPending | wrapUp | completed | cancelled
  deriving DecidableEq

def WorkItemState.targets : WorkItemState → List WorkItemState
  | .queued => [.claimed,.cancelled]
  | .claimed => [.accepted,.queued,.cancelled]
  | .accepted => [.active,.queued,.cancelled]
  | .active => [.aiReturnPending,.wrapUp,.queued,.cancelled]
  | .aiReturnPending => [.queued,.completed]
  | .wrapUp => [.completed,.queued]
  | .completed => []
  | .cancelled => []

inductive AssignmentState where
  | claimed | accepted | active | released | transferred | completed
  deriving DecidableEq

def AssignmentState.targets : AssignmentState → List AssignmentState
  | .claimed => [.accepted,.released,.transferred]
  | .accepted => [.active,.released,.transferred]
  | .active => [.released,.transferred,.completed]
  | .released => []
  | .transferred => []
  | .completed => []

def AssignmentState.open (s : AssignmentState) : Bool :=
  s = .claimed ∨ s = .accepted ∨ s = .active

inductive PresenceState where
  | offline | available | busy | away | wrapUp
  deriving DecidableEq

inductive OwnershipMode where
  | ai | human | unassigned
  deriving DecidableEq

inductive HandoffDirection where
  | aiToHuman | humanToAi
  deriving DecidableEq

inductive HandoffState where
  | requested | aiReturnPending | accepted | p13Rejected | ambiguous | completed
  deriving DecidableEq

inductive Channel where
  | whatsapp | email | sms | voice
  deriving DecidableEq

structure QueueRow where
  id : ℕ
  queueKey : String
  enabled : Bool
  supportedChannels : List Channel
  requiredSkills : List String
  (maxActiveAssignments revision : ℕ)

structure PresenceRow where
  agentUserId : ℕ
  state : PresenceState
  capacity : ℕ
  activeAssignmentCount : ℤ
  version : ℕ

/-- What a work item takes over from its request and keeps. -/
structure WorkSource where
  conversationId : ℕ
  customerId : Option ℕ
  channel : Channel
  sourceType : String
  (sourceId callId voiceSessionId : Option ℕ)
  priority : ℤ
  (handoffReason idempotencyKey : String)
  deriving DecidableEq

structure WorkRow extends WorkSource where
  (id queueId : ℕ)
  state : WorkItemState
  eligibleAt : ℤ
  (assignedAgentId currentAssignmentId : Option ℕ)
  leaseVersion : ℕ

structure OwnershipRow where
  conversationId : ℕ
  mode : OwnershipMode
  generation : ℕ
  (workItemId assignmentId agentUserId aiSessionId : Option ℕ)

/-- The check constraint on the authority that a row records. -/
def OwnershipRow.shaped (o : OwnershipRow) : Bool :=
  match o.mode with
  | .ai => o.aiSessionId.isSome && o.assignmentId.isNone && o.agentUserId.isNone
  | .human => o.assignmentId.isSome && o.agentUserId.isSome && o.aiSessionId.isNone
  | .unassigned => o.assignmentId.isNone && o.agentUserId.isNone && o.aiSessionId.isNone

structure AssignmentRow where
  (id workItemId queueId ownerAgentId : ℕ)
  state : AssignmentState
  claimToken : String
  leaseVersion : ℕ
  releaseReason : Option String

inductive Fingerprint where
  | toHuman (conversationId : ℕ) (customerId : Option ℕ) (channel : Channel) (queueId : ℕ)
      (sourceType : String) (sourceId : Option ℕ)
  | toAi (assignmentId generation agentId : ℕ) (context : String)
  deriving DecidableEq

structure HandoffRow where
  (id conversationId workItemId : ℕ)
  direction : HandoffDirection
  state : HandoffState
  idempotencyKey : String
  semanticFingerprint : Fingerprint
  ownershipGeneration : ℕ
  p13SessionId : Option ℕ

structure Db where
  queues : List QueueRow
  presence : List PresenceRow
  works : List WorkRow
  ownership : List OwnershipRow
  assignments : List AssignmentRow
  handoffs : List HandoffRow
  fresh : ℕ

def empty : Db := ⟨[],[],[],[],[],[],0⟩

namespace Db

variable (db : Db)

def queueRow (id : ℕ) : Option QueueRow := Table.find QueueRow.id id db.queues
def presenceRow (id : ℕ) : Option PresenceRow := Table.find PresenceRow.agentUserId id db.presence
def workRow (id : ℕ) : Option WorkRow := Table.find WorkRow.id id db.works
def assignmentRow (id : ℕ) : Option AssignmentRow := Table.find AssignmentRow.id id db.assignments
def ownershipRow (id : ℕ) : Option OwnershipRow :=
  Table.find OwnershipRow.conversationId id db.ownership
def handoffByKey (key : String) : Option HandoffRow :=
  Table.find HandoffRow.idempotencyKey key db.handoffs
def workByKey (key : String) : Option WorkRow :=
  Table.find (fun w => w.idempotencyKey) key db.works

def setPresence (id : ℕ) (f : PresenceRow → PresenceRow) : Db :=
  { db with presence := Table.modify PresenceRow.agentUserId id f db.presence }

def setWork (id : ℕ) (f : WorkRow → WorkRow) : Db :=
  { db with works := Table.modify WorkRow.id id f db.works }

def setAssignment (id : ℕ) (f : AssignmentRow → AssignmentRow) : Db :=
  { db with assignments := Table.modify AssignmentRow.id id f db.assignments }

def setHandoff (id : ℕ) (f : HandoffRow → HandoffRow) : Db :=
  { db with handoffs := Table.modify HandoffRow.id id f db.handoffs }

/-- A new generation of the ownership, which has to pass the check constraint. -/
def setOwnership (id : ℕ) (f : OwnershipRow → OwnershipRow) : Result Db := do
  let renew (o : OwnershipRow) : OwnershipRow :=
    { f o with conversationId := o.conversationId, generation := o.generation+1 }
  let rows := Table.modify OwnershipRow.conversationId id renew db.ownership
  require (∀ o ∈ rows, o.shaped) .integrityError
  pure { db with ownership := rows }

def addHandoff (h : HandoffRow) : Result Db := do
  require (∀ x ∈ db.handoffs, x.idempotencyKey ≠ h.idempotencyKey) .integrityError
  pure { db with handoffs := db.handoffs++[h], fresh := db.fresh+1 }

/-- At most one open assignment of a work item. -/
def addAssignment (a : AssignmentRow) : Result Db := do
  require (∀ x ∈ db.assignments, x.workItemId = a.workItemId → x.state.open = false)
    .integrityError
  pure { db with assignments := db.assignments++[a], fresh := db.fresh+1 }

def ensureOwnership (id : ℕ) : Db :=
  match db.ownershipRow id with
  | some _ => db
  | none => { db with ownership := db.ownership++[⟨id,.unassigned,1,none,none,none,none⟩] }

end Db

def unowned (o : OwnershipRow) : OwnershipRow :=
  { o with mode := .unassigned, assignmentId := none, agentUserId := none }

structure QueueHumanWorkRequest extends WorkSource where
  queueId : ℕ
  eligibleAt : Option ℤ

def Db.serves (db : Db) (id : ℕ) (channel : Channel) : Bool :=
  (db.queueRow id).any fun q => q.enabled && channel ∈ q.supportedChannels

def createWork (db : Db) (now : ℤ) (request : QueueHumanWorkRequest) : Db × WorkRow :=
  match db.workByKey request.idempotencyKey with
  | some w => (db,w)
  | none =>
    let w : WorkRow := ⟨request.toWorkSource,db.fresh,request.queueId,.queued,
      request.eligibleAt.getD now,none,none,0⟩
    ({ db with works := db.works++[w], fresh := db.fresh+1 },w)

def requestAiHandoff (db : Db) (now : ℤ) (request : QueueHumanWorkRequest) :
    Result (Db × WorkRow) := do
  require (db.serves request.queueId request.channel)
    (.invalidState "queue is disabled, absent, or channel-ineligible")
  let (db,existing) := createWork db now request
  require (existing.toWorkSource = request.toWorkSource ∧ existing.queueId = request.queueId)
    (.conflict "handoff idempotency key was reused with different semantics")
  let db := db.ensureOwnership request.conversationId
  let ownership ← present (db.ownershipRow request.conversationId)
    (.executionFenced "conversation ownership could not be established")
  if ownership.workItemId = some existing.id ∧ ownership.mode = .unassigned then
    pure (db,existing)
  else do
    require (ownership.mode ≠ .human) (.conflict "conversation is already human-owned")
    let db ← db.setOwnership request.conversationId fun o =>
      { unowned o with workItemId := some existing.id, aiSessionId := none }
    let db ← db.addHandoff ⟨db.fresh,request.conversationId,existing.id,.aiToHuman,.requested,
      request.idempotencyKey,.toHuman request.conversationId request.customerId request.channel
        request.queueId request.sourceType request.sourceId,ownership.generation+1,none⟩
    pure (db,existing)

structure UpdateQueueRequest where
  expectedRevision : ℕ
  enabled : Option Bool
  supportedChannels : Option (List Channel)
  requiredSkills : Option (List String)
  maxActiveAssignments : Option ℕ

def createQueue (db : Db) (queueKey : String) (supportedChannels : List Channel)
    (requiredSkills : List String) (maxActiveAssignments : ℕ) : Result Db := do
  require (∀ q ∈ db.queues, q.queueKey ≠ queueKey)
    (.conflict "queue_key already exists in this Organization")
  pure { db with
    queues := db.queues++[⟨db.fresh,queueKey,true,supportedChannels,requiredSkills,
      maxActiveAssignments,1⟩]
    fresh := db.fresh+1 }

def updateQueue (db : Db) (id : ℕ) (request : UpdateQueueRequest) : Result Db := do
  let q ← present (db.queueRow id) (.notFound "queue does not exist in this Organization")
  require (q.revision = request.expectedRevision) (.conflict "queue revision changed")
  let update (q : QueueRow) : QueueRow := { q with
    enabled := request.enabled.getD q.enabled
    supportedChannels := request.supportedChannels.getD q.supportedChannels
    requiredSkills := request.requiredSkills.getD q.requiredSkills
    maxActiveAssignments := request.maxActiveAssignments.getD q.maxActiveAssignments
    revision := q.revision+1 }
  pure { db with queues := Table.modify QueueRow.id id update db.queues }

def setPresence (db : Db) (agent : ℕ) (state : PresenceState) (capacity : ℕ)
    (expectedVersion : Option ℕ) : Result Db :=
  match db.presenceRow agent with
  | none => pure { db with presence := db.presence++[⟨agent,state,capacity,0,1⟩] }
  | some row => do
    require (∀ v ∈ expectedVersion, row.version = v) (.conflict "presence version changed")
    require (row.activeAssignmentCount ≤ capacity)
      (.capacityExceeded "capacity cannot fall below active assignments")
    pure (db.setPresence agent fun p =>
      { p with state := state, capacity := capacity, version := p.version+1 })

def PresenceRow.takes (p : PresenceRow) : Bool := p.state = .available ∨ p.state = .busy

def Db.count (db : Db) (agent : ℕ) (n : ℤ) : Db := db.setPresence agent fun p =>
  { p with activeAssignmentCount := p.activeAssignmentCount+n, version := p.version+1 }

/-- The order in which queued work is handed out; items are numbered as they are created. -/
def claimedBefore (a b : WorkRow) : Bool :=
  b.priority < a.priority || (a.priority == b.priority &&
    (a.eligibleAt < b.eligibleAt || (a.eligibleAt == b.eligibleAt && a.id ≤ b.id)))

/-- The first item of a queue that is eligible and that no other transaction holds. -/
def Db.nextWork (db : Db) (queueId : ℕ) (now : ℤ) (locked : ℕ → Bool) : Option WorkRow :=
  ((db.works.filter fun w => w.queueId = queueId && w.state = .queued &&
    w.eligibleAt ≤ now && !locked w.id).insertionSort
      (fun a b => claimedBefore a b)).head?

structure ClaimWorkRequest where
  (queueId expectedQueueRevision : ℕ)
  skills : List String
  agentUserId : ℕ
  claimToken : String

def claimWork (db : Db) (now : ℤ) (locked : ℕ → Bool) (request : ClaimWorkRequest) :
    Result Db := do
  let agent := request.agentUserId
  let queue ← present (db.queueRow request.queueId) (.invalidState "queue is absent or disabled")
  require (queue.enabled) (.invalidState "queue is absent or disabled")
  require (queue.revision = request.expectedQueueRevision) (.conflict "queue revision changed")
  require (∀ s ∈ queue.requiredSkills, s ∈ request.skills)
    (.invalidState "agent does not satisfy required queue skills")
  let presence ← present (db.presenceRow agent) (.invalidState "agent is not available for work")
  require (presence.takes) (.invalidState "agent is not available for work")
  let capacity := min presence.capacity queue.maxActiveAssignments
  require (presence.activeAssignmentCount < capacity)
    (.capacityExceeded "agent has reached assignment capacity")
  let work ← present (db.nextWork queue.id now locked)
    (.notFound "no eligible work item is available")
  let db := db.ensureOwnership work.conversationId
  let ownership ← present (db.ownershipRow work.conversationId)
    (.executionFenced "conversation ownership could not be established")
  require (ownership.mode ≠ .human) (.conflict "conversation already has human ownership")
  let assignment : AssignmentRow := ⟨db.fresh,work.id,queue.id,agent,.claimed,request.claimToken,
    work.leaseVersion+1,none⟩
  let db ← db.addAssignment assignment
  let db := db.setWork work.id fun w => { w with
    state := .claimed, assignedAgentId := some agent, currentAssignmentId := some assignment.id
    leaseVersion := work.leaseVersion+1 }
  let db := (db.count agent 1).setPresence agent fun p =>
    { p with state := if capacity ≤ p.activeAssignmentCount then .busy else p.state }
  db.setOwnership work.conversationId fun o =>
    { unowned o with workItemId := some work.id, aiSessionId := none }

/-- An assignment with the rows that its authority rests on. -/
structure Authority where
  assignment : AssignmentRow
  work : WorkRow
  ownership : OwnershipRow

def authorityContext (db : Db) (id : ℕ) (queues agents : List ℕ) : Result Authority := do
  let a ← present (db.assignmentRow id) (.executionFenced "assignment is absent")
  let w ← present (db.workRow a.workItemId) (.executionFenced "work item is absent")
  require (∀ q ∈ a.queueId::queues, (db.queueRow q).isSome)
    (.executionFenced "queue is absent")
  require (∀ p ∈ a.ownerAgentId::agents, (db.presenceRow p).isSome)
    (.executionFenced "agent presence is absent")
  let o ← present (db.ownershipRow w.conversationId)
    (.executionFenced "assignment authority context is incomplete")
  pure ⟨a,w,o⟩

structure AssignmentActionRequest where
  (assignmentId actorUserId : ℕ)
  claimToken : String
  (leaseVersion ownershipGeneration : ℕ)
  reasonCode : String

def requireClaimToken (a : AssignmentRow) (request : AssignmentActionRequest) : Result Unit :=
  require (a.leaseVersion = request.leaseVersion ∧ a.claimToken = request.claimToken)
    (.executionFenced "claim token or lease version is stale")

def validateAuthority (db : Db) (request : AssignmentActionRequest) (queues agents : List ℕ) :
    Result Authority := do
  let c ← authorityContext db request.assignmentId queues agents
  require (c.assignment.state.open) (.executionFenced "assignment is not active")
  requireClaimToken c.assignment request
  require (c.work.currentAssignmentId = some c.assignment.id ∧
      c.work.leaseVersion = request.leaseVersion)
    (.executionFenced "work item no longer belongs to this assignment")
  require (c.ownership.generation = request.ownershipGeneration ∧
      c.ownership.assignmentId = some c.assignment.id)
    (.executionFenced "conversation ownership generation is stale")
  pure c

def acceptAssignment (db : Db) (request : AssignmentActionRequest) : Result Db := do
  let ⟨a,w,o⟩ ← authorityContext db request.assignmentId [] []
  require (a.ownerAgentId = request.actorUserId)
    (.executionFenced "assignment belongs to another agent")
  requireClaimToken a request
  if a.state = .active ∧ w.state = .active ∧ w.currentAssignmentId = some a.id ∧
      o.mode = .human ∧ o.assignmentId = some a.id ∧
      o.generation = request.ownershipGeneration+1 then pure db
  else do
    require (o.generation = request.ownershipGeneration ∧ o.mode = .unassigned ∧
        o.assignmentId = none ∧ w.currentAssignmentId = some a.id ∧
        w.leaseVersion = request.leaseVersion)
      (.executionFenced "accept authority is stale")
    require (.accepted ∈ a.state.targets) (.invalidState "assignment transition is forbidden")
    require (.accepted ∈ w.state.targets) (.invalidState "work item transition is forbidden")
    let db := db.setAssignment a.id fun a => { a with state := .active }
    let db := db.setWork w.id fun w => { w with state := .active }
    db.setOwnership o.conversationId fun o => { o with
      mode := .human, assignmentId := some a.id, agentUserId := some request.actorUserId }

def Db.release (db : Db) (a : AssignmentRow) (state : AssignmentState) (reason : String) : Db :=
  (db.setAssignment a.id fun a => { a with state := state, releaseReason := some reason }).count
    a.ownerAgentId (-1)

def completeAssignment (db : Db) (request : AssignmentActionRequest) : Result Db := do
  let ⟨a,w,o⟩ ← authorityContext db request.assignmentId [] []
  require (a.ownerAgentId = request.actorUserId)
    (.executionFenced "assignment belongs to another agent")
  requireClaimToken a request
  if a.state = .completed ∧ a.releaseReason = some request.reasonCode ∧ w.state = .completed ∧
      o.mode = .unassigned ∧ o.generation = request.ownershipGeneration+1 then pure db
  else do
    require (a.state = .active ∧ w.state = .active ∧ o.mode = .human ∧
        o.assignmentId = some a.id ∧ o.generation = request.ownershipGeneration)
      (.executionFenced "completion authority is stale")
    let db := (db.release a .completed request.reasonCode).setWork w.id fun w =>
      { w with state := .completed }
    db.setOwnership o.conversationId unowned

def Db.requeue (db : Db) (id : ℕ) (queueId : Option ℕ) : Db := db.setWork id fun w => { w with
  queueId := queueId.getD w.queueId, state := .queued, assignedAgentId := none
  currentAssignmentId := none }

def transferToQueue (db : Db) (target : ℕ) (request : AssignmentActionRequest) : Result Db := do
  let ⟨a,w,o⟩ ← validateAuthority db request [target] []
  require (a.ownerAgentId = request.actorUserId)
    (.executionFenced "assignment belongs to another agent")
  require (db.serves target w.channel) (.invalidState "target queue is not eligible")
  let db := (db.release a .transferred request.reasonCode).requeue w.id (some target)
  db.setOwnership o.conversationId unowned

/-- The assignment goes over to another agent, who is active at once. -/
def Db.reassign (db : Db) (c : Authority) (target : ℕ) (token reason : String) : Result Db := do
  let p ← present (db.presenceRow target) (.invalidState "target agent is unavailable")
  require (p.takes) (.invalidState "target agent is unavailable")
  require (p.activeAssignmentCount < p.capacity)
    (.capacityExceeded "target agent has reached capacity")
  let db := db.release c.assignment .transferred reason
  let next : AssignmentRow := ⟨db.fresh,c.work.id,c.work.queueId,target,.active,token,
    c.work.leaseVersion+1,none⟩
  let db ← db.addAssignment next
  let db := (db.count target 1).setWork c.work.id fun w => { w with
    state := .active, assignedAgentId := some target, currentAssignmentId := some next.id
    leaseVersion := c.work.leaseVersion+1 }
  db.setOwnership c.ownership.conversationId fun o => { o with
    mode := .human, assignmentId := some next.id, agentUserId := some target }

def transferToAgent (db : Db) (target : ℕ) (token : String) (request : AssignmentActionRequest) :
    Result Db := do
  let c ← validateAuthority db request [] [target]
  require (c.assignment.ownerAgentId = request.actorUserId)
    (.executionFenced "assignment belongs to another agent")
  db.reassign c target token request.reasonCode

def supervisorRelease (db : Db) (id : ℕ) (target : Option ℕ) (reason : String) : Result Db := do
  let a ← present (db.assignmentRow id) (.notFound "assignment does not exist")
  let w ← present (db.workRow a.workItemId) (.notFound "work item does not exist")
  require (∀ q ∈ a.queueId::target.toList, (db.queueRow q).isSome)
    (.invalidState "target queue is unavailable")
  require ((db.presenceRow a.ownerAgentId).isSome ∧
      (db.ownershipRow w.conversationId).isSome ∧ a.state.open)
    (.executionFenced "assignment is no longer releasable")
  require (∀ q ∈ target, (db.queueRow q).any (fun q => q.enabled))
    (.invalidState "target queue is unavailable")
  require (∀ q ∈ target, db.serves q w.channel)
    (.invalidState "target queue does not support this channel")
  let db := (db.release a .released reason).requeue w.id target
  db.setOwnership w.conversationId unowned

def supervisorTransferToAgent (db : Db) (id target : ℕ) (token reason : String) : Result Db := do
  let a ← present (db.assignmentRow id) (.notFound "assignment does not exist")
  let w ← present (db.workRow a.workItemId) (.notFound "work item does not exist")
  require (∀ p ∈ [a.ownerAgentId,target], (db.presenceRow p).isSome)
    (.invalidState "source or target presence is absent")
  let o ← present (db.ownershipRow w.conversationId)
    (.executionFenced "assignment is no longer transferable")
  require (a.state.open ∧ w.currentAssignmentId = some a.id)
    (.executionFenced "assignment is no longer transferable")
  require ((a.state = .claimed ∧ o.mode = .unassigned ∧ o.assignmentId = none ∧
      o.agentUserId = none) ∨ (a.state ≠ .claimed ∧ o.mode = .human ∧
      o.assignmentId = some a.id ∧ o.agentUserId = some a.ownerAgentId))
    (.executionFenced "assignment ownership is no longer transferable")
  require (a.ownerAgentId ≠ target) (.invalidState "target agent already owns this assignment")
  db.reassign ⟨a,w,o⟩ target token reason

/-- The open assignment of a work item is released and its agent relieved. -/
def Db.releaseCurrent (db : Db) (w : WorkRow) (reason : String) : Db :=
  match w.currentAssignmentId.bind db.assignmentRow with
  | some a =>
    if a.state.open then
      let db := db.setAssignment a.id fun a =>
        { a with state := .released, releaseReason := some reason }
      match w.assignedAgentId with
      | some agent => db.count agent (-1)
      | none => db
    else db
  | none => db

def cancelWork (db : Db) (id : ℕ) (reason : String) : Result Db := do
  let w ← present (db.workRow id) (.notFound "work item does not exist")
  if w.state = .cancelled then pure db
  else do
    require (w.state ≠ .completed) (.invalidState "completed work is terminal")
    let db := (db.releaseCurrent w reason).setWork id fun w => { w with
      state := .cancelled, currentAssignmentId := none, assignedAgentId := none }
    db.setOwnership w.conversationId unowned

structure ReturnToAiRequest extends AssignmentActionRequest where
  agentId : ℕ
  (context idempotencyKey : String)

def ReturnToAiRequest.fingerprint (r : ReturnToAiRequest) : Fingerprint :=
  .toAi r.assignmentId r.ownershipGeneration r.agentId r.context

/-- The transaction before the session is started. A replay passes as long as the handoff
is pending. -/
def returnToAi (db : Db) (request : ReturnToAiRequest) : Result Db :=
  match db.handoffByKey request.idempotencyKey with
  | some h => do
    require (h.direction = .humanToAi ∧ h.semanticFingerprint = request.fingerprint)
      (.conflict "return-to-AI idempotency fingerprint changed")
    require (h.state = .accepted → (db.ownershipRow h.conversationId).any (fun o =>
        o.mode = .ai && o.aiSessionId = h.p13SessionId &&
          o.generation = h.ownershipGeneration+1))
      (.executionFenced "accepted AI ownership is no longer current")
    require (h.state ≠ .p13Rejected)
      (.invalidState "the prior P13 return request was rejected")
    require (h.state ≠ .ambiguous) (.boundaryUnavailable
      "P13 acceptance is ambiguous; reconciliation is deferred to NXS-P25")
    require ((db.workRow h.workItemId).isSome)
      (.executionFenced "handoff work item is absent")
    pure db
  | none => do
    let ⟨a,w,o⟩ ← validateAuthority db request.toAssignmentActionRequest [] []
    require (a.ownerAgentId = request.actorUserId ∧ o.mode = .human)
      (.executionFenced "human ownership is not current")
    let db := (db.release a .released "AI_RETURN_REQUESTED").setWork w.id fun w =>
      { w with state := .aiReturnPending }
    let db ← db.setOwnership o.conversationId fun o => { unowned o with aiSessionId := none }
    db.addHandoff ⟨db.fresh,w.conversationId,w.id,.humanToAi,.aiReturnPending,
      request.idempotencyKey,request.fingerprint,o.generation+1,none⟩

def bindAiReturn (db : Db) (key : String) (session : ℕ) : Result Db := do
  let h ← present (db.handoffByKey key) (.executionFenced "return-to-AI handoff is absent")
  let w ← present (db.workRow h.workItemId) (.executionFenced "return-to-AI work item is absent")
  require (h.direction = .humanToAi)
    (.executionFenced "return-to-AI execution contract changed")
  require (∀ s ∈ h.p13SessionId, s = session)
    (.conflict "a different P13 execution is already bound")
  let o ← present (db.ownershipRow h.conversationId)
    (.executionFenced "AI return ownership fence changed")
  if h.state = .accepted ∧ h.p13SessionId = some session ∧ o.mode = .ai ∧
      o.aiSessionId = some session ∧ o.generation = h.ownershipGeneration+1 then pure db
  else do
    require (o.mode = .unassigned ∧ o.generation = h.ownershipGeneration)
      (.executionFenced "AI return ownership fence changed")
    let db := db.setHandoff h.id fun h => { h with p13SessionId := some session, state := .accepted }
    let db := db.setWork w.id fun w => { w with state := .completed }
    db.setOwnership o.conversationId fun o => { o with mode := .ai, aiSessionId := some session }

def rejectAiReturn (db : Db) (id : ℕ) : Result Db :=
  match Table.find HandoffRow.id id db.handoffs with
  | some h =>
    if h.state ≠ .aiReturnPending then pure db
    else
      match db.workRow h.workItemId, db.ownershipRow h.conversationId with
      | some w, some o =>
        let db := db.setHandoff id fun h => { h with state := .p13Rejected }
        (db.requeue w.id none).setOwnership o.conversationId fun o =>
          { unowned o with aiSessionId := none }
      | _, _ => pure db
  | none => pure db

def markAiReturnAmbiguous (db : Db) (id : ℕ) : Db := db.setHandoff id fun h =>
  { h with state := if h.state = .aiReturnPending then .ambiguous else h.state }

inductive Action where
  | createQueue (queueKey : String) (supportedChannels : List Channel)
      (requiredSkills : List String) (maxActiveAssignments : ℕ)
  | updateQueue (id : ℕ) (request : UpdateQueueRequest)
  | setPresence (agent : ℕ) (state : PresenceState) (capacity : ℕ) (expectedVersion : Option ℕ)
  | requestAiHandoff (now : ℤ) (request : QueueHumanWorkRequest)
  | claimWork (now : ℤ) (locked : ℕ → Bool) (request : ClaimWorkRequest)
  | acceptAssignment (request : AssignmentActionRequest)
  | completeAssignment (request : AssignmentActionRequest)
  | transferToQueue (target : ℕ) (request : AssignmentActionRequest)
  | transferToAgent (target : ℕ) (token : String) (request : AssignmentActionRequest)
  | supervisorRelease (id : ℕ) (target : Option ℕ) (reason : String)
  | supervisorTransferToAgent (id target : ℕ) (token reason : String)
  | cancelWork (id : ℕ) (reason : String)
  | returnToAi (request : ReturnToAiRequest)
  | bindAiReturn (key : String) (session : ℕ)
  | rejectAiReturn (id : ℕ)
  | markAiReturnAmbiguous (id : ℕ)

def transaction (db : Db) : Action → Result Db
  | .createQueue k cs ss n => createQueue db k cs ss n
  | .updateQueue id r => updateQueue db id r
  | .setPresence a s c v => setPresence db a s c v
  | .requestAiHandoff now r => (requestAiHandoff db now r).map Prod.fst
  | .claimWork now locked r => claimWork db now locked r
  | .acceptAssignment r => acceptAssignment db r
  | .completeAssignment r => completeAssignment db r
  | .transferToQueue q r => transferToQueue db q r
  | .transferToAgent a t r => transferToAgent db a t r
  | .supervisorRelease id q r => supervisorRelease db id q r
  | .supervisorTransferToAgent id a t r => supervisorTransferToAgent db id a t r
  | .cancelWork id r => cancelWork db id r
  | .returnToAi r => returnToAi db r
  | .bindAiReturn k s => bindAiReturn db k s
  | .rejectAiReturn id => rejectAiReturn db id
  | .markAiReturnAmbiguous id => pure (markAiReturnAmbiguous db id)

/-- A transaction that fails leaves the database as it found it. -/
def step (db : Db) (a : Action) : Db :=
  match transaction db a with
  | .ok db' => db'
  | .error _ => db

end NexusAi.Humans
