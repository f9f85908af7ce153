import NexusAi.Lib.Checked

/-!
# The compliance service

The rows of the compliance tables and the bodies of the service's transactions, as
functions of the committed tables. Each one runs with the organization's control row
locked. The database clock is read several times; reading `0` is the one that the
principal is checked with. A fingerprint stands for what it is taken of.

Policies, holds, requests, plans and profiles are named by their place. Approvals and
executions are named by their plan, which is unique for both.
-/

namespace NexusAi.Compliance
open NexusAi.Checked

inductive ComplianceError
  | fenced (detail : String)
  | notFound (detail : String)
  | permissionDenied (detail : String)
  | versionConflict (detail : String)
  /-- The database refuses the write. -/
  | rejected (detail : String)
  /-- The answer of the commit is lost. -/
  | lost

inductive ResourceClass
  | customerProfile
  | customerIdentities
  | conversations
  | messaging
  | telephony
  | agentRuntime
  | workflows
  | campaigns
  | humanOperations
  | events
  | credentials
  deriving DecidableEq

inductive Action
  | retain | access | anonymize | restrict | delete
  deriving DecidableEq

inductive AdapterStatus
  | supported | deferred | notApplicable
  deriving DecidableEq

def adapterStatus (resource : ResourceClass) : AdapterStatus :=
  if resource = .customerProfile then .supported
  else if resource = .credentials then .notApplicable
  else .deferred

def resourceClasses : List ResourceClass :=
  [.customerProfile,.customerIdentities,.conversations,.messaging,.telephony,.agentRuntime,
    .workflows,.campaigns,.humanOperations,.events,.credentials]

inductive RequestKind
  | access | erasure | restriction
  deriving DecidableEq

inductive RequestState
  | received | verified | planned | approved | executing | completed | incomplete | denied
  | cancelled | expired
  deriving DecidableEq

def RequestState.terminal : RequestState → Bool
  | .completed => true
  | .incomplete => true
  | .denied => true
  | .cancelled => true
  | .expired => true
  | _ => false

def supportedAction (resourceClass : ResourceClass) (action : Action) : Bool :=
  action = .retain ∨ action = .anonymize ∧ resourceClass = .customerProfile

structure RetentionRule where
  resourceClass : ResourceClass
  days : ℕ
  action : Action
  bounded : 1 ≤ days ∧ days ≤ 36500
  supported : supportedAction resourceClass action

structure PolicyInput where
  rules : List RetentionRule
  bounded : 1 ≤ rules.length ∧ rules.length ≤ 16
  uniqueRules : (rules.map RetentionRule.resourceClass).Nodup

structure SubjectRequestInput where
  subjectId : ℕ
  kind : RequestKind
  idempotencyKey : String
  deriving DecidableEq

structure ApprovalInput where
  lifetimeSeconds : ℕ
  bounded : 1 ≤ lifetimeSeconds ∧ lifetimeSeconds ≤ 3600

structure ClaimInput where
  (ownerId leaseSeconds : ℕ)
  bounded : 1 ≤ leaseSeconds ∧ leaseSeconds ≤ 300

structure ExecutionFence where
  (ownerId generation : ℕ)
  positive : 1 ≤ generation

/-- Microseconds. -/
def seconds (n : ℕ) : ℕ := n*1000000

def days (n : ℕ) : ℕ := seconds (n*86400)

def retentionDue (createdAt now : ℕ) (rule : RetentionRule) : Action :=
  if now ≥ createdAt+days rule.days then rule.action else .retain

def Action.destructive (action : Action) : Bool :=
  action = .delete ∨ action = .anonymize ∨ action = .restrict

def requestAction : RequestKind → Action
  | .access => .access
  | .erasure => .anonymize
  | .restriction => .restrict

def incompleteResources : List ResourceClass :=
  resourceClasses.filter fun resource => adapterStatus resource = .deferred

def allowed : RequestState → List RequestState
  | .received => [.verified,.denied,.cancelled,.expired]
  | .verified => [.planned,.denied,.cancelled,.expired]
  | .planned => [.approved,.denied,.cancelled,.expired]
  | .approved => [.executing,.denied,.cancelled,.expired]
  | .executing => [.completed,.incomplete]
  | _ => []

def requireTransition (current target : RequestState) : Except ComplianceError Unit :=
  require (target ∈ allowed current) (.fenced "invalid subject request transition")

inductive ProfileStatus
  | active | suspended

/-- A row of the customers. -/
structure Profile where
  displayName : String
  status : ProfileStatus
  preferredLocale : Option String
  (version createdAt : ℕ)

inductive Result
  | none
  | exported (customerId : ℕ) (displayName : String) (preferredLocale : Option String)
      (profileStatus : ProfileStatus) (version : ℕ)
  | profileAnonymized (wholeSubjectErased : Bool)
  | profileSuspended (campaignSendRestricted : Bool)

inductive PolicyState
  | draft | active | retired
  deriving DecidableEq

structure Policy where
  revision : ℕ
  state : PolicyState
  rules : List RetentionRule

inductive HoldState
  | active | released
  deriving DecidableEq

structure Hold where
  subjectId : ℕ
  resourceClass : Option ResourceClass
  state : HoldState

/-- A hold on the profile of the subject. -/
def Hold.covers (h : Hold) (subject : ℕ) : Bool :=
  h.subjectId = subject ∧ h.state = .active ∧
    (h.resourceClass = none ∨ h.resourceClass = some .customerProfile)

structure Request where
  subjectId : ℕ
  kind : RequestKind
  state : RequestState
  idempotencyKey : String
  semanticDigest : SubjectRequestInput
  verifiedBy : Option ℕ
  incompleteResources : List ResourceClass
  result : Result

inductive OperationIdentity
  | request (id : ℕ)
  | retention (idempotencyKey : String)
  deriving DecidableEq

structure PlanSemantics where
  requestId : Option ℕ
  (subjectId policyId policyRevision policyEpoch holdEpoch : ℕ)
  targetVersion : ℕ
  resourceClass : ResourceClass
  action : Action
  operationIdentity : OperationIdentity
  deriving DecidableEq

structure Plan extends PlanSemantics where
  fingerprint : PlanSemantics

def planSemantics (plan : Plan) : PlanSemantics := plan.toPlanSemantics

structure Approval where
  fingerprint : PlanSemantics
  (approvedBy issuedAt expiresAt : ℕ)

inductive ExecutionState
  | claimed | completed | failed | ambiguous
  deriving DecidableEq

structure Execution where
  (ownerId generation : ℕ)
  state : ExecutionState
  leaseExpiresAt : ℕ
  result : Result
  completedAt : Option ℕ

structure Tables where
  (policyEpoch holdEpoch : ℕ)
  policies : List Policy
  holds : List Hold
  requests : List Request
  plans : List Plan
  approvals : ℕ → Option Approval
  executions : ℕ → Option Execution

structure Effect where
  planId : ℕ
  fence : ExecutionFence
  subjectId : ℕ
  (before after : Profile)
  (approvedAt leasedAt : ℕ)

inductive Answer
  | policy (id revision : ℕ) (state : PolicyState)
  | hold (id : ℕ) (state : HoldState)
  | request (id : ℕ) (row : Request)
  | plan (id : ℕ) (fingerprint : PlanSemantics) (action : Action)
  | planned (id : ℕ) (action : Action)
  | retained (policyId policyRevision : ℕ)
  | approval (fingerprint : PlanSemantics)
  | execution (row : Execution)
  | nothing

structure Outcome where
  tables : Tables
  effect : Option Effect
  answer : Answer

namespace Tables

def initial : Tables := ⟨0,0,[],[],[],[],fun _ => none,fun _ => none⟩

variable (t : Tables)

def activeId : Option ℕ := t.policies.findIdx? fun p => p.state = .active

def active : Except ComplianceError (ℕ × Policy) := do
  let id ← present t.activeId (.fenced "no active compliance policy")
  let row ← present t.policies[id]? (.fenced "no active compliance policy")
  pure (id,row)

def request (id : ℕ) : Except ComplianceError Request :=
  present t.requests[id]? (.notFound "subject request not found")

def plan (id : ℕ) : Except ComplianceError Plan :=
  present t.plans[id]? (.notFound "compliance plan not found")

def setRequest (id : ℕ) (row : Request) : Tables := { t with requests := t.requests.set id row }

end Tables

def lockedTarget (profiles : List Profile) (id : ℕ) : Except ComplianceError Profile :=
  present profiles[id]? (.notFound "customer profile not found in this Organization")

section Policies

variable (t : Tables)

def createPolicy (payload : PolicyInput) : Except ComplianceError Outcome :=
  let revision := (t.policies.map Policy.revision).foldr max 0+1
  .ok ⟨{ t with policies := t.policies++[⟨revision,.draft,payload.rules⟩] },none,
    .policy t.policies.length revision .draft⟩

def activatePolicy (id : ℕ) : Except ComplianceError Outcome := do
  let row ← present t.policies[id]? (.notFound "policy not found")
  require (row.state = .draft) (.fenced "only draft policy may activate")
  let policies := match t.activeId with
    | none => t.policies
    | some previous => t.policies.modify previous fun p => { p with state := .retired }
  pure ⟨{ t with
      policies := policies.set id { row with state := .active }
      policyEpoch := t.policyEpoch+1 },none,.policy id row.revision .active⟩

def retirePolicy (id : ℕ) : Except ComplianceError Outcome := do
  let row ← present t.policies[id]? (.notFound "policy not found")
  require (row.state = .active) (.fenced "only active policy may retire")
  pure ⟨{ t with
      policies := t.policies.set id { row with state := .retired }
      policyEpoch := t.policyEpoch+1 },none,.nothing⟩

end Policies

section Holds

variable (t : Tables)

def createHold (profiles : List Profile) (subjectId : ℕ) (resourceClass : Option ResourceClass) :
    Except ComplianceError Outcome := do
  let _ ← lockedTarget profiles subjectId
  pure ⟨{ t with
      holds := t.holds++[⟨subjectId,resourceClass,.active⟩]
      holdEpoch := t.holdEpoch+1 },none,.hold t.holds.length .active⟩

def releaseHold (id : ℕ) : Except ComplianceError Outcome := do
  let row ← present t.holds[id]? (.notFound "hold not found")
  require (row.state = .active) (.fenced "hold already released")
  pure ⟨{ t with
      holds := t.holds.set id { row with state := .released }
      holdEpoch := t.holdEpoch+1 },none,.nothing⟩

def checkHolds (subject : ℕ) (action : Action) : Except ComplianceError Unit :=
  require (action.destructive = false ∨ (t.holds.any fun h => h.covers subject) = false)
    (.fenced "active legal hold blocks destructive action")

end Holds

section Requests

variable (t : Tables)

def createRequest (profiles : List Profile) (payload : SubjectRequestInput) :
    Except ComplianceError Outcome :=
  match t.requests.findIdx? fun r => r.idempotencyKey = payload.idempotencyKey with
  | some id => do
    let row ← t.request id
    require (row.semanticDigest = payload)
      (.fenced "idempotency identity already binds different semantics")
    pure ⟨t,none,.request id row⟩
  | none => do
    let _ ← lockedTarget profiles payload.subjectId
    let row : Request := ⟨payload.subjectId,payload.kind,.received,payload.idempotencyKey,payload,
      none,incompleteResources,.none⟩
    pure ⟨{ t with requests := t.requests++[row] },none,.request t.requests.length row⟩

def verifyRequest (userId id : ℕ) : Except ComplianceError Outcome := do
  let row ← t.request id
  requireTransition row.state .verified
  let row := { row with state := .verified, verifiedBy := some userId }
  pure ⟨t.setRequest id row,none,.request id row⟩

def endRequest (id : ℕ) (target : RequestState) : Except ComplianceError Outcome := do
  require (target = .denied ∨ target = .cancelled ∨ target = .expired)
    (.fenced "unsupported terminal decision")
  let row ← t.request id
  requireTransition row.state target
  let row := { row with state := target }
  pure ⟨t.setRequest id row,none,.request id row⟩

end Requests

section Plans

variable (t : Tables) (profiles : List Profile)

def newPlan (subject : ℕ) (action : Action) (operation : OperationIdentity)
    (requestId : Option ℕ) : Except ComplianceError Plan := do
  let (policyId,policy) ← t.active
  require ((policy.rules.any fun rule => rule.resourceClass = .customerProfile))
    (.fenced "policy does not cover customer profile")
  checkHolds t subject action
  let target ← lockedTarget profiles subject
  let semantics : PlanSemantics := ⟨requestId,subject,policyId,policy.revision,t.policyEpoch,
    t.holdEpoch,target.version,.customerProfile,action,operation⟩
  pure ⟨semantics,semantics⟩

def planRequest (id : ℕ) : Except ComplianceError Outcome := do
  let request ← t.request id
  requireTransition request.state .planned
  let plan ← newPlan t profiles request.subjectId (requestAction request.kind) (.request id)
    (some id)
  pure ⟨{ t.setRequest id { request with state := .planned } with plans := t.plans++[plan] },none,
    .plan t.plans.length plan.fingerprint plan.action⟩

def evaluateRetention (clock : ℕ → ℕ) (subjectId : ℕ) (resourceClass : ResourceClass)
    (idempotencyKey : String) : Except ComplianceError Outcome := do
  require (resourceClass = .customerProfile) (.fenced "unsupported retention adapter")
  let operation := OperationIdentity.retention idempotencyKey
  match t.plans.findIdx? fun p => p.operationIdentity = operation with
  | some id =>
    let existing ← t.plan id
    require (existing.subjectId = subjectId) (.fenced "retention idempotency conflict")
    pure ⟨t,none,.planned id existing.action⟩
  | none =>
    let (policyId,policy) ← t.active
    let rule ← present (policy.rules.find? fun rule => rule.resourceClass = resourceClass)
      (.fenced "resource not governed by policy")
    let target ← lockedTarget profiles subjectId
    let action := retentionDue target.createdAt (clock 1) rule
    if action = .retain then pure ⟨t,none,.retained policyId policy.revision⟩
    else
      let plan ← newPlan t profiles subjectId action operation none
      pure ⟨{ t with plans := t.plans++[plan] },none,
        .plan t.plans.length plan.fingerprint plan.action⟩

def checkRequest (plan : Plan) : Except ComplianceError Unit :=
  match plan.requestId with
  | none => .ok ()
  | some id => do
    let request ← t.request id
    require ((request.state = .planned ∨ request.state = .approved ∨ request.state = .executing) ∧
      request.verifiedBy.isSome) (.fenced "request is not authorized for execution")

def revalidate (plan : Plan) : Except ComplianceError Unit := do
  let (policyId,policy) ← t.active
  require (plan.policyId = policyId ∧ plan.policyRevision = policy.revision ∧
      plan.policyEpoch = t.policyEpoch ∧ plan.holdEpoch = t.holdEpoch ∧
      plan.fingerprint = planSemantics plan) (.fenced "policy, hold or fingerprint changed")
  checkRequest t plan
  checkHolds t plan.subjectId plan.action
  let target ← lockedTarget profiles plan.subjectId
  require (target.version = plan.targetVersion) (.fenced "target version changed")

/-- The request of a plan, if it has one, goes on to its next state. -/
def moveRequest (plan : Plan) (target : RequestState) : Except ComplianceError Tables :=
  match plan.requestId with
  | none => .ok t
  | some id => do
    let request ← t.request id
    requireTransition request.state target
    pure (t.setRequest id { request with state := target })

def approve (clock : ℕ → ℕ) (userId id : ℕ) (payload : ApprovalInput) :
    Except ComplianceError Outcome := do
  let plan ← t.plan id
  revalidate t profiles plan
  require (t.approvals id = none) (.fenced "plan already has immutable approval")
  let now := clock 1
  let approval : Approval := ⟨plan.fingerprint,userId,now,now+seconds payload.lifetimeSeconds⟩
  let moved ← moveRequest t plan .approved
  pure ⟨{ moved with approvals := Function.update t.approvals id (some approval) },none,
    .approval approval.fingerprint⟩

def checkApproval (now id : ℕ) (plan : Plan) : Except ComplianceError Unit :=
  require ((t.approvals id).any (fun a => a.fingerprint = plan.fingerprint ∧
    now < a.expiresAt)) (.fenced "missing, stale or expired approval")

def claim (clock : ℕ → ℕ) (id : ℕ) (payload : ClaimInput) : Except ComplianceError Outcome := do
  let plan ← t.plan id
  match t.executions id with
  | none =>
    revalidate t profiles plan
    checkApproval t (clock 1) id plan
    let execution : Execution := ⟨payload.ownerId,1,.claimed,clock 2+seconds payload.leaseSeconds,
      .none,none⟩
    let moved ← moveRequest t plan .executing
    pure ⟨{ moved with executions := Function.update t.executions id (some execution) },none,
      .execution execution⟩
  | some old =>
    if old.state ≠ .claimed then pure ⟨t,none,.execution old⟩
    else
      revalidate t profiles plan
      checkApproval t (clock 1) id plan
      require (old.leaseExpiresAt ≤ clock 2 ∧ old.ownerId ≠ payload.ownerId)
        (.fenced "execution owned or recovery requires new owner")
      let execution := { old with
        ownerId := payload.ownerId
        generation := old.generation+1
        leaseExpiresAt := clock 2+seconds payload.leaseSeconds }
      -- the row's trigger reads the clock once more
      require (clock 3 < execution.leaseExpiresAt) (.rejected "invalid execution takeover")
      pure ⟨{ t with executions := Function.update t.executions id (some execution) },none,
        .execution execution⟩

def applied (action : Action) (id : ℕ) (target : Profile) (expectedVersion : ℕ) :
    Except ComplianceError (Profile × Result) :=
  match action with
  | .access => .ok (target,.exported id target.displayName target.preferredLocale target.status
      target.version)
  | .anonymize => do
    require (target.version = expectedVersion) (.versionConflict "customer profile version changed")
    pure ({ target with
      displayName := "Anonymized profile"
      preferredLocale := none
      version := target.version+1 },.profileAnonymized false)
  | .restrict => do
    require (target.version = expectedVersion) (.versionConflict "customer profile version changed")
    pure ({ target with status := .suspended, version := target.version+1 },.profileSuspended false)
  | _ => .error (.fenced "unregistered action")

def finishRequest (plan : Plan) (result : Result) : Except ComplianceError Tables :=
  match plan.requestId with
  | none => .ok t
  | some id => do
    let request ← t.request id
    pure (t.setRequest id { request with
      result := result
      state := if request.incompleteResources = [] then .completed else .incomplete })

def execute (clock : ℕ → ℕ) (id : ℕ) (fence : ExecutionFence) :
    Except ComplianceError Outcome := do
  let plan ← t.plan id
  let execution ← present (t.executions id) (.fenced "execution owner/generation mismatch")
  require (execution.ownerId = fence.ownerId ∧ execution.generation = fence.generation)
    (.fenced "execution owner/generation mismatch")
  if execution.state ≠ .claimed then pure ⟨t,none,.execution execution⟩
  else
    require (clock 1 < execution.leaseExpiresAt) (.fenced "execution lease expired")
    revalidate t profiles plan
    checkApproval t (clock 2) id plan
    let target ← lockedTarget profiles plan.subjectId
    require (clock 3 < execution.leaseExpiresAt) (.fenced "execution lease expired before effect")
    let (after,result) ← applied plan.action plan.subjectId target plan.targetVersion
    let execution' := { execution with
      state := .completed, result := result, completedAt := some (clock 4) }
    let finished ← finishRequest t plan result
    -- the row's trigger reads the clock once more
    require (clock 5 < execution.leaseExpiresAt) (.rejected "stale execution owner")
    pure ⟨{ finished with executions := Function.update t.executions id (some execution') },
      some ⟨id,fence,plan.subjectId,target,after,clock 2,clock 3⟩,.execution execution'⟩

end Plans

inductive Operation
  | createPolicy (payload : PolicyInput)
  | activatePolicy (id : ℕ)
  | retirePolicy (id : ℕ)
  | createHold (subjectId : ℕ) (resourceClass : Option ResourceClass)
  | releaseHold (id : ℕ)
  | createRequest (payload : SubjectRequestInput)
  | verifyRequest (id : ℕ)
  | endRequest (id : ℕ) (target : RequestState)
  | planRequest (id : ℕ)
  | evaluateRetention (subjectId : ℕ) (resourceClass : ResourceClass) (idempotencyKey : String)
  | approve (id : ℕ) (payload : ApprovalInput)
  | claim (id : ℕ) (payload : ClaimInput)
  | execute (id : ℕ) (fence : ExecutionFence)

structure Principal where
  (userId expiresAt : ℕ)

def Operation.body (t : Tables) (profiles : List Profile) (clock : ℕ → ℕ) (userId : ℕ) :
    Operation → Except ComplianceError Outcome
  | .createPolicy payload => Compliance.createPolicy t payload
  | .activatePolicy id => Compliance.activatePolicy t id
  | .retirePolicy id => Compliance.retirePolicy t id
  | .createHold subjectId resourceClass => Compliance.createHold t profiles subjectId resourceClass
  | .releaseHold id => Compliance.releaseHold t id
  | .createRequest payload => Compliance.createRequest t profiles payload
  | .verifyRequest id => Compliance.verifyRequest t userId id
  | .endRequest id target => Compliance.endRequest t id target
  | .planRequest id => Compliance.planRequest t profiles id
  | .evaluateRetention subjectId resourceClass key =>
    Compliance.evaluateRetention t profiles clock subjectId resourceClass key
  | .approve id payload => Compliance.approve t profiles clock userId id payload
  | .claim id payload => Compliance.claim t profiles clock id payload
  | .execute id fence => Compliance.execute t profiles clock id fence

/-- A transaction of the service, from the check of its principal on. -/
def transaction (t : Tables) (profiles : List Profile) (clock : ℕ → ℕ) (principal : Principal)
    (operation : Operation) : Except ComplianceError Outcome := do
  require (clock 0 < principal.expiresAt) (.permissionDenied "expired compliance principal")
  operation.body t profiles clock principal.userId

end NexusAi.Compliance
