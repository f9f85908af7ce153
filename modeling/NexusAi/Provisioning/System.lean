import NexusAi.Lib.Run

/-!
# Organization provisioning

A call claims its idempotency key, builds the organization and finalizes the
claim, each in a transaction of its own. A call that finds its key claimed is
answered from the claim, finalizes it, or takes it up again once it is stale. Any
number of calls run side by side and may stop between any two transactions.

Each transaction is one step. The unique indexes on the key and on the
organization key make two transactions that insert the same value wait for one
another. The hashes of the key and of the payload stand here for what they hash.
-/

namespace NexusAi.Provisioning

inductive ProvisioningRequestStatus
  | pending | completed | failed
  deriving DecidableEq

/-- The canonical payload: everything except the idempotency key. -/
structure Payload where
  (organizationKey displayName legalName countryCode timezone : String)
  locale : String
  ownerUserId : Option ℕ
  deriving DecidableEq

structure OnboardingRequest where
  idempotencyKey : String
  payload : Payload

inductive ProvisioningError
  | permissionDenied
  | ownerUnavailable
  | organizationConflict
  | keyConflict
  | inProgress
  | failed (originalErrorCode : String)
  | other

def ProvisioningError.code : ProvisioningError → String
  | permissionDenied => "NXS_CORE_PERMISSION_DENIED"
  | ownerUnavailable => "NXS_PROV_OWNER_UNAVAILABLE"
  | organizationConflict => "NXS_ORG_CONFLICT"
  | keyConflict => "NXS_PROV_IDEMPOTENCY_CONFLICT"
  | inProgress => "NXS_PROV_IN_PROGRESS"
  | failed _ => "NXS_PROV_FAILED"
  | other => "NXS_CORE_INTERNAL"

structure ProvisioningResult where
  organizationId : ℕ
  organizationKey : String
  provisioningStatus : ProvisioningRequestStatus
  dashboardRevision : ℕ

structure RequestRow where
  idempotencyKey : String
  requestFingerprint : Payload
  organizationId : Option ℕ
  organizationKey : String
  status : ProvisioningRequestStatus
  errorCode : Option String
  requestPayload : Payload
  (ownerUserId createdByUserId : ℕ)
  updatedAt : ℤ

/-- An organization with its owner. The last field is no column: it is the claim
whose baseline inserted the row. -/
structure OrganizationRow where
  organizationKey : String
  (ownerUserId createdFor : Option ℕ)

inductive Phase
  | checking
  | claiming
  | handling
  | baseline (requestId : ℕ) (payload : Payload) (ownerUserId : ℕ)
  | finalizing (requestId organizationId : ℕ) (organizationKey : String)
  | ended (answer : Except ProvisioningError ProvisioningResult)

structure Call where
  request : OnboardingRequest
  callerUserId : ℕ
  phase : Phase

def Call.ownerUserId (c : Call) : ℕ := c.request.payload.ownerUserId.getD c.callerUserId

structure World where
  requests : List RequestRow
  organizations : List OrganizationRow
  activeUsers : List ℕ
  ownerRole : Bool
  calls : List Call

/-- How a transaction ends for the call: it commits, or the call is lost with the
transaction rolled back or committed all the same. -/
inductive Reply
  | done
  | lost (committed : Bool)

def Reply.commits : Reply → Bool
  | done => true
  | lost committed => committed

inductive Action
  | provision (request : OnboardingRequest) (callerUserId : ℕ) (callerHasPlatformGrant : Bool)
  | advance (i : ℕ) (now : ℤ) (reply : Reply)
  | createCoreRecord (organizationKey : String)
  | setActiveUsers (users : List ℕ)
  | setOwnerRole (present : Bool)

def result (organizationId : ℕ) (organizationKey : String) : ProvisioningResult :=
  ⟨organizationId,organizationKey,.completed,1⟩

namespace RequestRow

def linkOrganization (now : ℤ) (organizationId : ℕ) (r : RequestRow) : RequestRow :=
  { r with organizationId := some organizationId, updatedAt := now }

def complete (now : ℤ) (organizationId : ℕ) (r : RequestRow) : RequestRow :=
  { r with status := .completed, organizationId := some organizationId, updatedAt := now }

def markFailed (now : ℤ) (errorCode : String) (r : RequestRow) : RequestRow :=
  { r with status := .failed, errorCode := some errorCode, updatedAt := now }

end RequestRow

def pendingRow (c : Call) (now : ℤ) : RequestRow :=
  ⟨c.request.idempotencyKey,c.request.payload,none,c.request.payload.organizationKey,.pending,none,
    c.request.payload,c.ownerUserId,c.callerUserId,now⟩

namespace World

def initial : World := ⟨[],[],[],true,[]⟩

def enter (w : World) (i : ℕ) (phase : Phase) : World :=
  { w with calls := w.calls.modify i fun c => { c with phase := phase } }

def byKeyHash (w : World) (key : String) : Option ℕ :=
  w.requests.findIdx? fun r => r.idempotencyKey = key

def keyTaken (w : World) (organizationKey : String) : Bool :=
  w.organizations.any fun o => o.organizationKey = organizationKey

def resumePending (staleSeconds : ℤ) (requestId : ℕ) (existing : RequestRow) (now : ℤ) : Phase :=
  match existing.organizationId with
  | some organizationId => .finalizing requestId organizationId existing.organizationKey
  | none =>
    if existing.updatedAt ≤ now-staleSeconds then
      if existing.requestPayload = existing.requestFingerprint then
        .baseline requestId existing.requestPayload existing.ownerUserId
      else .ended (.error (.failed "NXS_PROV_FAILED"))
    else .ended (.error .inProgress)

def handleExisting (staleSeconds : ℤ) (w : World) (c : Call) (now : ℤ) : Phase :=
  match w.byKeyHash c.request.idempotencyKey with
  | none => .ended (.error .inProgress)
  | some requestId =>
    match w.requests[requestId]? with
    | none => .ended (.error .inProgress)
    | some existing =>
      if existing.requestFingerprint ≠ c.request.payload then .ended (.error .keyConflict)
      else
        match existing.status, existing.organizationId with
        | .completed, some organizationId =>
          .ended (.ok (result organizationId existing.organizationKey))
        | .failed, _ =>
          .ended (.error (.failed (existing.errorCode.getD "NXS_PROV_FAILED")))
        | _, _ => resumePending staleSeconds requestId existing now

/-- The tables after a baseline, and how the call goes on. The organization, its
link and its owner stand or fall together. A failure that is the business's own is
written to the claim in the same transaction. -/
def executeBaseline (w : World) (requestId : ℕ) (payload : Payload) (ownerUserId : ℕ) (now : ℤ) :
    World × Phase :=
  if w.keyTaken payload.organizationKey then
    ({ w with
      requests := w.requests.modify requestId
        (RequestRow.markFailed now ProvisioningError.organizationConflict.code) },
      .ended (.error .organizationConflict))
  else if w.ownerRole = false then
    ({ w with
      requests := w.requests.modify requestId
        (RequestRow.markFailed now ProvisioningError.ownerUnavailable.code) },
      .ended (.error .ownerUnavailable))
  else
    ({ w with
      organizations :=
        w.organizations++[⟨payload.organizationKey,some ownerUserId,some requestId⟩]
      requests := w.requests.modify requestId
        (RequestRow.linkOrganization now w.organizations.length) },
      .finalizing requestId w.organizations.length payload.organizationKey)

/-- The transaction that a call is at: the tables if it commits, and how the call
goes on. -/
def transaction (staleSeconds : ℤ) (w : World) (c : Call) (now : ℤ) : World × Phase :=
  match c.phase with
  | .checking =>
    (w,if c.ownerUserId ∈ w.activeUsers then .claiming else .ended (.error .ownerUnavailable))
  | .claiming =>
    if (w.byKeyHash c.request.idempotencyKey).isSome then (w,.handling)
    else ({ w with requests := w.requests++[pendingRow c now] },
      .baseline w.requests.length c.request.payload c.ownerUserId)
  | .handling => (w,handleExisting staleSeconds w c now)
  | .baseline requestId payload ownerUserId =>
    w.executeBaseline requestId payload ownerUserId now
  | .finalizing requestId organizationId organizationKey =>
    ({ w with requests := w.requests.modify requestId (RequestRow.complete now organizationId) },
      .ended (.ok (result organizationId organizationKey)))
  | .ended answer => (w,.ended answer)

def advanceStep (staleSeconds : ℤ) (w : World) (i : ℕ) (now : ℤ) (reply : Reply) : World :=
  match w.calls[i]? with
  | none => w
  | some c =>
    match c.phase, reply with
    | .ended _, _ => w
    | _, .done =>
      let (committed,phase) := w.transaction staleSeconds c now
      committed.enter i phase
    | _, .lost true => (w.transaction staleSeconds c now).1.enter i (.ended (.error .other))
    | _, .lost false => w.enter i (.ended (.error .other))

def provisionStep (w : World) (request : OnboardingRequest) (callerUserId : ℕ) (grant : Bool) :
    World :=
  let phase : Phase := if grant then .checking else .ended (.error .permissionDenied)
  { w with calls := w.calls++[⟨request,callerUserId,phase⟩] }

def createCoreRecordStep (w : World) (organizationKey : String) : World :=
  if w.keyTaken organizationKey then w
  else { w with organizations := w.organizations++[⟨organizationKey,none,none⟩] }

def step (staleSeconds : ℤ) (w : World) : Action → World
  | .provision request callerUserId grant => w.provisionStep request callerUserId grant
  | .advance i now reply => w.advanceStep staleSeconds i now reply
  | .createCoreRecord organizationKey => w.createCoreRecordStep organizationKey
  | .setActiveUsers users => { w with activeUsers := users }
  | .setOwnerRole present => { w with ownerRole := present }

end World

end NexusAi.Provisioning
