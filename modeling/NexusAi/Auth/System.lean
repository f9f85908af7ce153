import NexusAi.Lib.Checked
import NexusAi.Lib.Table
import NexusAi.Lib.Run

/-!
# Sign-in, refresh and logout side by side

The calls take turns, one statement at a time; a statement that writes stands with its
commit. Other services change users, memberships and Organizations at any time. The
catalog of roles is fixed. A refresh token is an opaque secret under the id of its
Organization, and only hashes are stored. The session id and the secret that a call draws
are its own number.
-/

namespace NexusAi.Auth

inductive UserStatus where
  | active | suspended
  deriving DecidableEq

inductive MembershipStatus where
  | active | suspended | revoked
  deriving DecidableEq

inductive RoleAssignmentStatus where
  | active | suspended
  deriving DecidableEq

inductive OrganizationStatus where
  | provisioning | active | suspended | archived
  deriving DecidableEq

def isOperational (status : OrganizationStatus) : Bool := status = .active

inductive PermissionKey where
  | organizationRead | organizationWrite | membershipManage | roleAssign | sessionRead
  deriving DecidableEq

def PermissionKey.value : PermissionKey → String
  | .organizationRead => "organization:read"
  | .organizationWrite => "organization:write"
  | .membershipManage => "membership:manage"
  | .roleAssign => "role:assign"
  | .sessionRead => "auth:session:read"

inductive RoleKey where
  | orgOwner | orgAdmin | orgMember
  deriving DecidableEq

def RoleKey.value : RoleKey → String
  | .orgOwner => "org_owner"
  | .orgAdmin => "org_admin"
  | .orgMember => "org_member"

def rolePermissions : RoleKey → List PermissionKey
  | .orgOwner => [.organizationRead,.organizationWrite,.membershipManage,.roleAssign,.sessionRead]
  | .orgAdmin => [.organizationRead,.organizationWrite,.membershipManage,.sessionRead]
  | .orgMember => [.organizationRead,.sessionRead]

def roleByKey (key : String) : Option RoleKey :=
  [RoleKey.orgOwner,.orgAdmin,.orgMember].find? fun role => role.value = key

structure Membership where
  (id organizationId userId : ℕ)
  status : MembershipStatus

def Membership.isActive (m : Membership) : Bool := m.status = .active

def forUserInOrganization (userId organizationId : ℕ) (rows : List Membership) :
    Option Membership :=
  rows.find? fun m => m.userId = userId ∧ m.organizationId = organizationId

def activeIn (userId organizationId : ℕ) (rows : List Membership) : Bool :=
  (forUserInOrganization userId organizationId rows).any Membership.isActive

structure RoleAssignment where
  (id organizationId userId : ℕ)
  role : RoleKey
  status : RoleAssignmentStatus

structure User where
  id : ℕ
  email : String
  status : UserStatus
  deriving DecidableEq

structure Credential where
  (userId version : ℕ)
  passwordHash : String

structure Organization where
  id : ℕ
  status : OrganizationStatus

structure RefreshToken where
  (organizationId secret : ℕ)
  deriving DecidableEq

structure RefreshSession (D : Type) where
  (id organizationId userId : ℕ)
  tokenHash : D
  previousTokenHash : Option D
  generation : ℕ
  expiresAt : ℤ
  revokedAt : Option ℤ
  deriving DecidableEq

structure Service (D : Type) where
  hashRefreshToken : RefreshToken ↪ D
  verify : String → String → Bool
  refreshTokenTtlSeconds : ℕ
  ttl_bounds : 3600 ≤ refreshTokenTtlSeconds ∧ refreshTokenTtlSeconds ≤ 2592000

inductive AuthError where
  | authenticationFailed (detail : String)
  | membershipRequired (detail : String)
  | membershipInactive (detail : String)
  | multipleOrganizations (detail : String) (organizations : List (ℕ × MembershipStatus))
  | organizationInactive (detail : String) (status : OrganizationStatus)
  | organizationNotFound (detail : String)
  | sessionRevoked (detail : String)
  | userInactive (detail : String)
  deriving DecidableEq

structure LoginRequest where
  (email password : String)
  organizationId : Option ℕ
  deriving DecidableEq

/-- A token that does not parse is `none`. -/
inductive Request where
  | login (request : LoginRequest)
  | refresh (raw : Option RefreshToken)
  | logout (raw : Option RefreshToken)

inductive Outcome where
  | issued (userId organizationId sessionId : ℕ) (token : RefreshToken)
  | failed (error : AuthError)
  | left
  | aborted
  deriving DecidableEq

inductive Phase (D : Type) where
  | authenticating (request : LoginRequest)
  | verifying (user : User) (request : LoginRequest)
  | selecting (userId : ℕ) (requested : Option ℕ)
  | establishing (userId organizationId : ℕ)
  | probing (userId organizationId : ℕ) (now : ℤ)
  | joining (userId organizationId : ℕ) (now : ℤ)
  | inserting (userId organizationId : ℕ) (now : ℤ)
  | looking (token : RefreshToken) (now : ℤ)
  | tracing (token : RefreshToken)
  | vetting (token : RefreshToken) (now : ℤ) (row : RefreshSession D)
  | admitting (token : RefreshToken) (now : ℤ) (row : RefreshSession D)
  | rotating (token : RefreshToken) (now : ℤ) (row : RefreshSession D)
  | condemning (sessionId : ℕ)
  | leaving (token : RefreshToken)
  | leavingOld (token : RefreshToken)
  | quitting (sessionId : ℕ)
  | closed (outcome : Outcome)
  deriving DecidableEq

structure Call (D : Type) where
  request : Request
  phase : Phase D

structure Identities where
  users : List User
  credentials : List Credential
  memberships : List Membership
  organizations : List Organization
  users_keyed : Table.Keyed User.id users

namespace Identities

def byEmail (ids : Identities) (email : String) : Option User :=
  ids.users.find? fun u => u.email = email

def byId (ids : Identities) (id : ℕ) : Option User := ids.users.find? fun u => u.id = id

def activeUser (ids : Identities) (id : ℕ) : Bool :=
  (ids.byId id).any fun u => u.status = .active

def getLatest (ids : Identities) (userId : ℕ) : Option Credential :=
  (ids.credentials.filter fun c => c.userId = userId).argmax Credential.version

def forUser (ids : Identities) (userId : ℕ) : List Membership :=
  ids.memberships.filter fun m => m.userId = userId

def currentStatus (ids : Identities) (organizationId : ℕ) : Option OrganizationStatus :=
  (ids.organizations.find? fun o => o.id = organizationId).map Organization.status

def operational (ids : Identities) (organizationId : ℕ) : Bool :=
  (ids.currentStatus organizationId).any isOperational

end Identities

structure World (D : Type) where
  sessions : List (RefreshSession D)
  identities : Identities
  clock : ℤ
  calls : List (Call D)

inductive Action where
  | login (request : LoginRequest)
  | refresh (raw : Option RefreshToken)
  | logout (raw : Option RefreshToken)
  | advance (call : ℕ)
  | abort (call : ℕ)
  | tick (seconds : ℕ)
  | administer (identities : Identities)

def refreshFailed : Outcome :=
  .failed (.authenticationFailed "The session could not be refreshed.")

def loginFailed : Outcome := .failed (.authenticationFailed "Invalid email or password.")

def noOrganization : AuthError :=
  .organizationNotFound "No Organization is visible in this tenant scope."

def selectOrganization (memberships : List Membership) (requested : Option ℕ) :
    Except AuthError ℕ :=
  match memberships, requested with
  | [], _ => .error (.membershipRequired "The user has no active Organization membership.")
  | ms, some requested =>
    if ms.all fun m => m.organizationId ≠ requested then
      .error (.authenticationFailed "Invalid email or password.")
    else .ok requested
  | [m], none => .ok m.organizationId
  | ms, none => .error (.multipleOrganizations
      "The user belongs to several Organizations; select one explicitly."
      (ms.map fun m => (m.organizationId,m.status)))

namespace World

variable {D : Type}

def initial (identities : Identities) (clock : ℤ) : World D := ⟨[],identities,clock,[]⟩

def phase (w : World D) (i : ℕ) : Option (Phase D) := (w.calls[i]?).map Call.phase

def enter (w : World D) (i : ℕ) (phase : Phase D) : World D :=
  { w with calls := w.calls.modify i fun c => { c with phase := phase } }

def admitCall (w : World D) (request : Request) (phase : Phase D) : World D :=
  { w with calls := w.calls++[⟨request,phase⟩] }

def authenticatePhase (ids : Identities) (request : LoginRequest) : Phase D :=
  match ids.byEmail request.email with
  | none => .closed loginFailed
  | some user => .verifying user request

def verifyPhase (service : Service D) (ids : Identities) (user : User) (request : LoginRequest) :
    Phase D :=
  let verified := (ids.getLatest user.id).any fun c =>
    service.verify c.passwordHash request.password
  if !verified || user.status ≠ .active then .closed loginFailed
  else .selecting user.id request.organizationId

def selectPhase (ids : Identities) (userId : ℕ) (requested : Option ℕ) : Phase D :=
  match selectOrganization ((ids.forUser userId).filter Membership.isActive) requested with
  | .error error => .closed (.failed error)
  | .ok organizationId => .establishing userId organizationId

def probePhase (ids : Identities) (userId organizationId : ℕ) (now : ℤ) : Phase D :=
  match ids.currentStatus organizationId with
  | none => .closed (.failed noOrganization)
  | some status => if isOperational status then .joining userId organizationId now
      else .closed (.failed
        (.organizationInactive "The Organization is not accepting sign-ins." status))

def joinPhase (ids : Identities) (userId organizationId : ℕ) (now : ℤ) : Phase D :=
  if activeIn userId organizationId ids.memberships then .inserting userId organizationId now
  else .closed (.failed
    (.membershipInactive "The user's membership in this Organization is not active."))

def vetPhase (ids : Identities) (token : RefreshToken) (now : ℤ) (row : RefreshSession D) :
    Phase D :=
  if ids.activeUser row.userId then .admitting token now row else .condemning row.id

def admitPhase (ids : Identities) (token : RefreshToken) (now : ℤ) (row : RefreshSession D) :
    Phase D :=
  if activeIn row.userId token.organizationId ids.memberships then .rotating token now row
  else .closed refreshFailed

def store (w : World D) (sessions : List (RefreshSession D)) : World D :=
  { w with sessions := sessions }

def revoke (sessionId : ℕ) (now : ℤ) (s : RefreshSession D) : RefreshSession D :=
  if s.id = sessionId ∧ s.revokedAt = none then { s with revokedAt := some now } else s

def revokeStep (w : World D) (i sessionId : ℕ) (outcome : Outcome) : World D :=
  (w.store (w.sessions.map (revoke sessionId w.clock))).enter i (.closed outcome)

def opened (service : Service D) (i userId organizationId : ℕ) (now : ℤ) : RefreshSession D where
  id := i
  organizationId := organizationId
  userId := userId
  tokenHash := service.hashRefreshToken ⟨organizationId,i⟩
  previousTokenHash := none
  generation := 1
  expiresAt := now+service.refreshTokenTtlSeconds
  revokedAt := none

def insertStep (service : Service D) (w : World D) (i userId organizationId : ℕ) (now : ℤ) :
    World D :=
  (w.store (w.sessions++[opened service i userId organizationId now])).enter i
    (.closed (.issued userId organizationId i ⟨organizationId,i⟩))

section

variable [DecidableEq D] (service : Service D) (w : World D)

def byTokenHash (token : RefreshToken) : Option (RefreshSession D) :=
  w.sessions.find? fun s => s.organizationId = token.organizationId ∧
    s.tokenHash = service.hashRefreshToken token

def byPreviousTokenHash (token : RefreshToken) : Option (RefreshSession D) :=
  w.sessions.find? fun s => s.organizationId = token.organizationId ∧
    s.previousTokenHash = some (service.hashRefreshToken token)

def lookPhase (token : RefreshToken) (now : ℤ) : Phase D :=
  match w.byTokenHash service token with
  | none => .tracing token
  | some row => if row.revokedAt.isSome ∨ row.expiresAt ≤ now then .closed refreshFailed
      else .vetting token now row

def tracePhase (token : RefreshToken) : Phase D :=
  match w.byPreviousTokenHash service token with
  | none => .closed refreshFailed
  | some row => .condemning row.id

def quitPhase (row : RefreshSession D) : Phase D :=
  if row.revokedAt.isNone then .quitting row.id else .closed .left

def leavePhase (token : RefreshToken) : Phase D :=
  match w.byTokenHash service token with
  | none => .leavingOld token
  | some row => quitPhase row

def leaveOldPhase (token : RefreshToken) : Phase D :=
  match w.byPreviousTokenHash service token with
  | none => .closed .left
  | some row => quitPhase row

/-- The rows that the conditional update of a rotation finds. -/
def rotates (token : RefreshToken) (sessionId : ℕ) (s : RefreshSession D) : Bool :=
  s.id = sessionId ∧ s.organizationId = token.organizationId ∧
    s.tokenHash = service.hashRefreshToken token ∧ s.revokedAt = none

def rotate (token new : RefreshToken) (sessionId : ℕ) (s : RefreshSession D) :
    RefreshSession D :=
  if rotates service token sessionId s then { s with
    tokenHash := service.hashRefreshToken new
    previousTokenHash := some (service.hashRefreshToken token)
    generation := s.generation+1 }
  else s

def rotateStep (i : ℕ) (token : RefreshToken) (row : RefreshSession D) : World D :=
  let new : RefreshToken := ⟨token.organizationId,i⟩
  if w.sessions.any (rotates service token row.id) then
    (w.store (w.sessions.map (rotate service token new row.id))).enter i
      (.closed (.issued row.userId token.organizationId row.id new))
  else w.enter i (.condemning row.id)

def advanceStep (i : ℕ) : Phase D → World D
  | .authenticating request => w.enter i (authenticatePhase w.identities request)
  | .verifying user request => w.enter i (verifyPhase service w.identities user request)
  | .selecting userId requested => w.enter i (selectPhase w.identities userId requested)
  | .establishing userId organizationId => w.enter i (.probing userId organizationId w.clock)
  | .probing userId organizationId now =>
    w.enter i (probePhase w.identities userId organizationId now)
  | .joining userId organizationId now =>
    w.enter i (joinPhase w.identities userId organizationId now)
  | .inserting userId organizationId now => w.insertStep service i userId organizationId now
  | .looking token now => w.enter i (w.lookPhase service token now)
  | .tracing token => w.enter i (w.tracePhase service token)
  | .vetting token now row => w.enter i (vetPhase w.identities token now row)
  | .admitting token now row => w.enter i (admitPhase w.identities token now row)
  | .rotating token _ row => w.rotateStep service i token row
  | .condemning sessionId => w.revokeStep i sessionId refreshFailed
  | .leaving token => w.enter i (w.leavePhase service token)
  | .leavingOld token => w.enter i (w.leaveOldPhase service token)
  | .quitting sessionId => w.revokeStep i sessionId .left
  | .closed _ => w

def step : Action → World D
  | .login request => w.admitCall (.login request) (.authenticating request)
  | .refresh raw => w.admitCall (.refresh raw) (match raw with
      | none => .closed refreshFailed
      | some token => .looking token w.clock)
  | .logout raw => w.admitCall (.logout raw) (match raw with
      | none => .closed .left
      | some token => .leaving token)
  | .advance i =>
    match w.phase i with
    | none => w
    | some p => w.advanceStep service i p
  | .abort i =>
    match w.phase i with
    | none | some (.closed _) => w
    | some _ => w.enter i (.closed .aborted)
  | .tick seconds => { w with clock := w.clock+seconds }
  | .administer identities => { w with identities := identities }

end

end World

end NexusAi.Auth
