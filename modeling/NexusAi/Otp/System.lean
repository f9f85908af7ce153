import NexusAi.Lib.Table
import NexusAi.Lib.Run

/-!
# Issuing, verifying and purging codes side by side

A challenge stores a keyed hash of its code and is looked up by a keyed fingerprint of its
destination; HMAC under the configured pepper is a function of the message. The calls take
turns, one statement of one transaction at a time. A row that a transaction has locked is
locked to its commit, and its writes become visible then. A statement that needs a row
which another call has locked waits; the select of the active challenge then looks at that
row again, and at no other. An insert waits for the insert of another call under the same
unique index entry, and for a call that has taken the conflicting row out of the index.
Time is read by each call at its start and again by each write. The id that a call draws
for its challenge is its own number.
-/

namespace NexusAi.Otp

inductive OtpStatus where
  | active | verified | expired | revoked | locked
  deriving DecidableEq

inductive OtpChannel where
  | sms | email
  deriving DecidableEq

def OtpChannel.value : OtpChannel → String
  | .sms => "SMS"
  | .email => "EMAIL"

inductive OtpPurpose where
  | genericVerification | verifyEmail | verifyPhone
  deriving DecidableEq

def OtpPurpose.key : OtpPurpose → String
  | .genericVerification => "GENERIC_VERIFICATION"
  | .verifyEmail => "VERIFY_EMAIL"
  | .verifyPhone => "VERIFY_PHONE"

def OtpPurpose.allowedChannels : OtpPurpose → List OtpChannel
  | .genericVerification => [.sms,.email]
  | .verifyEmail => [.email]
  | .verifyPhone => [.sms]

structure Destination where
  channel : OtpChannel
  address : String
  deriving DecidableEq

structure OtpSettings where
  enabled : Bool
  (ttlSeconds maxAttempts resendCooldownSeconds maxIssuesPerWindow issueWindowSeconds : ℕ)
  ttl_bounds : 60 ≤ ttlSeconds ∧ ttlSeconds ≤ 1800
  attempts_bounds : 1 ≤ maxAttempts ∧ maxAttempts ≤ 10
  cooldown_bounds : 15 ≤ resendCooldownSeconds ∧ resendCooldownSeconds ≤ 900
  issues_bounds : 1 ≤ maxIssuesPerWindow ∧ maxIssuesPerWindow ≤ 50
  window_bounds : 60 ≤ issueWindowSeconds ∧ issueWindowSeconds ≤ 86400

structure Service (D : Type) where
  settings : OtpSettings
  hmac : String → D

inductive OtpError where
  | configInvalid (detail : String)
  | purposeInvalid (detail : String)
  | challengeNotFound (detail : String)
  | invalid (detail : String)
  | expired (detail : String)
  | alreadyUsed (detail : String)
  | locked (detail : String)
  | rateLimited (detail : String)
  | resendTooSoon (detail : String)
  | deliveryFailed (detail deliveryError : String)
  | idempotencyConflict (detail : String)
  deriving DecidableEq

structure RequestFingerprint where
  purpose : OtpPurpose
  destination : Destination
  accountId : ℕ
  deriving DecidableEq

structure Challenge (D : Type) where
  (id organizationId : ℕ)
  destination : Destination
  destinationFingerprint : D
  purpose : OtpPurpose
  messagingAccountId : ℕ
  codeHash : D
  hashVersion : ℕ
  status : OtpStatus
  (attempts maxAttempts : ℕ)
  requestFingerprint : RequestFingerprint
  idempotencyKey : Option String
  deliveryMessageId : Option ℕ
  (issuedAt expiresAt resendAfter updatedAt : ℤ)
  deriving DecidableEq

/-- A challenge about to be stored, with the code that is sent and not stored. -/
structure Draft where
  (id organizationId : ℕ)
  destination : Destination
  purpose : OtpPurpose
  messagingAccountId : ℕ
  idempotencyKey : Option String
  code : String
  now : ℤ
  deriving DecidableEq

def unitSeparator : String := "\x1f"

def canonicalContext (organizationId challengeId : ℕ) (purpose : OtpPurpose)
    (destination : Destination) (hashVersion : ℕ) : String :=
  unitSeparator.intercalate ["nxs-otp:v"++toString hashVersion,toString organizationId,
    toString challengeId,purpose.key,destination.channel.value,destination.address]

def currentHashVersion : ℕ := 1

def Draft.requestFingerprint (draft : Draft) : RequestFingerprint :=
  ⟨draft.purpose,draft.destination,draft.messagingAccountId⟩

section

variable {D : Type} (service : Service D)

namespace Service

def hashCode (context code : String) : D := service.hmac (context++unitSeparator++code)

def destinationFingerprint (destination : Destination) : D :=
  service.hmac ("nxs-otp-dest"++unitSeparator++destination.channel.value++unitSeparator++
    destination.address)

/-- The row that a draft is stored as. The database dates it. -/
def stored (draft : Draft) (dated : ℤ) : Challenge D where
  id := draft.id
  organizationId := draft.organizationId
  destination := draft.destination
  destinationFingerprint := service.destinationFingerprint draft.destination
  purpose := draft.purpose
  messagingAccountId := draft.messagingAccountId
  codeHash := service.hashCode (canonicalContext draft.organizationId draft.id draft.purpose
    draft.destination currentHashVersion) draft.code
  hashVersion := currentHashVersion
  status := .active
  attempts := 0
  maxAttempts := service.settings.maxAttempts
  requestFingerprint := draft.requestFingerprint
  idempotencyKey := draft.idempotencyKey
  deliveryMessageId := none
  issuedAt := draft.now
  expiresAt := draft.now+service.settings.ttlSeconds
  resendAfter := draft.now+service.settings.resendCooldownSeconds
  updatedAt := dated

end Service

def Challenge.subject (row : Challenge D) : ℕ × D × OtpPurpose :=
  (row.organizationId,row.destinationFingerprint,row.purpose)

def Service.subject (draft : Draft) : ℕ × D × OtpPurpose :=
  (draft.organizationId,service.destinationFingerprint draft.destination,draft.purpose)

def Challenge.context (row : Challenge D) : String :=
  canonicalContext row.organizationId row.id row.purpose row.destination row.hashVersion

def terminalFailure : OtpStatus → Option OtpError
  | .verified => some (.alreadyUsed "this OTP was already used")
  | .locked => some (.locked "this OTP challenge is locked")
  | .expired => some (.expired "the OTP has expired")
  | .revoked => some (.invalid "the code is not valid")
  | .active => none

def byId (organizationId id : ℕ) (rows : List (Challenge D)) : Option (Challenge D) :=
  rows.find? fun r => r.organizationId = organizationId ∧ r.id = id

def byIdempotencyKey (organizationId : ℕ) (key : String) (rows : List (Challenge D)) :
    Option (Challenge D) :=
  rows.find? fun r => r.organizationId = organizationId ∧ r.idempotencyKey = some key

def purgeTerminalBefore (organizationId : ℕ) (cutoff : ℤ) (rows : List (Challenge D)) :
    List (Challenge D) :=
  rows.filter fun r => !decide (r.organizationId = organizationId ∧ r.status ≠ .active ∧
    r.updatedAt < cutoff)

variable [DecidableEq D]

def Service.verifyCode (context code : String) (expectedHash : D) : Bool :=
  service.hashCode context code = expectedHash

def Service.applyAttempt (row : Challenge D) (code : String) : Challenge D × Option OtpError :=
  let attempts := row.attempts+1
  if service.verifyCode row.context code row.codeHash then
    ({ row with
      status := .verified
      attempts := attempts },none)
  else if row.maxAttempts ≤ attempts then
    ({ row with
      status := .locked
      attempts := attempts },
      some (.locked "too many incorrect attempts; the OTP challenge is locked"))
  else ({ row with attempts := attempts },some (.invalid "the code is not valid"))

def activeForSubject (subject : ℕ × D × OtpPurpose) (rows : List (Challenge D)) :
    Option (Challenge D) :=
  rows.find? fun r => r.subject = subject ∧ r.status = .active

def countIssuedSince (subject : ℕ × D × OtpPurpose) (since : ℤ) (rows : List (Challenge D)) : ℕ :=
  rows.countP fun r => r.subject = subject ∧ since ≤ r.issuedAt

end

inductive OtpDeliveryStatus where
  | sent | unconfirmed | skipped
  deriving DecidableEq

inductive Outcome where
  | issued (id : ℕ) (delivery : OtpDeliveryStatus)
  | replayed (id : ℕ)
  | verified (id : ℕ)
  | failed (error : OtpError)
  | aborted
  deriving DecidableEq

inductive Request where
  | issue
  | resend
  | verify (code : String)

/-- What a call does next. The calls that issue carry what they have counted and
the row that they have locked. -/
inductive Phase (D : Type) where
  | replaying (draft : Draft)
  | opened (draft : Draft)
  | checked (draft : Draft)
  | counted (draft : Draft) (issued : ℕ)
  | awaiting (draft : Draft) (issued id : ℕ)
  | superseding (draft : Draft) (issued : ℕ) (active : Challenge D)
  | inserting (draft : Draft) (issued : ℕ) (revoked : Option ℕ)
  | inserted (draft : Draft) (issued : ℕ) (revoked : Option ℕ)
  | losing (draft : Draft) (attempt : ℕ)
  | delivering (draft : Draft)
  | confirming (organizationId id messageId : ℕ)
  | unwinding (organizationId id : ℕ) (deliveryError : String)
  | resending (organizationId id : ℕ)
  | verifying (organizationId id : ℕ) (code : String) (now : ℤ)
  | holding (row update : Challenge D) (outcome : Outcome)
  | written (row update : Challenge D) (outcome : Outcome)
  | closed (outcome : Outcome)
  deriving DecidableEq

structure Call (D : Type) where
  request : Request
  phase : Phase D

def Phase.lock {D : Type} : Phase D → Option ℕ
  | .superseding _ _ active => some active.id
  | .inserting _ _ revoked | .inserted _ _ revoked => revoked
  | .holding row _ _ | .written row _ _ => some row.id
  | _ => none

/-- The row that a call has taken out of the index of active challenges. -/
def Phase.retires {D : Type} : Phase D → Option ℕ
  | .inserting _ _ revoked | .inserted _ _ revoked => revoked
  | .written row update _ => if update.status ≠ .active then some row.id else none
  | _ => none

def Phase.entry {D : Type} : Phase D → Option Draft
  | .inserted draft _ _ => some draft
  | _ => none

structure World (D : Type) where
  rows : List (Challenge D)
  calls : List (Call D)
  /-- What was ever stored as a challenge. -/
  issued : List Draft

inductive Delivery where
  | sent (messageId : ℕ)
  | ambiguous
  | failed (deliveryError : String)

inductive Action where
  | issue (organizationId : ℕ) (destination : Destination) (purpose : OtpPurpose)
      (messagingAccountId : ℕ) (idempotencyKey : Option String) (now : ℤ) (code : String)
  | resend (organizationId id : ℕ)
  | reissue (call : ℕ) (now : ℤ) (code : String)
  | verify (organizationId id : ℕ) (code : String) (now : ℤ)
  | advance (call : ℕ) (now : ℤ)
  | deliver (call : ℕ) (delivery : Delivery)
  | abort (call : ℕ)
  | purge (organizationId : ℕ) (now : ℤ) (olderThan : ℕ)

def idempotencyResolveAttempts : ℕ := 8

namespace World

variable {D : Type}

def initial : World D := ⟨[],[],[]⟩

def phase (w : World D) (i : ℕ) : Option (Phase D) := (w.calls[i]?).map Call.phase

def enter (w : World D) (i : ℕ) (phase : Phase D) : World D :=
  { w with calls := w.calls.modify i fun c => { c with phase := phase } }

def admitCall (w : World D) (request : Request) (phase : Phase D) : World D :=
  { w with calls := w.calls++[⟨request,phase⟩] }

/-- Another call stands in a phase of a kind. -/
def elsewhere (w : World D) (i : ℕ) (p : Phase D → Bool) : Bool :=
  (List.range w.calls.length).any fun j => j ≠ i && (w.phase j).any p

def lockedElsewhere (w : World D) (i id : ℕ) : Bool :=
  w.elsewhere i fun p => p.lock = some id

/-- The checks that come before the first transaction. -/
def draftPhase (service : Service D) (draft : Draft) : Phase D :=
  if !service.settings.enabled then
    .closed (.failed (.configInvalid "OTP services are disabled"))
  else if draft.destination.channel ∉ draft.purpose.allowedChannels then
    .closed (.failed (.purposeInvalid
      "this OTP purpose cannot be delivered over the requested channel"))
  else if draft.idempotencyKey.isSome then .replaying draft else .opened draft

def replay (prior : Challenge D) (draft : Draft) : Phase D :=
  if prior.requestFingerprint ≠ draft.requestFingerprint then
    .closed (.failed (.idempotencyConflict
      "this idempotency key was already used for a different OTP request"))
  else .closed (.replayed prior.id)

def prior (w : World D) (draft : Draft) : Option (Challenge D) :=
  draft.idempotencyKey.bind fun key => byIdempotencyKey draft.organizationId key w.rows

def replayStep (w : World D) (i : ℕ) (draft : Draft) : World D :=
  w.enter i (match w.prior draft with
    | some row => replay row draft
    | none => .opened draft)

def keyStep (w : World D) (i : ℕ) (draft : Draft) : World D :=
  w.enter i (match w.prior draft with
    | some row => replay row draft
    | none => .checked draft)

/-- After the select of the active challenge, which is locked. -/
def supersede (draft : Draft) (issued : ℕ) (active : Challenge D) : Phase D :=
  if draft.idempotencyKey.isSome ∧ active.idempotencyKey = draft.idempotencyKey then
    .closed (.replayed active.id)
  else if draft.now < active.resendAfter then
    .closed (.failed (.resendTooSoon "an OTP was issued recently; wait before requesting another"))
  else .superseding draft issued active

def loseStep (w : World D) (i : ℕ) (draft : Draft) (attempt : ℕ) : World D :=
  w.enter i (match w.prior draft with
    | some row => replay row draft
    | none => if draft.idempotencyKey.isSome ∧ attempt+1 < idempotencyResolveAttempts then
        .losing draft (attempt+1)
      else .closed (.failed (.resendTooSoon
        "another OTP for this destination and purpose was just issued")))

/-- `_unwind_failed_delivery` -/
def unwindStep (w : World D) (i organizationId id : ℕ) (deliveryError : String) : World D :=
  let outcome := Outcome.failed (.deliveryFailed "the OTP could not be delivered" deliveryError)
  if w.lockedElsewhere i id then w
  else w.enter i (match byId organizationId id w.rows with
    | some row => if row.status = .active then .holding row { row with status := .revoked } outcome
        else .closed outcome
    | none => .closed outcome)

def confirmStep (w : World D) (i organizationId id messageId : ℕ) (now : ℤ) : World D :=
  if w.lockedElsewhere i id then w
  else w.enter i (match byId organizationId id w.rows with
    | some row => .written row { row with
        deliveryMessageId := some messageId
        updatedAt := now } (.issued id .sent)
    | none => .closed (.issued id .sent))

/-- The commit of a transaction that has updated one row. -/
def commitStep (w : World D) (i : ℕ) (row update : Challenge D) (outcome : Outcome) : World D :=
  { w with rows := Table.edit Challenge.id [row.id] (fun _ => update) w.rows }.enter i
    (.closed outcome)

def revokedAt (now : ℤ) (row : Challenge D) : Challenge D := { row with
  status := .revoked
  updatedAt := now }

section

variable [DecidableEq D] (service : Service D)

def countStep (w : World D) (i : ℕ) (draft : Draft) : World D :=
  let issued := countIssuedSince (service.subject draft)
    (draft.now-service.settings.issueWindowSeconds) w.rows
  w.enter i (if service.settings.maxIssuesPerWindow ≤ issued then
      .closed (.failed (.rateLimited "too many OTP issuances for this destination and purpose"))
    else .counted draft issued)

def selectStep (w : World D) (i : ℕ) (draft : Draft) (issued : ℕ) : World D :=
  w.enter i (match activeForSubject (service.subject draft) w.rows with
    | none => .inserting draft issued none
    | some row => if w.lockedElsewhere i row.id then .awaiting draft issued row.id
        else supersede draft issued row)

/-- Once the row is free, the select looks at it again with its whole condition. -/
def awaitStep (w : World D) (i : ℕ) (draft : Draft) (issued id : ℕ) : World D :=
  if w.lockedElsewhere i id then w
  else w.enter i (match byId draft.organizationId id w.rows with
    | some row => if row.subject = service.subject draft ∧ row.status = .active then
          supersede draft issued row
        else .inserting draft issued none
    | none => .inserting draft issued none)

/-- The row stands in the way of an insert under one of the unique indexes. -/
def conflicts (draft : Draft) (revoked : Option ℕ) (row : Challenge D) : Bool :=
  row.id = draft.id ||
    (draft.idempotencyKey.isSome ∧ row.organizationId = draft.organizationId ∧
      row.idempotencyKey = draft.idempotencyKey) ||
    (row.status = .active ∧ row.subject = service.subject draft ∧ some row.id ≠ revoked)

def rivals (draft other : Draft) : Bool :=
  service.subject other = service.subject draft ||
    (draft.idempotencyKey.isSome ∧ other.organizationId = draft.organizationId ∧
      other.idempotencyKey = draft.idempotencyKey)

def insertStep (w : World D) (i : ℕ) (draft : Draft) (issued : ℕ) (revoked : Option ℕ) : World D :=
  if w.elsewhere i (fun p => p.entry.any (rivals service draft)) then w
  else match w.rows.find? (conflicts service draft revoked) with
    | some row => if w.elsewhere i (fun p => p.retires = some row.id) then w
        else w.enter i (.losing draft 0)
    | none => w.enter i (.inserted draft issued revoked)

/-- The commit of an issuance: the superseded challenge is revoked, the new one stored. -/
def issueStep (w : World D) (i : ℕ) (draft : Draft) (revoked : Option ℕ) (now : ℤ) : World D :=
  { w with
    rows := Table.edit Challenge.id revoked.toList (revokedAt now) w.rows++
      [service.stored draft now]
    issued := w.issued++[draft] }.enter i (.delivering draft)

/-- The select of the challenge for update, and what is decided on it. An error that is
raised inside of the transaction leaves the row alone. -/
def verifyStep (w : World D) (i organizationId id : ℕ) (code : String) (now : ℤ) : World D :=
  if w.lockedElsewhere i id then w
  else w.enter i (match byId organizationId id w.rows with
    | none => .closed (.failed (.challengeNotFound "no such OTP challenge in this Organization"))
    | some row =>
      match terminalFailure row.status with
      | some error => .closed (.failed error)
      | none =>
        if row.expiresAt ≤ now then
          .holding row { row with status := .expired } (.failed (.expired "the OTP has expired"))
        else
          let attempt := service.applyAttempt row code
          .holding row attempt.1 (match attempt.2 with
            | some error => .failed error
            | none => .verified id))

def advanceStep (w : World D) (i : ℕ) (now : ℤ) : World D :=
  match w.phase i with
  | some (.replaying draft) => w.replayStep i draft
  | some (.opened draft) => w.keyStep i draft
  | some (.checked draft) => w.countStep service i draft
  | some (.counted draft issued) => w.selectStep service i draft issued
  | some (.awaiting draft issued id) => w.awaitStep service i draft issued id
  | some (.superseding draft issued active) => w.enter i (.inserting draft issued (some active.id))
  | some (.inserting draft issued revoked) => w.insertStep service i draft issued revoked
  | some (.inserted draft _ revoked) => w.issueStep service i draft revoked now
  | some (.losing draft attempt) => w.loseStep i draft attempt
  | some (.confirming organizationId id messageId) => w.confirmStep i organizationId id messageId now
  | some (.unwinding organizationId id error) => w.unwindStep i organizationId id error
  | some (.verifying organizationId id code read) => w.verifyStep service i organizationId id code read
  | some (.holding row update outcome) => w.enter i
      (.written row { update with updatedAt := now } outcome)
  | some (.written row update outcome) => w.commitStep i row update outcome
  | _ => w

def reissueStep (w : World D) (i : ℕ) (now : ℤ) (code : String) : World D :=
  match w.phase i with
  | some (.resending organizationId id) =>
    match byId organizationId id w.rows with
    | none => w.enter i (.closed (.failed
        (.challengeNotFound "no such OTP challenge in this Organization")))
    | some original =>
      w.enter i (draftPhase service ⟨i,organizationId,original.destination,original.purpose,
        original.messagingAccountId,none,code,now⟩)
  | _ => w

def deliverStep (w : World D) (i : ℕ) (delivery : Delivery) : World D :=
  match w.phase i with
  | some (.delivering draft) => w.enter i (match delivery with
      | .sent messageId => .confirming draft.organizationId draft.id messageId
      | .ambiguous => .closed (.issued draft.id .unconfirmed)
      | .failed error => .unwinding draft.organizationId draft.id error)
  | _ => w

/-- A failing statement, an exception or the death of the process. -/
def abortStep (w : World D) (i : ℕ) : World D :=
  match w.phase i with
  | some (.closed _) | none => w
  | some _ => w.enter i (.closed .aborted)

/-- The delete waits for rows that are locked. -/
def purgeStep (w : World D) (organizationId : ℕ) (now : ℤ) (olderThan : ℕ) : World D :=
  let kept := purgeTerminalBefore organizationId (now-max olderThan 3600) w.rows
  if w.rows.any fun r => r ∉ kept && w.calls.any fun c => c.phase.lock = some r.id
  then w
  else { w with rows := kept }

def step (w : World D) : Action → World D
  | .issue organizationId destination purpose account key now code =>
    w.admitCall .issue (draftPhase service
      ⟨w.calls.length,organizationId,destination,purpose,account,key,code,now⟩)
  | .resend organizationId id => w.admitCall .resend (.resending organizationId id)
  | .reissue i now code => w.reissueStep service i now code
  | .verify organizationId id code now => w.admitCall (.verify code)
      (if service.settings.enabled then .verifying organizationId id code now
      else .closed (.failed (.configInvalid "OTP services are disabled")))
  | .advance i now => w.advanceStep service i now
  | .deliver i delivery => w.deliverStep i delivery
  | .abort i => w.abortStep i
  | .purge organizationId now olderThan => w.purgeStep organizationId now olderThan

def reach (as : List Action) : World D := Run.exec (step service) as initial

end

end World

end NexusAi.Otp
