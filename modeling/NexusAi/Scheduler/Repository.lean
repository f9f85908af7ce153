import NexusAi.Lib.Table
import NexusAi.Scheduler.Recurrence

/-!
# Rows of one organization and the repository's statements

Identifiers come from one counter, which stands for the uniqueness of generated
UUIDs. An occurrence key is the tuple that the digest is taken of, so that
distinct tuples have distinct keys. Timestamps of rows, correlation ids and the
outbox are not modelled: no statement reads them. The immutable part of an
occurrence is a structure of its own, as the trigger on the table has it.
-/

namespace NexusAi.Scheduler
open NexusAi.Checked NexusAi.Zones

structure ScheduleRow where
  id : ℕ
  scheduleKey : String
  workflowVersionId : ℕ
  spec : ScheduleSpec
  (nextFireAt nextLocalTime : Option ℤ)
  state : ScheduleState
  revision : ℕ
  timezoneDataVersion : String

structure OccurrenceKey where
  fold : ℕ
  intendedLocalTime : ℤ
  (scheduleId scheduleRevision : ℕ)
  timezone : String
  deriving DecidableEq

/-- `schedule:{schedule}:{occurrence}`. -/
structure IdempotencyKey where
  (scheduleId occurrenceId : ℕ)
  deriving DecidableEq

structure OccurrenceSnapshot where
  (id scheduleId workflowVersionId scheduleRevision : ℕ)
  occurrenceKey : OccurrenceKey
  (scheduledFor intendedLocalTime : ℤ)
  timezone : String
  utcOffsetSeconds : ℤ
  fold : ℕ
  timezoneDataVersion : String
  misfirePolicy : MisfirePolicy
  p14IdempotencyKey : IdempotencyKey
  workflowInput : Json.Fields
  deriving DecidableEq

structure OccurrenceRow extends OccurrenceSnapshot where
  state : OccurrenceState
  (claimOwnerId claimToken : Option ℕ)
  dispatchAttemptCount : ℕ
  workflowRunId : Option ℕ
  errorCode : Option String
  deriving DecidableEq

inductive Source where
  | api | engine | worker

inductive Transition where
  | schedule (previous : Option ScheduleState) (target : ScheduleState)
  | occurrence (id : ℕ) (previous : Option OccurrenceState) (target : OccurrenceState)

inductive Disposition where
  | skipped | coalesced
  deriving DecidableEq

structure MisfireDetail where
  (scheduleId scheduleRevision : ℕ)
  (timezone timezoneDataVersion : String)
  policy : MisfirePolicy
  disposition : Disposition
  (accountedCount skippedCount coalescedCount firstOmittedFold : ℕ)
  (firstOmittedLocalTime firstOmittedScheduledFor : ℤ)
  lastOmittedFold : ℕ
  (lastOmittedLocalTime lastOmittedScheduledFor : ℤ)
  deriving DecidableEq

structure HistoryRow where
  scheduleId : ℕ
  transition : Transition
  reasonCode : String
  source : Source
  detail : Option MisfireDetail

/-- A run as the dispatch path sees it. The fingerprint is the pair it is
computed from. -/
structure RunRow where
  (id versionId : ℕ)
  idempotencyKey : IdempotencyKey
  requestFingerprint : ℕ × Json.Fields

structure Db where
  versions : List ℕ
  schedules : List ScheduleRow
  occurrences : List OccurrenceRow
  history : List HistoryRow
  runs : List RunRow
  fresh : ℕ

def empty (versions : List ℕ) : Db := ⟨versions,[],[],[],[],0⟩

structure OccurrenceClaim where
  occurrence : OccurrenceRow
  (ownerId claimToken : ℕ)
  workflowInput : Json.Fields

namespace Db

def scheduleRow (db : Db) (id : ℕ) : Option ScheduleRow := Table.find ScheduleRow.id id db.schedules

def occurrenceRow (db : Db) (id : ℕ) : Option OccurrenceRow :=
  Table.find (fun o => o.id) id db.occurrences

def putSchedule (db : Db) (row : ScheduleRow) : Db :=
  { db with schedules := Table.put ScheduleRow.id row db.schedules }

def putOccurrence (db : Db) (row : OccurrenceRow) : Db :=
  { db with occurrences := Table.put (fun o => o.id) row db.occurrences }

def log (db : Db) (h : HistoryRow) : Db := { db with history := db.history++[h] }

def logSchedule (db : Db) (id : ℕ) (previous : Option ScheduleState) (target : ScheduleState)
    (reason : String) (source : Source) : Db :=
  db.log ⟨id,.schedule previous target,reason,source,none⟩

/-- The history row of an occurrence carries its schedule, which is looked up. -/
def logOccurrence (db : Db) (id : ℕ) (previous : Option OccurrenceState)
    (target : OccurrenceState) (reason : String) (source : Source) : Result Db := do
  let o ← present (db.occurrenceRow id) .noResultFound
  pure (db.log ⟨o.scheduleId,.occurrence id previous target,reason,source,none⟩)

end Db

def createSchedule (db : Db) (scheduleKey : String) (workflowVersionId : ℕ) (spec : ScheduleSpec)
    (timezoneDataVersion : String) : Result (Db × ScheduleRow) := do
  let row : ScheduleRow := ⟨db.fresh,scheduleKey,workflowVersionId,spec,none,none,.draft,1,
    timezoneDataVersion⟩
  require (∀ r ∈ db.schedules, r.scheduleKey ≠ scheduleKey) .integrityError
  let db := { db with schedules := db.schedules++[row], fresh := db.fresh+1 }
  pure (db.logSchedule row.id none row.state "SCHEDULE_CREATED" .api,row)

def transitionSchedule (db : Db) (row : ScheduleRow) (target : ScheduleState) (reason : String)
    (source : Source) : Result (Db × ScheduleRow) := do
  requireScheduleTransition row.state target
  let next := { row with state := target, revision := row.revision+1 }
  pure ((db.putSchedule next).logSchedule row.id (some row.state) target reason source,next)

/-- What a statement sees of the clock and of other transactions: the time at
its beginning, how much later each row is examined and which rows are locked. -/
structure Query where
  now : ℤ
  lag : ℕ → ℕ
  locked : ℕ → Bool

def dueBefore (a b : ScheduleRow) : Bool :=
  match a.nextFireAt, b.nextFireAt with
  | some x, some y => x < y || (x == y && a.id ≤ b.id)
  | none, some _ => false
  | _, none => true

def isDue (q : Query) (row : ScheduleRow) : Bool :=
  row.state = .active && !q.locked row.id &&
    match row.nextFireAt with
    | some t => t ≤ q.now+q.lag row.id
    | none => false

def dueScheduleRows (db : Db) (q : Query) (limit : ℕ) : List ScheduleRow :=
  ((db.schedules.filter (isDue q)).insertionSort (fun a b => dueBefore a b)).take limit

def buildOccurrenceKey (row : ScheduleRow) (slot : TemporalSlot) : Result OccurrenceKey := do
  require (1 ≤ row.revision) (.valueError "schedule_revision must be positive")
  require (slot.fold = 0 ∨ slot.fold = 1) (.valueError "fold must be 0 or 1")
  pure ⟨slot.fold,slot.intendedLocalTime,row.id,row.revision,row.spec.timezone.name⟩

def newOccurrence (row : ScheduleRow) (slot : TemporalSlot) (key : OccurrenceKey)
    (state : OccurrenceState) (reason : String) (id : ℕ) : OccurrenceRow where
  id := id
  scheduleId := row.id
  workflowVersionId := row.workflowVersionId
  scheduleRevision := row.revision
  occurrenceKey := key
  scheduledFor := slot.scheduledFor
  intendedLocalTime := slot.intendedLocalTime
  timezone := row.spec.timezone.name
  utcOffsetSeconds := slot.utcOffsetSeconds
  fold := slot.fold
  timezoneDataVersion := row.timezoneDataVersion
  misfirePolicy := row.spec.misfirePolicy
  p14IdempotencyKey := ⟨row.id,id⟩
  workflowInput := row.spec.input
  state := state
  claimOwnerId := none
  claimToken := none
  dispatchAttemptCount := 0
  workflowRunId := none
  errorCode := if state = .skipped then some reason else none

def addOccurrence (db : Db) (row : ScheduleRow) (slot : TemporalSlot) (state : OccurrenceState)
    (reason : String) : Result (Db × OccurrenceRow) := do
  let key ← buildOccurrenceKey row slot
  let o := newOccurrence row slot key state reason db.fresh
  require (∀ p ∈ db.occurrences, ¬ (p.scheduleId = row.id ∧ p.occurrenceKey = key))
    .integrityError
  require (∀ p ∈ db.occurrences, p.p14IdempotencyKey ≠ o.p14IdempotencyKey) .integrityError
  let db := { db with occurrences := db.occurrences++[o], fresh := db.fresh+1 }
  let db ← db.logOccurrence o.id none state reason .engine
  pure (db,o)

def misfireDetail (row : ScheduleRow) (count : ℕ) (first last : TemporalSlot) : MisfireDetail :=
  let disposition :=
    if row.spec.misfirePolicy = .skip then Disposition.skipped else Disposition.coalesced
  { scheduleId := row.id
    scheduleRevision := row.revision
    timezone := row.spec.timezone.name
    timezoneDataVersion := row.timezoneDataVersion
    policy := row.spec.misfirePolicy
    disposition := disposition
    accountedCount := count
    skippedCount := if disposition = .skipped then count else 0
    coalescedCount := if disposition = .skipped then 0 else count
    firstOmittedFold := first.fold
    firstOmittedLocalTime := first.intendedLocalTime
    firstOmittedScheduledFor := first.scheduledFor
    lastOmittedFold := last.fold
    lastOmittedLocalTime := last.intendedLocalTime
    lastOmittedScheduledFor := last.scheduledFor }

def recordMisfireAccounting (db : Db) (row : ScheduleRow) (omitted : List TemporalSlot)
    (reason : String) : Result Db :=
  match omitted.head?, omitted.getLast? with
  | some first, some last => do
    require (1 ≤ row.revision) (.valueError "schedule_revision must be positive")
    require ((first.fold = 0 ∨ first.fold = 1) ∧ (last.fold = 0 ∨ last.fold = 1))
      (.valueError "fold must be 0 or 1")
    let detail := misfireDetail row omitted.length first last
    if ∃ h ∈ db.history, h.scheduleId = row.id ∧ h.reasonCode = reason ∧ h.detail = some detail then
      pure db
    else
      pure (db.log ⟨row.id,.schedule (some row.state) row.state,reason,.engine,some detail⟩)
  | _, _ => pure db

def scheduledBefore (a b : OccurrenceRow) : Bool :=
  a.scheduledFor < b.scheduledFor || (a.scheduledFor == b.scheduledFor && a.id ≤ b.id)

def isClaimable (q : Query) (o : OccurrenceRow) : Bool :=
  o.state = .pending && o.scheduledFor ≤ q.now+q.lag o.id

/-- The joined query: the earliest pending occurrence that is due and whose
schedule is active and not locked. -/
def claimableSchedule (db : Db) (q : Query) : Option ScheduleRow :=
  ((db.occurrences.filter (isClaimable q)).insertionSort (fun a b => scheduledBefore a b)).findSome?
    fun o => db.schedules.find? fun r =>
      r.id = o.scheduleId && r.state = .active && !q.locked r.id

def claimableOccurrence (db : Db) (q : Query) (scheduleId : ℕ) : Option OccurrenceRow :=
  ((db.occurrences.filter fun o => o.scheduleId = scheduleId && isClaimable q o &&
    !q.locked o.id).insertionSort (fun a b => scheduledBefore a b)).head?

def claimDue (db : Db) (outer inner : Query) (ownerId : ℕ) :
    Result (Db × Option OccurrenceClaim) :=
  match claimableSchedule db outer with
  | none => .ok (db,none)
  | some row =>
    match claimableOccurrence db inner row.id with
    | none => .ok (db,none)
    | some o => do
      let token := db.fresh
      requireOccurrenceTransition .pending .claimed
      let o := { o with state := .claimed, claimOwnerId := some ownerId, claimToken := some token }
      let db := ({ db with fresh := db.fresh+1 } : Db).putOccurrence o
      let db ← db.logOccurrence o.id (some .pending) .claimed "OCCURRENCE_CLAIMED" .worker
      pure (db,some ⟨o,ownerId,token,o.workflowInput⟩)

/-- The row that the conditional updates of the dispatch path select. -/
def fencedRow (db : Db) (claim : OccurrenceClaim) : Option OccurrenceRow :=
  db.occurrences.find? fun o => o.id = claim.occurrence.id &&
    o.state = .claimed && o.claimOwnerId = some claim.ownerId &&
    o.claimToken = some claim.claimToken

def beginDispatch (db : Db) (claim : OccurrenceClaim) : Result Db := do
  let o ← present (fencedRow db claim) .executionFenced
  pure (db.putOccurrence { o with dispatchAttemptCount := o.dispatchAttemptCount+1 })

/-- `finish_dispatch` and `fail_dispatch` differ in the row they write and in
the reasons they log. -/
def settleDispatch (db : Db) (claim : OccurrenceClaim) (settled : OccurrenceRow → OccurrenceRow)
    (target : OccurrenceState) (reason scheduleReason : String) :
    Result (Db × OccurrenceRow) := do
  let row ← present (db.scheduleRow claim.occurrence.scheduleId) .executionFenced
  let o ← present (fencedRow db claim) .executionFenced
  let o := settled o
  let db := db.putOccurrence o
  let db ← db.logOccurrence o.id (some .claimed) target reason .worker
  if row.spec.scheduleType = .oneTime ∧ row.state = .active then do
    let (db,_) ← transitionSchedule db row .completed scheduleReason .worker
    pure (db,o)
  else pure (db,o)

def finishDispatch (db : Db) (claim : OccurrenceClaim) (workflowRunId : ℕ) :
    Result (Db × OccurrenceRow) :=
  settleDispatch db claim
    (fun o => { o with state := .dispatched, workflowRunId := some workflowRunId })
    .dispatched "WORKFLOW_ACCEPTED" "ONE_TIME_DISPATCHED"

def failDispatch (db : Db) (claim : OccurrenceClaim) (errorCode : String) :
    Result (Db × OccurrenceRow) :=
  settleDispatch db claim (fun o => { o with state := .failed, errorCode := some errorCode })
    .failed errorCode "ONE_TIME_DISPATCH_FAILED"

def cancelRows (db : Db) : List OccurrenceRow → Result (Db × List OccurrenceRow)
  | [] => .ok (db,[])
  | o::os => do
    let o := { o with state := OccurrenceState.cancelled }
    let db ← (db.putOccurrence o).logOccurrence o.id (some .pending) .cancelled
      "SCHEDULE_CANCELLED" .api
    let (db,rest) ← cancelRows db os
    pure (db,o::rest)

def cancelPending (db : Db) (scheduleId : ℕ) : Result (Db × List OccurrenceRow) :=
  cancelRows db (db.occurrences.filter fun o =>
    o.scheduleId = scheduleId && o.state = .pending)

def cancelOccurrenceRow (db : Db) (o : OccurrenceRow) : Result (Db × OccurrenceRow) := do
  requireOccurrenceTransition o.state .cancelled
  let next := { o with state := OccurrenceState.cancelled }
  let db ← (db.putOccurrence next).logOccurrence o.id (some o.state) .cancelled
    "OCCURRENCE_CANCELLED" .api
  pure (db,next)

end NexusAi.Scheduler
