import NexusAi.Scheduler.Repository

/-!
# Service operations, one transaction each

Every operation maps the rows it finds to the rows it commits or fails and
commits nothing. Materialization is split into the plan of a row, which reads
the schedule and the clock only, and its application to the tables. The slots of
a plan are in strict wall-clock order and the next cursor lies after all of them.
A dispatch is three transactions; the one in the middle belongs to the workflow
service.
-/

namespace NexusAi.Scheduler
open NexusAi.Checked NexusAi.Zones NexusAi.Calendar

def maxBatch : ℕ := 500

structure CreateScheduleRequest where
  scheduleKey : String
  workflowVersionId : ℕ
  spec : ScheduleSpec
  timezoneDataVersion : String

/-- `none` is a field that the request leaves unset. -/
structure UpdateScheduleRequest where
  expectedRevision : ℕ
  timezone : Option Timezone
  startAt : Option ℤ
  endAt : Option (Option ℤ)
  recurrence : Option (Option RecurrenceSpec)
  input : Option Json.Fields
  misfirePolicy : Option MisfirePolicy
  maxCatchUp : Option ℕ

def ScheduleSpec.validate (f : ScheduleFields) : Result ScheduleSpec :=
  if h : Representable f.startAt ∧ (1 ≤ f.maxCatchUp ∧ f.maxCatchUp ≤ 100) then
    match hs : f.shape with
    | .ok () => .ok ⟨f,h.1,h.2,hs⟩
    | .error e => .error e
  else .error (.valueError "field out of bounds")

def UpdateScheduleRequest.candidate (request : UpdateScheduleRequest) (current : ScheduleSpec) :
    ScheduleFields where
  scheduleType := current.scheduleType
  timezone := request.timezone.getD current.timezone
  startAt := request.startAt.getD current.startAt
  endAt := request.endAt.getD current.endAt
  recurrence := request.recurrence.getD current.recurrence
  input := request.input.getD current.input
  misfirePolicy := request.misfirePolicy.getD current.misfirePolicy
  maxCatchUp := request.maxCatchUp.getD current.maxCatchUp

def createScheduleRequest (db : Db) (request : CreateScheduleRequest) :
    Result (Db × ScheduleRow) := do
  require (request.workflowVersionId ∈ db.versions) .workflowVersionNotFound
  match createSchedule db request.scheduleKey request.workflowVersionId request.spec
      request.timezoneDataVersion with
  | .error .integrityError => .error (.conflict "schedule_key already exists in this Organization")
  | result => result

def updateSchedule (db : Db) (id : ℕ) (request : UpdateScheduleRequest) :
    Result (Db × ScheduleRow) := do
  let row ← present (db.scheduleRow id) .scheduleNotFound
  require (row.state = .draft ∨ row.state = .paused)
    (.invalidState "only DRAFT or PAUSED schedules may be edited")
  require (row.revision = request.expectedRevision)
    (.conflict "schedule revision changed; reload before editing")
  let spec ← ScheduleSpec.validate (request.candidate row.spec)
  let next := { row with
    spec := spec, revision := row.revision+1, nextFireAt := none, nextLocalTime := none }
  pure (db.putSchedule next,next)

def activateSchedule (db : Db) (id : ℕ) : Result (Db × ScheduleRow) := do
  let row ← present (db.scheduleRow id) .scheduleNotFound
  require (row.state = .draft) (.invalidState "only a DRAFT schedule may be activated")
  let slot ← firstSlot row.spec.startAt row.spec.timezone.zone row.spec.recurrence
  require (∀ e ∈ row.spec.endAt, slot.scheduledFor ≤ e)
    (.invalidState "schedule has no occurrence within its time window")
  transitionSchedule db { row with
    nextFireAt := some slot.scheduledFor, nextLocalTime := some slot.intendedLocalTime }
    .active "SCHEDULE_ACTIVATED" .api

def pauseSchedule (db : Db) (id : ℕ) : Result (Db × ScheduleRow) := do
  let row ← present (db.scheduleRow id) .scheduleNotFound
  transitionSchedule db row .paused "SCHEDULE_PAUSED" .api

/-- The row with a cursor: the one it has, or the first slot again. -/
def withCursor (row : ScheduleRow) : Result ScheduleRow :=
  if row.nextFireAt.isNone || row.nextLocalTime.isNone then do
    let slot ← firstSlot row.spec.startAt row.spec.timezone.zone row.spec.recurrence
    pure { row with
      nextFireAt := some slot.scheduledFor, nextLocalTime := some slot.intendedLocalTime }
  else pure row

def resumeSchedule (db : Db) (id : ℕ) : Result (Db × ScheduleRow) := do
  let row ← present (db.scheduleRow id) .scheduleNotFound
  require (row.state = .paused) (.invalidState "only a PAUSED schedule may be resumed")
  let row ← withCursor row
  transitionSchedule db row .active "SCHEDULE_RESUMED" .api

def cancelSchedule (db : Db) (id : ℕ) : Result (Db × ScheduleRow) := do
  let row ← present (db.scheduleRow id) .scheduleNotFound
  let (db,result) ← transitionSchedule db row .cancelled "SCHEDULE_CANCELLED" .api
  let (db,_) ← cancelPending db id
  pure (db,result)

def elapsedFrom (now : ℤ) (spec : ScheduleSpec) :
    ℕ → TemporalSlot → Result (List TemporalSlot × Option TemporalSlot)
  | 0, _ => .error (.invalidState "recurrence materialization exceeded bounded search")
  | n+1, current =>
    if current.scheduledFor > now then .ok ([],some current)
    else if ∃ e ∈ spec.endAt, current.scheduledFor > e then .ok ([],none)
    else match spec.recurrence with
      | none => .ok ([current],none)
      | some r => do
        let next ← nextSlot current.intendedLocalTime current.scheduledFor spec.timezone.zone r
        let (due,future) ← elapsedFrom now spec n next
        pure (current::due,future)

def elapsedSlots (row : ScheduleRow) (now : ℤ) :
    Result (List TemporalSlot × Option TemporalSlot) :=
  match row.nextFireAt, row.nextLocalTime with
  | some fireAt, some localTime => do
    let z := row.spec.timezone.zone
    let reading ← inRange (z.wall fireAt)
    elapsedFrom now row.spec maxSearchSteps
      ⟨localTime,fireAt,z.offsetAt fireAt,0,decide (reading ≠ localTime)⟩
  | _, _ => .ok ([],none)

structure Selected where
  slot : TemporalSlot
  state : OccurrenceState
  reason : String

structure Plan where
  selected : List Selected
  omitted : List TemporalSlot
  accountingReason : String
  next : Option TemporalSlot

def disposition (policy : MisfirePolicy) (slot : TemporalSlot) : Selected :=
  if slot.nonexistent then ⟨slot,.skipped,"DST_NONEXISTENT_LOCAL_TIME"⟩
  else if policy = .skip then ⟨slot,.skipped,"MISFIRE_SKIPPED"⟩
  else ⟨slot,.pending,"OCCURRENCE_CREATED"⟩

/-- The elapsed slots that become occurrences and those that are accounted for. -/
def divide (spec : ScheduleSpec) (remaining : ℕ) (slots : List TemporalSlot) :
    List TemporalSlot × List TemporalSlot :=
  match spec.misfirePolicy with
  | .skip =>
    let count := min slots.length remaining
    (slots.drop (slots.length-count),slots.take (slots.length-count))
  | .fireOnce => (slots.drop (slots.length-1),slots.take (slots.length-1))
  | .catchUpBounded =>
    let count := min (min slots.length spec.maxCatchUp) remaining
    (slots.take count,slots.drop count)

def MisfirePolicy.accountingReason : MisfirePolicy → String
  | .skip => "MISFIRE_SKIPPED"
  | .fireOnce => "MISFIRE_FIRE_ONCE_COALESCED"
  | .catchUpBounded => "MISFIRE_CATCH_UP_COALESCED"

def planRow (row : ScheduleRow) (now : ℤ) (remaining : ℕ) : Result Plan := do
  let (slots,next) ← elapsedSlots row now
  let (selected,omitted) := divide row.spec remaining slots
  pure ⟨selected.map (disposition row.spec.misfirePolicy),omitted,
    row.spec.misfirePolicy.accountingReason,next⟩

def addOccurrences (row : ScheduleRow) : List Selected → Db → Result (Db × List OccurrenceRow)
  | [], db => .ok (db,[])
  | s::ss, db => do
    let (db,o) ← addOccurrence db row s.slot s.state s.reason
    let (db,os) ← addOccurrences row ss db
    pure (db,o::os)

def moveCursor (db : Db) (row : ScheduleRow) (next : Option TemporalSlot) : Result Db :=
  if row.spec.scheduleType = .oneTime then
    pure (db.putSchedule { row with nextFireAt := none, nextLocalTime := none })
  else match next with
    | none => do
      let (db,_) ← transitionSchedule db { row with nextFireAt := none, nextLocalTime := none }
        .completed "SCHEDULE_EXHAUSTED" .engine
      pure db
    | some slot => pure (db.putSchedule { row with
        nextFireAt := some slot.scheduledFor, nextLocalTime := some slot.intendedLocalTime })

def applyPlan (row : ScheduleRow) (plan : Plan) (db : Db) : Result (Db × List OccurrenceRow) := do
  let (db,created) ← addOccurrences row plan.selected db
  let db ← recordMisfireAccounting db row plan.omitted plan.accountingReason
  let db ← moveCursor db row plan.next
  pure (db,created)

def materializeRow (now : ℤ) (row : ScheduleRow) (remaining : ℕ) (db : Db) :
    Result (Db × List OccurrenceRow) := do
  let plan ← planRow row now remaining
  applyPlan row plan db

def materializeRows (now : ℤ) : List ScheduleRow → ℕ → Db → Result (Db × List OccurrenceRow)
  | [], _, db => .ok (db,[])
  | row::rows, remaining, db =>
    if remaining = 0 then .ok (db,[])
    else do
      let (db,created) ← materializeRow now row remaining db
      let (db,rest) ← materializeRows now rows (remaining-created.length) db
      pure (db,created++rest)

def materializeDue (db : Db) (q : Query) (limit : ℕ) : Result (Db × List OccurrenceRow) := do
  require (1 ≤ limit ∧ limit ≤ maxBatch) (.valueError "limit must be between 1 and 500")
  materializeRows q.now (dueScheduleRows db q limit) limit db

def cancelOccurrence (db : Db) (id : ℕ) : Result (Db × OccurrenceRow) := do
  let o ← present (db.occurrenceRow id) .occurrenceNotFound
  cancelOccurrenceRow db o

inductive NxsError where
  | versionNotFound
  | conflict
  | other (code : String)

def NxsError.code : NxsError → String
  | .versionNotFound => "NXS_WORKFLOW_VERSION_NOT_FOUND"
  | .conflict => "NXS_WORKFLOW_CONFLICT"
  | .other c => c

def runByIdempotency (db : Db) (versionId : ℕ) (key : IdempotencyKey) : Option RunRow :=
  db.runs.find? fun r => r.versionId = versionId && r.idempotencyKey = key

/-- `stale` is the race in which the first lookup does not see a run that the
insert then collides with, so that it is resolved after the rollback. -/
def startRun (db : Db) (versionId : ℕ) (key : IdempotencyKey) (input : Json.Fields)
    (stale : Bool) : Except NxsError (Db × RunRow) := do
  require (versionId ∈ db.versions) .versionNotFound
  let fingerprint := (versionId,input)
  match (if stale then none else runByIdempotency db versionId key) with
  | some run => do
    require (run.requestFingerprint = fingerprint) .conflict
    pure (db,run)
  | none =>
    match runByIdempotency db versionId key with
    | some run => do
      require (run.requestFingerprint = fingerprint) .conflict
      pure (db,run)
    | none =>
      let run : RunRow := ⟨db.fresh,versionId,key,fingerprint⟩
      pure ({ db with runs := db.runs++[run], fresh := db.fresh+1 },run)

variable {now : ℤ} {spec : ScheduleSpec} {n room : ℕ} {current : TemporalSlot}
  {due : List TemporalSlot} {future : Option TemporalSlot} {row : ScheduleRow} {plan : Plan}

/-- One case for each way in which the walk over the slots ends or goes on. -/
@[elab_as_elim]
theorem elapsedFrom_rule {P : TemporalSlot → List TemporalSlot → Option TemporalSlot → Prop}
    (ahead : ∀ {s}, now < s.scheduledFor → P s [] (some s))
    (ended : ∀ {s}, ∀ e ∈ spec.endAt, e < s.scheduledFor → P s [] none)
    (last : ∀ {s}, s.scheduledFor ≤ now → (∀ e ∈ spec.endAt, s.scheduledFor ≤ e) →
      spec.recurrence = none → P s [s] none)
    (more : ∀ {s r next due future}, s.scheduledFor ≤ now →
      (∀ e ∈ spec.endAt, s.scheduledFor ≤ e) → spec.recurrence = some r →
      nextSlot s.intendedLocalTime s.scheduledFor spec.timezone.zone r = .ok next →
      P next due future → P s (s::due) future)
    (h : elapsedFrom now spec n current = .ok (due,future)) : P current due future := by
  induction n generalizing current due future with
  | zero => simp [elapsedFrom] at h
  | succ _ ih =>
    simp only [elapsedFrom] at h
    split_ifs at h with hnow hend
    · cases h
      exact ahead hnow
    · cases h
      obtain ⟨e,he,hlt⟩ := hend
      exact ended e he hlt
    · have hin : ∀ e ∈ spec.endAt, current.scheduledFor ≤ e := by
        intro e he
        by_contra hlt
        exact hend ⟨e,he,not_le.mp hlt⟩
      split at h
      · cases h
        exact last (not_lt.mp hnow) hin ‹_›
      · simp only [bind_ok,pure_ok,Prod.mk.injEq] at h
        obtain ⟨_,hnext,⟨_,_⟩,hrest,rfl,rfl⟩ := h
        exact more (not_lt.mp hnow) hin ‹_› hnext (ih hrest)

theorem elapsedFrom_order (h : elapsedFrom now spec n current = .ok (due,future)) :
    (due.map TemporalSlot.intendedLocalTime).Pairwise (· < ·) ∧
    (∀ s ∈ due, current.intendedLocalTime ≤ s.intendedLocalTime) ∧
    ∀ f ∈ future, current.intendedLocalTime ≤ f.intendedLocalTime ∧
      ∀ s ∈ due, s.intendedLocalTime < f.intendedLocalTime := by
  refine elapsedFrom_rule (by simp) (by simp) (by simp) (fun _ _ _ hnext hrest => ?_) h
  obtain ⟨hsorted,hlow,hfut⟩ := hrest
  have hlt := (nextSlot_ok hnext).1
  refine ⟨?_,?_,?_⟩
  · simp only [List.map_cons,List.pairwise_cons]
    refine ⟨?_,hsorted⟩
    intro t ht
    obtain ⟨s,hs,rfl⟩ := List.mem_map.mp ht
    exact hlt.trans_le (hlow s hs)
  · intro s hs
    rcases List.mem_cons.mp hs with rfl | hs
    · exact le_rfl
    · exact hlt.le.trans (hlow s hs)
  · intro f hf
    obtain ⟨hlf,hall⟩ := hfut f hf
    refine ⟨hlt.le.trans hlf,?_⟩
    intro s hs
    rcases List.mem_cons.mp hs with rfl | hs
    · exact hlt.trans_le hlf
    · exact hall s hs

theorem elapsedFrom_once (hr : spec.recurrence = none)
    (h : elapsedFrom now spec n current = .ok (due,future)) : due.length ≤ 1 := by
  refine elapsedFrom_rule (by simp) (by simp) (by simp) (fun _ _ hsome => ?_) h
  cases hr.symm.trans hsome

theorem elapsedSlots_order (h : elapsedSlots row now = .ok (due,future)) :
    (due.map TemporalSlot.intendedLocalTime).Pairwise (· < ·) ∧
    (∀ s ∈ due, ∃ t, row.nextLocalTime = some t ∧ t ≤ s.intendedLocalTime) ∧
    (∀ f ∈ future, ∃ t, row.nextLocalTime = some t ∧ t ≤ f.intendedLocalTime ∧
      ∀ s ∈ due, s.intendedLocalTime < f.intendedLocalTime) ∧
    (row.spec.recurrence = none → due.length ≤ 1) := by
  unfold elapsedSlots at h
  split at h
  · rename_i localTime hf hl
    simp only [bind_ok] at h
    obtain ⟨_,-,h⟩ := h
    obtain ⟨hsorted,hlow,hfut⟩ := elapsedFrom_order h
    refine ⟨hsorted,fun s hs => ⟨localTime,hl,hlow s hs⟩,?_,fun hr => elapsedFrom_once hr h⟩
    intro f hf
    exact ⟨localTime,hl,(hfut f hf).1,(hfut f hf).2⟩
  · simp only [Except.ok.injEq,Prod.mk.injEq] at h
    obtain ⟨rfl,rfl⟩ := h
    simp

theorem divide_sublist (spec : ScheduleSpec) (room : ℕ) (slots : List TemporalSlot) :
    (divide spec room slots).1.Sublist slots := by
  unfold divide
  split
  · exact List.drop_sublist _ _
  · exact List.drop_sublist _ _
  · exact List.take_sublist _ _

theorem divide_omitted (spec : ScheduleSpec) (room : ℕ) (slots : List TemporalSlot) :
    (divide spec room slots).2.Sublist slots := by
  unfold divide
  split
  · exact List.take_sublist _ _
  · exact List.take_sublist _ _
  · exact List.drop_sublist _ _

theorem disposition_slot (policy : MisfirePolicy) (slot : TemporalSlot) :
    (disposition policy slot).slot = slot := by
  unfold disposition
  split_ifs <;> rfl

section

variable (h : planRow row now room = .ok plan)

include h

theorem planRow_slots : ∃ due, elapsedSlots row now = .ok (due,plan.next) ∧
      (plan.selected.map Selected.slot).Sublist due ∧ plan.omitted.Sublist due := by
  simp only [planRow,bind_ok,pure_ok] at h
  obtain ⟨⟨due,_⟩,hdue,rfl⟩ := h
  refine ⟨due,hdue,?_,divide_omitted row.spec room due⟩
  have hid : Selected.slot ∘ disposition row.spec.misfirePolicy = id :=
    funext fun s => disposition_slot _ s
  simp only [List.map_map,hid,List.map_id]
  exact divide_sublist row.spec room due

/-- The readings of a plan: distinct, from the cursor on, before the next slot,
and at most one for a schedule without recurrence. -/
theorem planRow_readings : (plan.selected.map fun s => s.slot.intendedLocalTime).Nodup ∧
    (∀ s ∈ plan.selected, ∃ t, row.nextLocalTime = some t ∧ t ≤ s.slot.intendedLocalTime) ∧
    (∀ f, plan.next = some f → ∃ t, row.nextLocalTime = some t ∧ t ≤ f.intendedLocalTime ∧
      ∀ s ∈ plan.selected, s.slot.intendedLocalTime < f.intendedLocalTime) ∧
    (row.spec.recurrence = none → plan.selected.length ≤ 1) := by
  obtain ⟨due,hdue,hsub,-⟩ := planRow_slots h
  obtain ⟨hsorted,hlow,hfuture,hone⟩ := elapsedSlots_order hdue
  have hmem : ∀ s ∈ plan.selected, s.slot ∈ due :=
    fun s hs => hsub.subset (List.mem_map_of_mem hs)
  refine ⟨?_,fun s hs => hlow s.slot (hmem s hs),?_,?_⟩
  · have hs := (hsorted.imp (fun hlt => ne_of_lt hlt)).sublist (hsub.map _)
    rwa [List.map_map] at hs
  · intro f hf
    obtain ⟨t,ht,hle,hall⟩ := hfuture f hf
    exact ⟨t,ht,hle,fun s hs => hall s.slot (hmem s hs)⟩
  · intro hr
    have hlen := hsub.length_le
    rw [List.length_map] at hlen
    exact hlen.trans (hone hr)

theorem planRow_disposition {s : Selected} (hs : s ∈ plan.selected) :
    s = disposition row.spec.misfirePolicy s.slot := by
  simp only [planRow,bind_ok,pure_ok] at h
  obtain ⟨⟨_,_⟩,-,rfl⟩ := h
  obtain ⟨_,-,rfl⟩ := List.mem_map.mp hs
  rw [disposition_slot]

end

theorem elapsedFrom_future (h : elapsedFrom now spec n current = .ok (due,future)) :
    (∀ f ∈ future, now < f.scheduledFor) ∧ (current.fold = 0 → ∀ s ∈ due, s.fold = 0) := by
  refine elapsedFrom_rule (by simp) (by simp) (by simp) (fun _ _ _ hnext hrest => ?_) h
  obtain ⟨hfut,hfold⟩ := hrest
  obtain ⟨-,-,hslot⟩ := resolveLocal_ok.mp (nextSlot_ok hnext).2.2
  refine ⟨hfut,fun hc s hs => ?_⟩
  rcases List.mem_cons.mp hs with rfl | hs
  · exact hc
  · exact hfold (by rw [← hslot]; rfl) s hs

theorem elapsedSlots_future (h : elapsedSlots row now = .ok (due,future)) :
    (∀ f ∈ future, now < f.scheduledFor) ∧ ∀ s ∈ due, s.fold = 0 := by
  unfold elapsedSlots at h
  split at h
  · simp only [bind_ok] at h
    obtain ⟨_,-,h⟩ := h
    obtain ⟨hfut,hfold⟩ := elapsedFrom_future h
    exact ⟨hfut,hfold rfl⟩
  · simp only [Except.ok.injEq,Prod.mk.injEq] at h
    obtain ⟨rfl,rfl⟩ := h
    simp

theorem planRow_isOk :
    (∃ plan, planRow row now room = .ok plan) ↔ ∃ slots, elapsedSlots row now = .ok slots := by
  simp only [planRow,bind_ok,pure_ok]
  constructor
  · rintro ⟨_,slots,h,-⟩
    exact ⟨slots,h⟩
  · rintro ⟨slots,h⟩
    exact ⟨_,slots,h,rfl⟩

theorem divide_room (spec : ScheduleSpec) {room' : ℕ} (slots : List TemporalSlot)
    (hle : room' ≤ room) (h : (divide spec room slots).1.length ≤ room') :
    divide spec room' slots = divide spec room slots := by
  unfold divide at h ⊢
  split at h
  · simp only [List.length_drop] at h
    have hmin : min slots.length room' = min slots.length room := by omega
    simp only [hmin]
  · rfl
  · simp only [List.length_take] at h
    have hmin : min (min slots.length spec.maxCatchUp) room' =
        min (min slots.length spec.maxCatchUp) room := by omega
    simp only [hmin]

theorem planRow_room {room' : ℕ} (h : planRow row now room = .ok plan) (hle : room' ≤ room)
    (hfit : plan.selected.length ≤ room') : planRow row now room' = .ok plan := by
  simp only [planRow,bind_ok,pure_ok] at h ⊢
  obtain ⟨⟨due,_⟩,hdue,rfl⟩ := h
  simp only [List.length_map] at hfit
  exact ⟨_,hdue,by rw [divide_room row.spec due hle hfit]⟩

end NexusAi.Scheduler
