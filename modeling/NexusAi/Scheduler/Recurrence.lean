import NexusAi.Lib.Json
import NexusAi.Lib.Zones
import NexusAi.Lib.Walk

/-!
# Schedules and the recurrence walk

Instants and wall-clock readings are microseconds on the calendar's line. `RecurrenceSpec`
and `ScheduleSpec` carry the verdict of their validators, so a row that the request models
would refuse cannot be built. The walk advances in wall-clock order while candidates are
accepted in UTC order. Every search is bounded and every conversion may leave the range of
representable times; both end the computation with an error. A recurring schedule searches
on when its first slot lies before the start; without recurrence it is taken as it is.
-/

namespace NexusAi.Scheduler
open NexusAi.Checked NexusAi.Calendar NexusAi.Zones

section

/-- The errors of the scheduler taxonomy with their messages, and the host
errors that leave a transaction the same way. -/
inductive SchedulerError where
  | scheduleNotFound
  | occurrenceNotFound
  | invalidState (detail : String)
  | conflict (detail : String)
  | invalidRecurrence (detail : String)
  | executionFenced
  | workflowVersionNotFound
  | valueError (detail : String)
  | overflowError
  | integrityError
  | noResultFound
  deriving DecidableEq

abbrev Result (α : Type) := Except SchedulerError α

inductive ScheduleState where
  | draft | active | paused | completed | cancelled
  deriving DecidableEq

inductive OccurrenceState where
  | pending | claimed | dispatched | failed | skipped | cancelled
  deriving DecidableEq

def ScheduleState.value : ScheduleState → String
  | .draft => "DRAFT"
  | .active => "ACTIVE"
  | .paused => "PAUSED"
  | .completed => "COMPLETED"
  | .cancelled => "CANCELLED"

def OccurrenceState.value : OccurrenceState → String
  | .pending => "PENDING"
  | .claimed => "CLAIMED"
  | .dispatched => "DISPATCHED"
  | .failed => "FAILED"
  | .skipped => "SKIPPED"
  | .cancelled => "CANCELLED"

def ScheduleState.targets : ScheduleState → List ScheduleState
  | .draft => [.active,.cancelled]
  | .active => [.paused,.completed,.cancelled]
  | .paused => [.active,.cancelled]
  | .completed => []
  | .cancelled => []

def OccurrenceState.targets : OccurrenceState → List OccurrenceState
  | .pending => [.claimed,.skipped,.cancelled]
  | .claimed => [.dispatched,.failed]
  | .dispatched => []
  | .failed => []
  | .skipped => []
  | .cancelled => []

def OccurrenceState.terminal (s : OccurrenceState) : Bool :=
  s ∈ [.dispatched,.failed,.skipped,.cancelled]

def requireScheduleTransition (current target : ScheduleState) : Result Unit :=
  require (target ∈ current.targets)
    (.invalidState ("schedule cannot transition from "++current.value++" to "++target.value))

def requireOccurrenceTransition (current target : OccurrenceState) : Result Unit :=
  require (target ∈ current.targets)
    (.invalidState ("occurrence cannot transition from "++current.value++" to "++target.value))

inductive ScheduleType where
  | oneTime | recurring
  deriving DecidableEq

inductive RecurrenceFrequency where
  | minutely | hourly | daily | weekly | monthly

inductive MisfirePolicy where
  | skip | fireOnce | catchUpBounded
  deriving DecidableEq

/-- A time of day, with or without timezone information. -/
structure ClockTime where
  micros : ℤ
  aware : Bool
  valid : 0 ≤ micros ∧ micros < day

structure RecurrenceFields where
  frequency : RecurrenceFrequency
  interval : ℕ
  (weekdays monthDays : List ℤ)
  localTime : Option ClockTime

def RecurrenceFields.coherent (r : RecurrenceFields) : Result Unit := do
  require r.weekdays.Nodup (.valueError "weekdays must be unique")
  require r.monthDays.Nodup (.valueError "month_days must be unique")
  match r.frequency with
  | .minutely | .hourly =>
    require (r.weekdays = [] ∧ r.monthDays = [] ∧ r.localTime.isNone)
      (.valueError "minute/hour recurrence does not accept calendar selectors")
  | .daily =>
    require (r.localTime.isSome ∧ r.weekdays = [] ∧ r.monthDays = [])
      (.valueError "daily recurrence requires only local_time")
  | .weekly =>
    require (r.localTime.isSome ∧ r.weekdays ≠ [] ∧ r.monthDays = [])
      (.valueError "weekly recurrence requires weekdays and local_time")
  | .monthly =>
    require (r.localTime.isSome ∧ r.monthDays ≠ [] ∧ r.weekdays = [])
      (.valueError "monthly recurrence requires month_days and local_time")
  require (∀ t ∈ r.localTime, t.aware = false)
    (.valueError "local_time must not contain timezone information")

structure RecurrenceSpec extends RecurrenceFields where
  intervalBounds : 1 ≤ interval ∧ interval ≤ 10000
  weekdayBounds : ∀ d ∈ weekdays, 0 ≤ d ∧ d ≤ 6
  monthDayBounds : ∀ d ∈ monthDays, 1 ≤ d ∧ d ≤ 31
  accepted : toRecurrenceFields.coherent = .ok ()

structure Timezone where
  name : String
  zone : Zone

structure ScheduleFields where
  scheduleType : ScheduleType
  timezone : Timezone
  startAt : ℤ
  endAt : Option ℤ
  recurrence : Option RecurrenceSpec
  input : Json.Fields
  misfirePolicy : MisfirePolicy
  maxCatchUp : ℕ

def ScheduleFields.shape (f : ScheduleFields) : Result Unit := do
  require (¬ (f.scheduleType = .oneTime ∧ f.recurrence.isSome))
    (.valueError "one-time schedules cannot include recurrence")
  require (¬ (f.scheduleType = .recurring ∧ f.recurrence.isNone))
    (.valueError "recurring schedules require recurrence")
  require (∀ e ∈ f.endAt, f.startAt ≤ e) (.valueError "end_at must not precede start_at")
  require (¬ (f.misfirePolicy ≠ .catchUpBounded ∧ f.maxCatchUp ≠ 1))
    (.valueError "max_catch_up applies only to CATCH_UP_BOUNDED")

/-- The editable part of a schedule, as the request model lets it through. -/
structure ScheduleSpec extends ScheduleFields where
  startRepresentable : Representable startAt
  catchUpBounds : 1 ≤ maxCatchUp ∧ maxCatchUp ≤ 100
  accepted : toScheduleFields.shape = .ok ()

theorem ScheduleSpec.oneTime_iff (s : ScheduleSpec) :
    s.scheduleType = .oneTime ↔ s.recurrence = none := by
  have h := s.accepted
  simp only [ScheduleFields.shape,bind_ok,require_ok] at h
  obtain ⟨_,_,_,_,_⟩ := h
  cases ht : s.scheduleType <;> cases hr : s.recurrence <;> simp_all

def maxSearchSteps : ℕ := 525600

structure TemporalSlot where
  (intendedLocalTime scheduledFor utcOffsetSeconds : ℤ)
  fold : ℕ
  nonexistent : Bool
  deriving DecidableEq

def inRange (t : ℤ) : Result ℤ :=
  if Representable t then .ok t else .error .overflowError

def resolveLocal (l : ℤ) (z : Zone) : Result TemporalSlot := do
  let utc ← inRange (z.earliest l)
  let roundTrip ← inRange (z.wall utc)
  pure ⟨l,utc,z.foldOffset l,0,decide (roundTrip ≠ l)⟩

def weeklySearch (r : RecurrenceSpec) (anchorWeek : ℤ) : ℕ → ℤ → Result ℤ
  | 0, _ => .error (.invalidRecurrence "weekly recurrence exceeded the bounded horizon")
  | n+1, candidate => do
    let candidate ← inRange (candidate+day)
    let d := dayNumber candidate
    let weekIndex := (d-weekday d-anchorWeek)/7
    if weekday d ∈ r.weekdays ∧ weekIndex%r.interval = 0 then pure candidate
      else weeklySearch r anchorWeek n candidate

def replaceDate (value : ℤ) (d : Date) : Result ℤ := do
  let replaced := d.number*day+timeOfDay value
  require (Representable replaced) (.valueError ("year "++toString d.year++" is out of range"))
  pure replaced

def monthlyDays (value year month : ℤ) : List ℤ → Result (Option ℤ)
  | [] => .ok none
  | d::ds =>
    if d ≤ daysInMonth year month then do
      let candidate ← replaceDate value ⟨year,month,d⟩
      if candidate > value then pure (some candidate) else monthlyDays value year month ds
    else monthlyDays value year month ds

def monthlySearch (r : RecurrenceSpec) (value monthIndex : ℤ) :
    ℕ → ℤ → Result ℤ
  | 0, _ => .error (.invalidRecurrence "monthly recurrence exceeded the bounded horizon")
  | n+1, offset =>
    let index := monthIndex+offset
    if offset ≠ 0 ∧ offset%r.interval ≠ 0 then monthlySearch r value monthIndex n (offset+1)
    else do
      let found ← monthlyDays value (index/12) (index%12+1)
        (r.monthDays.insertionSort (· ≤ ·))
      match found with
      | some candidate => pure candidate
      | none => monthlySearch r value monthIndex n (offset+1)

def advance (value : ℤ) (r : RecurrenceSpec) : Result ℤ :=
  match r.frequency with
  | .minutely => inRange (value+r.interval*minute)
  | .hourly => inRange (value+r.interval*hour)
  | .daily => inRange (value+r.interval*day)
  | .weekly =>
    let d := dayNumber value
    weeklySearch r (d-weekday d) (366*5) value
  | .monthly =>
    let d := dateOf (dayNumber value)
    monthlySearch r value (d.year*12+d.month-1) (12*5+1) 0

/-- The candidates of `nextSlot` in wall-clock order with their UTC ranks. -/
def slotWalk (z : Zone) (r : RecurrenceSpec) : Walk SchedulerError ℤ TemporalSlot ℤ where
  advance value := advance value r
  resolve l := resolveLocal l z
  place := TemporalSlot.intendedLocalTime
  rank := TemporalSlot.scheduledFor
  exhausted := .invalidRecurrence "recurrence search exceeded the bounded horizon"
  place_resolve l s h := by
    simp only [resolveLocal,bind_ok,pure_ok] at h
    obtain ⟨_,_,_,_,rfl⟩ := h
    rfl

def nextSlot (previous after : ℤ) (z : Zone) (r : RecurrenceSpec) :
    Result TemporalSlot :=
  (slotWalk z r).search after maxSearchSteps previous

/-- The slot of the anchor itself unless it lies before the start. -/
def anchorSlot (anchor startAt : ℤ) (z : Zone) (r : RecurrenceSpec) :
    Result TemporalSlot := do
  let slot ← resolveLocal anchor z
  if slot.scheduledFor < startAt then nextSlot anchor startAt z r else pure slot

def selectorMatches (r : RecurrenceSpec) (anchor : ℤ) : Bool :=
  match r.frequency with
  | .daily => true
  | .weekly => weekday (dayNumber anchor) ∈ r.weekdays
  | .monthly => (dateOf (dayNumber anchor)).day ∈ r.monthDays
  | _ => false

def firstSlot (startAt : ℤ) (z : Zone) (recurrence : Option RecurrenceSpec) :
    Result TemporalSlot := do
  let here ← inRange (z.wall startAt)
  match recurrence with
  | none => resolveLocal here z
  | some r =>
    let anchor := here-here%minute
    match r.frequency with
    | .minutely | .hourly => anchorSlot anchor startAt z r
    | .daily | .weekly | .monthly =>
      let time ← present r.localTime
        (.invalidRecurrence "calendar recurrence requires local_time")
      let anchor := dayNumber anchor*day+time.micros
      if selectorMatches r anchor then anchorSlot anchor startAt z r
        else nextSlot anchor startAt z r

@[simp] theorem inRange_ok {t u : ℤ} : inRange t = .ok u ↔ Representable t ∧ t = u := by
  unfold inRange
  split_ifs with h <;> simp [h]

/-- The slot that a reading resolves to, apart from range errors. -/
def slotOf (z : Zone) (l : ℤ) : TemporalSlot :=
  ⟨l,z.earliest l,z.foldOffset l,0,decide (z.wall (z.earliest l) ≠ l)⟩

variable {z : Zone} {s : TemporalSlot} {r : RecurrenceSpec} {n : ℕ} {v c : ℤ}

theorem resolveLocal_ok {l : ℤ} : resolveLocal l z = .ok s ↔
      Representable (z.earliest l) ∧ Representable (z.wall (z.earliest l)) ∧ slotOf z l = s := by
  simp only [resolveLocal,bind_ok,inRange_ok,pure_ok,slotOf]
  constructor
  · rintro ⟨_,⟨h,rfl⟩,_,⟨h',rfl⟩,rfl⟩
    exact ⟨h,h',rfl⟩
  · rintro ⟨h,h',rfl⟩
    exact ⟨_,⟨h,rfl⟩,_,⟨h',rfl⟩,rfl⟩

theorem weeklySearch_ok {w : ℤ} (h : weeklySearch r w n v = .ok c) :
    v+day ≤ c ∧ Representable c := by
  induction n generalizing v with
  | zero => simp [weeklySearch] at h
  | succ _ ih =>
    simp only [weeklySearch,bind_ok,inRange_ok] at h
    obtain ⟨_,⟨hr,rfl⟩,h⟩ := h
    split_ifs at h with hs
    · rw [pure_ok] at h
      subst h
      exact ⟨le_refl _,hr⟩
    · obtain ⟨_,hc⟩ := ih h
      simp only [day] at *
      exact ⟨by omega,hc⟩

theorem monthlyDays_ok {y m : ℤ} {ds : List ℤ} (h : monthlyDays v y m ds = .ok (some c)) :
    v+day ≤ c ∧ Representable c := by
  induction ds with
  | nil => simp [monthlyDays] at h
  | cons _ _ ih =>
    simp only [monthlyDays] at h
    split_ifs at h with hd
    · simp only [bind_ok,replaceDate,require_ok,pure_ok] at h
      obtain ⟨_,⟨_,hr,rfl⟩,h⟩ := h
      split_ifs at h with hgt
      · simp only [pure_ok,Option.some.injEq] at h
        subst h
        refine ⟨?_,hr⟩
        simp only [timeOfDay,day] at *
        omega
      · exact ih h
    · exact ih h

theorem monthlySearch_ok {i o : ℤ} (h : monthlySearch r v i n o = .ok c) :
    v+day ≤ c ∧ Representable c := by
  induction n generalizing o with
  | zero => simp [monthlySearch] at h
  | succ _ ih =>
    simp only [monthlySearch] at h
    split_ifs at h with hs
    · exact ih h
    · simp only [bind_ok] at h
      obtain ⟨found,hf,h⟩ := h
      cases found with
      | none => exact ih h
      | some =>
        simp only [pure_ok] at h
        subst h
        exact monthlyDays_ok hf

theorem advance_ok (h : advance v r = .ok c) : v+minute ≤ c ∧ Representable c := by
  have hi : (1:ℤ) ≤ r.interval := by exact_mod_cast r.intervalBounds.1
  unfold advance at h
  split at h
  · obtain ⟨hr,rfl⟩ := inRange_ok.mp h
    exact ⟨by simp only [minute]; omega,hr⟩
  · obtain ⟨hr,rfl⟩ := inRange_ok.mp h
    exact ⟨by simp only [minute,hour]; omega,hr⟩
  · obtain ⟨hr,rfl⟩ := inRange_ok.mp h
    exact ⟨by simp only [minute,day]; omega,hr⟩
  · obtain ⟨_,hr⟩ := weeklySearch_ok h
    exact ⟨by simp only [minute,day] at *; omega,hr⟩
  · obtain ⟨_,hr⟩ := monthlySearch_ok h
    exact ⟨by simp only [minute,day] at *; omega,hr⟩

theorem reach_add_le {l l' : ℤ} (h : (slotWalk z r).reach n l = .ok l') : l+n*minute ≤ l' := by
  induction n generalizing l with
  | zero =>
    simp only [Walk.reach,Except.ok.injEq] at h
    simp [h]
  | succ _ ih =>
    simp only [Walk.reach,bind_ok] at h
    obtain ⟨k,hk,h⟩ := h
    have hstep := (advance_ok hk).1
    have hrest := ih h
    simp only [minute] at *
    push_cast
    linarith

theorem nextSlot_ok {previous after : ℤ} (h : nextSlot previous after z r = .ok s) :
    previous < s.intendedLocalTime ∧ after < s.scheduledFor ∧
      resolveLocal s.intendedLocalTime z = .ok s := by
  obtain ⟨k,-,⟨l,hl,hs⟩,hgt,-⟩ := Walk.search_ok.mp h
  have hp : s.intendedLocalTime = l := (slotWalk z r).place_resolve l s hs
  have hle := reach_add_le hl
  rw [hp]
  refine ⟨?_,hgt,hs⟩
  simp only [minute] at hle
  push_cast at hle
  linarith

theorem anchorSlot_ok {anchor startAt : ℤ} (h : anchorSlot anchor startAt z r = .ok s) :
    resolveLocal s.intendedLocalTime z = .ok s := by
  simp only [anchorSlot,bind_ok] at h
  obtain ⟨t,ht,h⟩ := h
  split_ifs at h with hlt
  · exact (nextSlot_ok h).2.2
  · rw [pure_ok] at h
    subst h
    have hp := (slotWalk z r).place_resolve anchor t ht
    exact (congrArg (resolveLocal · z) hp).trans ht

theorem firstSlot_ok {startAt : ℤ} (h : firstSlot startAt z (some r) = .ok s) :
    resolveLocal s.intendedLocalTime z = .ok s := by
  simp only [firstSlot,bind_ok] at h
  obtain ⟨_,-,h⟩ := h
  split at h
  · exact anchorSlot_ok h
  · exact anchorSlot_ok h
  all_goals
    simp only [bind_ok] at h
    obtain ⟨t,-,h⟩ := h
    split_ifs at h
    · exact anchorSlot_ok h
    · exact (nextSlot_ok h).2.2

end

variable {startAt : ℤ} {z : Zone}

theorem anchorSlot_ge {anchor : ℤ} {r : RecurrenceSpec} {s : TemporalSlot}
    (h : anchorSlot anchor startAt z r = .ok s) : startAt ≤ s.scheduledFor := by
  simp only [anchorSlot,bind_ok] at h
  obtain ⟨t,_,h⟩ := h
  split_ifs at h with hlt
  · exact (nextSlot_ok h).2.1.le
  · rw [pure_ok] at h
    subst h
    exact not_lt.mp hlt

theorem firstSlot_ge {r : RecurrenceSpec} {s : TemporalSlot}
    (h : firstSlot startAt z (some r) = .ok s) : startAt ≤ s.scheduledFor := by
  simp only [firstSlot,bind_ok] at h
  obtain ⟨_,_,h⟩ := h
  split at h
  · exact anchorSlot_ge h
  · exact anchorSlot_ge h
  all_goals
    simp only [bind_ok] at h
    obtain ⟨_,_,h⟩ := h
    split_ifs at h
    · exact anchorSlot_ge h
    · exact (nextSlot_ok h).2.1.le

theorem firstSlot_none {s : TemporalSlot} (h : firstSlot startAt z none = .ok s) :
    s.scheduledFor = z.earliest (z.wall startAt) := by
  simp only [firstSlot,bind_ok,inRange_ok] at h
  obtain ⟨_,⟨_,rfl⟩,h⟩ := h
  obtain ⟨_,_,rfl⟩ := resolveLocal_ok.mp h
  rfl

theorem firstSlot_repeats (h : z.Repeats startAt) :
    firstSlot startAt z none = .ok (slotOf z (z.wall startAt)) := by
  obtain ⟨hstart,hwall⟩ := z.repeats_representable h
  have hshown : z.Shows (z.wall startAt) := ⟨startAt,hstart,rfl⟩
  have hback := z.wall_earliest_of_not_gap (z.shows_not_gap hshown)
  simp only [firstSlot,bind_ok,inRange_ok]
  refine ⟨_,⟨hwall,rfl⟩,resolveLocal_ok.mpr ⟨z.shows_representable hshown,?_,rfl⟩⟩
  rwa [hback]

/-- The first slot does not precede the start, and is the start where nothing recurs,
except for a schedule without recurrence that starts in the second pass of a repeated
window. -/
theorem starts_kept_iff (startAt : ℤ) (z : Zone) (recurrence : Option RecurrenceSpec) :
    (∀ s, firstSlot startAt z recurrence = .ok s →
      startAt ≤ s.scheduledFor ∧ (recurrence = none → s.scheduledFor = startAt)) ↔
      (recurrence = none → ¬ z.Repeats startAt) := by
  cases recurrence with
  | none =>
    constructor
    · intro hkept _ hrep
      have hs := (hkept _ (firstSlot_repeats hrep)).2 rfl
      exact (z.earliest_wall_eq_iff startAt).mp hs hrep
    · intro hrep s hs
      have heq : s.scheduledFor = startAt := by
        rw [firstSlot_none hs]
        exact (z.earliest_wall_eq_iff startAt).mpr (hrep rfl)
      exact ⟨heq.ge,fun _ => heq⟩
  | some =>
    constructor
    · intro _ hnone
      cases hnone
    · intro _ s hs
      refine ⟨firstSlot_ge hs,?_⟩
      intro hnone
      cases hnone

/-- A schedule for the second 01:30 is given the slot of the first, an hour before
its start. -/
theorem secondHalfPastOne_early :
    ∃ s, firstSlot secondHalfPastOne newYorkAutumn none = .ok s ∧
      s.scheduledFor = secondHalfPastOne-hour ∧ s.scheduledFor < secondHalfPastOne :=
  ⟨slotOf newYorkAutumn (newYorkAutumn.wall secondHalfPastOne),by decide +kernel,
    by decide +kernel,by decide +kernel⟩

end NexusAi.Scheduler
