import NexusAi.Lib.Run
import NexusAi.Scheduler.Service

/-!
# The scheduler as a transition system

A world is the database, the claims that workers hold and the dispatch calls that were
begun. Every transaction is one step, a claim can be dispatched any number of times and a
call can stop for good between two transactions. The workflow service may refuse a call
without effect or lose the answer of a call that committed. `Effect` lists the changes that
transactions make with their guards, and each service operation is inverted here once.
-/

namespace NexusAi.Scheduler
open NexusAi.Checked NexusAi.Calendar NexusAi.Zones

inductive Outcome where
  | accepted (runId : ℕ)
  | rejected (code : String)
  | lost (code : String)

/-- A dispatch call after its first transaction: what the workflow service did,
once it did, and whether the last transaction was attempted. -/
structure Call where
  claim : OccurrenceClaim
  outcome : Option Outcome
  settled : Bool

structure World where
  db : Db
  claims : List OccurrenceClaim
  calls : List Call

def initial (versions : List ℕ) : World := ⟨empty versions,[],[]⟩

inductive Delivery where
  | answered
  | rejected (code : String)
  | lost (code : String)

inductive Action where
  | createSchedule (request : CreateScheduleRequest)
  | updateSchedule (id : ℕ) (request : UpdateScheduleRequest)
  | activateSchedule (id : ℕ)
  | pauseSchedule (id : ℕ)
  | resumeSchedule (id : ℕ)
  | cancelSchedule (id : ℕ)
  | materializeDue (q : Query) (limit : ℕ)
  | cancelOccurrence (id : ℕ)
  | claimDue (outer inner : Query) (ownerId : ℕ)
  | beginDispatch (claim : ℕ)
  | startRun (call : ℕ) (stale : Bool) (delivery : Delivery)
  | settle (call : ℕ)

/-- The transaction of the workflow service within a dispatch. -/
def deliver (db : Db) (claim : OccurrenceClaim) (stale : Bool) (delivery : Delivery) :
    Db × Outcome :=
  match delivery with
  | .rejected code => (db,.rejected code)
  | .answered =>
    match startRun db claim.occurrence.workflowVersionId claim.occurrence.p14IdempotencyKey
        claim.workflowInput stale with
    | .ok (db,run) => (db,.accepted run.id)
    | .error e => (db,.rejected e.code)
  | .lost code =>
    match startRun db claim.occurrence.workflowVersionId claim.occurrence.p14IdempotencyKey
        claim.workflowInput stale with
    | .ok (db,_) => (db,.lost code)
    | .error e => (db,.rejected e.code)

/-- The last transaction: a worker cannot tell a lost answer from a refusal. -/
def settleCall (db : Db) (claim : OccurrenceClaim) : Outcome → Result (Db × OccurrenceRow)
  | .accepted runId => finishDispatch db claim runId
  | .rejected code => failDispatch db claim code
  | .lost code => failDispatch db claim code

def step (w : World) : Action → World
  | .createSchedule request => { w with db := commit (createScheduleRequest w.db request) w.db }
  | .updateSchedule id request => { w with db := commit (updateSchedule w.db id request) w.db }
  | .activateSchedule id => { w with db := commit (activateSchedule w.db id) w.db }
  | .pauseSchedule id => { w with db := commit (pauseSchedule w.db id) w.db }
  | .resumeSchedule id => { w with db := commit (resumeSchedule w.db id) w.db }
  | .cancelSchedule id => { w with db := commit (cancelSchedule w.db id) w.db }
  | .materializeDue q limit => { w with db := commit (materializeDue w.db q limit) w.db }
  | .cancelOccurrence id => { w with db := commit (cancelOccurrence w.db id) w.db }
  | .claimDue outer inner ownerId =>
    match claimDue w.db outer inner ownerId with
    | .ok (db,claim) => { w with db := db, claims := w.claims++claim.toList }
    | .error _ => w
  | .beginDispatch i =>
    match w.claims[i]? with
    | none => w
    | some claim =>
      match beginDispatch w.db claim with
      | .ok db => { w with db := db, calls := w.calls++[⟨claim,none,false⟩] }
      | .error _ => w
  | .startRun i stale delivery =>
    match w.calls[i]? with
    | some ⟨claim,none,settled⟩ =>
      let (db,outcome) := deliver w.db claim stale delivery
      { w with db := db, calls := w.calls.set i ⟨claim,some outcome,settled⟩ }
    | _ => w
  | .settle i =>
    match w.calls[i]? with
    | some ⟨claim,some outcome,false⟩ =>
      { w with
        db := commit (settleCall w.db claim outcome) w.db
        calls := w.calls.set i ⟨claim,some outcome,true⟩ }
    | _ => w

def reach (versions : List ℕ) (as : List Action) : World := Run.exec step as (initial versions)

def utc : Timezone where
  name := "UTC"
  zone := .utc

/-- One firing at one o'clock on the first representable day. -/
def once (policy : MisfirePolicy) : ScheduleSpec where
  scheduleType := .oneTime
  timezone := utc
  startAt := hour
  endAt := none
  recurrence := none
  input := []
  misfirePolicy := policy
  maxCatchUp := 1
  startRepresentable := by decide
  catchUpBounds := by decide
  accepted := by cases policy <;> rfl

def every (r : RecurrenceSpec) : ScheduleSpec where
  scheduleType := .recurring
  timezone := utc
  startAt := hour
  endAt := none
  recurrence := some r
  input := []
  misfirePolicy := .fireOnce
  maxCatchUp := 1
  startRepresentable := by decide
  catchUpBounds := by decide
  accepted := rfl

/-- A statement at time `t` that meets no lock and takes no time. -/
def clock (t : ℤ) : Query := ⟨t,fun _ => 0,fun _ => false⟩

def setUp (spec : ScheduleSpec) : List Action :=
  [.createSchedule ⟨"nightly",0,spec,"system"⟩,.activateSchedule 0]

variable {db db' : Db} {row : ScheduleRow} {reason : String} {o : OccurrenceRow}

theorem transitionSchedule_ok {next : ScheduleRow} {target : ScheduleState} {source : Source}
    (h : transitionSchedule db row target reason source = .ok (db',next)) :
    target ∈ row.state.targets ∧
      next = { row with state := target, revision := row.revision+1 } ∧
      db' = (db.putSchedule next).logSchedule row.id (some row.state) target reason source := by
  simp only [transitionSchedule,requireScheduleTransition,bind_ok,require_ok,pure_ok,
    Prod.mk.injEq] at h
  obtain ⟨_,ht,rfl,rfl⟩ := h
  exact ⟨ht,rfl,rfl⟩

theorem logOccurrence_ok {id : ℕ} {previous : Option OccurrenceState} {target : OccurrenceState}
    {source : Source} (h : db.logOccurrence id previous target reason source = .ok db') :
    ∃ o, db.occurrenceRow id = some o ∧
      db' = db.log ⟨o.scheduleId,.occurrence id previous target,reason,source,none⟩ := by
  simp only [Db.logOccurrence,bind_ok,present_ok,pure_ok] at h
  obtain ⟨o,ho,rfl⟩ := h
  exact ⟨o,ho,rfl⟩

theorem fencedRow_some {claim : OccurrenceClaim} (h : fencedRow db claim = some o) :
    o ∈ db.occurrences ∧ o.id = claim.occurrence.id ∧ o.state = .claimed ∧
      o.claimOwnerId = some claim.ownerId ∧ o.claimToken = some claim.claimToken := by
  have hp := List.find?_some h
  simp only [Bool.and_eq_true,decide_eq_true_eq] at hp
  exact ⟨List.mem_of_find?_eq_some h,hp.1.1.1,hp.1.1.2,hp.1.2,hp.2⟩

def afterPlan (row : ScheduleRow) (next : Option TemporalSlot) : ScheduleRow :=
  if row.spec.scheduleType = .oneTime then { row with nextFireAt := none, nextLocalTime := none }
  else match next with
    | none => { row with
        nextFireAt := none, nextLocalTime := none, state := .completed,
        revision := row.revision+1 }
    | some slot => { row with
        nextFireAt := some slot.scheduledFor, nextLocalTime := some slot.intendedLocalTime }

/-- The three rows that a plan can leave: a one-time schedule has consumed its
cursor, an exhausted one is completed, any other has moved on. -/
theorem afterPlan_cases (row : ScheduleRow) (next : Option TemporalSlot) :
    (row.spec.scheduleType = .oneTime ∧
      afterPlan row next = { row with nextFireAt := none, nextLocalTime := none }) ∨
    (row.spec.scheduleType ≠ .oneTime ∧ next = none ∧ afterPlan row next = { row with
      nextFireAt := none, nextLocalTime := none, state := .completed,
      revision := row.revision+1 }) ∨
    (row.spec.scheduleType ≠ .oneTime ∧ ∃ slot, next = some slot ∧ afterPlan row next = { row with
      nextFireAt := some slot.scheduledFor, nextLocalTime := some slot.intendedLocalTime }) := by
  unfold afterPlan
  split_ifs with ht
  · exact .inl ⟨ht,rfl⟩
  · cases next with
    | none => exact .inr (.inl ⟨ht,rfl,rfl⟩)
    | some slot => exact .inr (.inr ⟨ht,slot,rfl,rfl⟩)

theorem afterPlan_id (row : ScheduleRow) (next : Option TemporalSlot) :
    (afterPlan row next).id = row.id := by
  rcases afterPlan_cases row next with ⟨-,he⟩ | ⟨-,-,he⟩ | ⟨-,_,-,he⟩ <;> rw [he]

theorem afterPlan_spec (row : ScheduleRow) (next : Option TemporalSlot) :
    (afterPlan row next).spec = row.spec := by
  rcases afterPlan_cases row next with ⟨-,he⟩ | ⟨-,-,he⟩ | ⟨-,_,-,he⟩ <;> rw [he]

variable {next : Option TemporalSlot}

theorem afterPlan_cursor {t : ℤ}
    (h : (afterPlan row next).nextLocalTime = some t) :
    ∃ f, next = some f ∧ f.intendedLocalTime = t := by
  rcases afterPlan_cases row next with ⟨-,he⟩ | ⟨-,-,he⟩ | ⟨-,slot,hn,he⟩ <;> rw [he] at h
  · cases h
  · cases h
  · exact ⟨slot,hn,Option.some.inj h⟩

theorem afterPlan_exhausted
    (h : (afterPlan row next).state ≠ row.state) :
    row.spec.scheduleType ≠ .oneTime ∧ next = none ∧ (afterPlan row next).state = .completed := by
  rcases afterPlan_cases row next with ⟨-,he⟩ | ⟨ht,hn,he⟩ | ⟨-,_,-,he⟩
  · rw [he] at h
    exact absurd rfl h
  · exact ⟨ht,hn,by rw [he]⟩
  · rw [he] at h
    exact absurd rfl h

theorem afterPlan_revision (row : ScheduleRow) (next : Option TemporalSlot) :
    (afterPlan row next).revision = row.revision+1 ∧ (afterPlan row next).nextLocalTime = none ∨
      (afterPlan row next).revision = row.revision := by
  rcases afterPlan_cases row next with ⟨-,he⟩ | ⟨-,-,he⟩ | ⟨-,_,-,he⟩ <;> rw [he]
  · exact .inr rfl
  · exact .inl ⟨rfl,rfl⟩
  · exact .inr rfl

def keyOf (row : ScheduleRow) (slot : TemporalSlot) : OccurrenceKey :=
  ⟨slot.fold,slot.intendedLocalTime,row.id,row.revision,row.spec.timezone.name⟩

/-- The occurrences of a selection, numbered from a first identifier on. -/
def occurrencesFrom (row : ScheduleRow) : ℕ → List Selected → List OccurrenceRow
  | _, [] => []
  | n, s::ss => newOccurrence row s.slot (keyOf row s.slot) s.state s.reason n ::
      occurrencesFrom row (n+1) ss

theorem map_occurrencesFrom {α : Type} {f : OccurrenceRow → α} {g : Selected → α}
    (h : ∀ s n, f (newOccurrence row s.slot (keyOf row s.slot) s.state s.reason n) = g s) (n : ℕ)
    (ss : List Selected) : (occurrencesFrom row n ss).map f = ss.map g := by
  induction ss generalizing n with
  | nil => rfl
  | cons _ _ ih => rw [occurrencesFrom,List.map_cons,List.map_cons,h,ih]

theorem length_occurrencesFrom (row : ScheduleRow) (n : ℕ) (ss : List Selected) :
    (occurrencesFrom row n ss).length = ss.length := by
  induction ss generalizing n with
  | nil => rfl
  | cons _ _ ih => simp [occurrencesFrom,ih]

theorem mem_occurrencesFrom {n : ℕ} {ss : List Selected} (h : o ∈ occurrencesFrom row n ss) :
    n ≤ o.id ∧ o.id < n+ss.length ∧ ∃ s ∈ ss,
      o = newOccurrence row s.slot (keyOf row s.slot) s.state s.reason o.id := by
  induction ss generalizing n with
  | nil => simp [occurrencesFrom] at h
  | cons s _ ih =>
    rcases List.mem_cons.mp h with rfl | h
    · exact ⟨le_rfl,by simp [newOccurrence],s,by simp,rfl⟩
    · obtain ⟨_,_,t,ht,ho⟩ := ih h
      refine ⟨by omega,?_,t,by simp [ht],ho⟩
      simp only [List.length_cons]
      omega

theorem ids_occurrencesFrom (row : ScheduleRow) (n : ℕ) (ss : List Selected) :
    ((occurrencesFrom row n ss).map (fun o => o.id)).Nodup := by
  induction ss generalizing n with
  | nil => simp [occurrencesFrom]
  | cons _ _ ih =>
    simp only [occurrencesFrom,List.map_cons,List.nodup_cons]
    refine ⟨?_,ih (n+1)⟩
    intro h
    obtain ⟨o,ho,hid⟩ := List.mem_map.mp h
    have := (mem_occurrencesFrom ho).1
    simp only [newOccurrence] at hid
    omega

/-- No row of the history reports an occurrence leaving CLAIMED. -/
def KeepsClaims (hs : List HistoryRow) : Prop :=
  ∀ h ∈ hs, ∀ id target, h.transition ≠ .occurrence id (some .claimed) target

theorem addOccurrence_ok {s : Selected}
    (h : addOccurrence db row s.slot s.state s.reason = .ok (db',o)) :
    o = newOccurrence row s.slot (keyOf row s.slot) s.state s.reason db.fresh ∧
      ∃ hs, KeepsClaims hs ∧ db' = { db with
        occurrences := db.occurrences++[o], history := db.history++hs, fresh := db.fresh+1 } := by
  simp only [addOccurrence,buildOccurrenceKey,bind_ok,require_ok,pure_ok,Prod.mk.injEq] at h
  obtain ⟨_,⟨_,_,_,_,rfl⟩,_,_,_,_,_,h1,rfl,rfl⟩ := h
  obtain ⟨p,-,rfl⟩ := logOccurrence_ok h1
  refine ⟨rfl,[_],?_,rfl⟩
  intro h hh id target
  rw [List.mem_singleton.mp hh]
  simp

theorem KeepsClaims.append {hs hs' : List HistoryRow} (h : KeepsClaims hs) (h' : KeepsClaims hs') :
    KeepsClaims (hs++hs') := by
  intro x hx
  rcases List.mem_append.mp hx with hx | hx
  · exact h x hx
  · exact h' x hx

theorem addOccurrences_ok {ss : List Selected} {os : List OccurrenceRow}
    (h : addOccurrences row ss db = .ok (db',os)) :
    os = occurrencesFrom row db.fresh ss ∧ ∃ hs, KeepsClaims hs ∧ db' = { db with
      occurrences := db.occurrences++os, history := db.history++hs,
      fresh := db.fresh+ss.length } := by
  induction ss generalizing db os with
  | nil =>
    simp only [addOccurrences,Except.ok.injEq,Prod.mk.injEq] at h
    obtain ⟨rfl,rfl⟩ := h
    exact ⟨rfl,[],by simp [KeepsClaims],by simp⟩
  | cons _ _ ih =>
    simp only [addOccurrences,bind_ok,pure_ok,Prod.mk.injEq] at h
    obtain ⟨⟨_,o⟩,h1,⟨_,_⟩,h2,rfl,rfl⟩ := h
    obtain ⟨rfl,hs1,hk1,rfl⟩ := addOccurrence_ok h1
    obtain ⟨rfl,hs2,hk2,rfl⟩ := ih h2
    refine ⟨rfl,hs1++hs2,hk1.append hk2,?_⟩
    simp only [List.append_assoc,List.singleton_append,List.length_cons,Db.mk.injEq,true_and]
    omega

theorem recordMisfireAccounting_ok {omitted : List TemporalSlot}
    (h : recordMisfireAccounting db row omitted reason = .ok db') :
    ∃ hs, KeepsClaims hs ∧ db' = { db with history := db.history++hs } := by
  unfold recordMisfireAccounting at h
  split at h
  · simp only [bind_ok,require_ok] at h
    obtain ⟨_,_,_,_,h⟩ := h
    split_ifs at h
    · rw [pure_ok] at h
      exact ⟨[],by simp [KeepsClaims],by simp [← h]⟩
    · rw [pure_ok] at h
      refine ⟨_,?_,h.symm⟩
      intro x hx id target
      rw [List.mem_singleton.mp hx]
      simp
  · rw [pure_ok] at h
    exact ⟨[],by simp [KeepsClaims],by simp [← h]⟩

theorem moveCursor_ok (h : moveCursor db row next = .ok db') :
    ∃ hs, KeepsClaims hs ∧ db' = { db.putSchedule (afterPlan row next) with
      history := db.history++hs } := by
  unfold moveCursor at h
  unfold afterPlan
  split_ifs at h ⊢ with ht
  · rw [pure_ok] at h
    exact ⟨[],by simp [KeepsClaims],by simp [← h,Db.putSchedule]⟩
  · cases next with
    | none =>
      simp only [bind_ok,pure_ok] at h
      obtain ⟨⟨_,_⟩,h1,rfl⟩ := h
      obtain ⟨-,rfl,rfl⟩ := transitionSchedule_ok h1
      refine ⟨[_],?_,rfl⟩
      intro x hx id target
      rw [List.mem_singleton.mp hx]
      simp
    | some =>
      simp only [pure_ok] at h
      exact ⟨[],by simp [KeepsClaims],by simp [← h,Db.putSchedule]⟩

theorem applyPlan_ok {plan : Plan} {os : List OccurrenceRow}
    (h : applyPlan row plan db = .ok (db',os)) :
    os = occurrencesFrom row db.fresh plan.selected ∧ ∃ hs, KeepsClaims hs ∧ db' = { db with
      schedules := Table.put ScheduleRow.id (afterPlan row plan.next) db.schedules
      occurrences := db.occurrences++os
      history := db.history++hs
      fresh := db.fresh+plan.selected.length } := by
  simp only [applyPlan,bind_ok,pure_ok,Prod.mk.injEq] at h
  obtain ⟨⟨_,_⟩,h1,_,h2,_,h3,rfl,rfl⟩ := h
  obtain ⟨rfl,hs1,hk1,rfl⟩ := addOccurrences_ok h1
  obtain ⟨hs2,hk2,rfl⟩ := recordMisfireAccounting_ok h2
  obtain ⟨hs3,hk3,rfl⟩ := moveCursor_ok h3
  refine ⟨rfl,hs1++hs2++hs3,(hk1.append hk2).append hk3,?_⟩
  simp [Db.putSchedule]

def cancelPendingOf (scheduleId : ℕ) (o : OccurrenceRow) : OccurrenceRow :=
  if o.scheduleId = scheduleId ∧ o.state = .pending then { o with state := .cancelled } else o

/-- The schedule row that settling one of its occurrences leaves. -/
def afterSettling (row : ScheduleRow) : ScheduleRow :=
  if row.spec.scheduleType = .oneTime ∧ row.state = .active then
    { row with state := .completed, revision := row.revision+1 }
  else row

inductive Label where
  | create
  | edit (id : ℕ)
  | activate (id : ℕ)
  | pause (id : ℕ)
  | resume (id : ℕ)
  | cancel (id : ℕ)
  | materialize (row : ScheduleRow) (plan : Plan)
  | cancelOccurrence (id : ℕ)
  | claim (claim : OccurrenceClaim)
  | attempt (claim : OccurrenceClaim)
  | start (run : RunRow)
  | settle (claim : OccurrenceClaim) (settled : OccurrenceRow)

inductive Effect : Label → Db → Db → Prop
  | create {db : Db} {row : ScheduleRow} {hs : List HistoryRow} (fresh : row.id = db.fresh)
      (draft : row.state = .draft) (noFire : row.nextFireAt = none)
      (noLocal : row.nextLocalTime = none) (first : row.revision = 1) (quiet : KeepsClaims hs) :
      Effect .create db { db with
        schedules := db.schedules++[row], history := db.history++hs, fresh := db.fresh+1 }
  | edit {db : Db} {row : ScheduleRow} {spec : ScheduleSpec}
      (found : db.scheduleRow row.id = some row)
      (editable : row.state = .draft ∨ row.state = .paused)
      (sameType : spec.scheduleType = row.spec.scheduleType) :
      Effect (.edit row.id) db (db.putSchedule { row with
        spec := spec, revision := row.revision+1, nextFireAt := none, nextLocalTime := none })
  | activate {db : Db} {row : ScheduleRow} {slot : TemporalSlot} {hs : List HistoryRow}
      (found : db.scheduleRow row.id = some row) (draft : row.state = .draft)
      (first : firstSlot row.spec.startAt row.spec.timezone.zone row.spec.recurrence = .ok slot)
      (inWindow : ∀ e ∈ row.spec.endAt, slot.scheduledFor ≤ e) (quiet : KeepsClaims hs) :
      Effect (.activate row.id) db { db.putSchedule { row with
        nextFireAt := some slot.scheduledFor, nextLocalTime := some slot.intendedLocalTime,
        state := .active, revision := row.revision+1 } with history := db.history++hs }
  | pause {db : Db} {row : ScheduleRow} {hs : List HistoryRow}
      (found : db.scheduleRow row.id = some row) (active : row.state = .active)
      (quiet : KeepsClaims hs) :
      Effect (.pause row.id) db { db.putSchedule { row with
        state := .paused, revision := row.revision+1 } with history := db.history++hs }
  | resume {db : Db} {row next : ScheduleRow} {hs : List HistoryRow}
      (found : db.scheduleRow row.id = some row) (paused : row.state = .paused)
      (cursor : withCursor row = .ok next) (quiet : KeepsClaims hs) :
      Effect (.resume row.id) db { db.putSchedule { next with
        state := .active, revision := next.revision+1 } with history := db.history++hs }
  | cancel {db : Db} {row : ScheduleRow} {hs : List HistoryRow}
      (found : db.scheduleRow row.id = some row)
      (allowed : ScheduleState.cancelled ∈ row.state.targets) (quiet : KeepsClaims hs) :
      Effect (.cancel row.id) db { db.putSchedule { row with
        state := .cancelled, revision := row.revision+1 } with
          occurrences := db.occurrences.map (cancelPendingOf row.id), history := db.history++hs }
  | materialize {db : Db} {row : ScheduleRow} {plan : Plan} {now : ℤ} {remaining : ℕ}
      {hs : List HistoryRow} (found : db.scheduleRow row.id = some row)
      (active : row.state = .active) (fires : row.nextFireAt.isSome)
      (open_ : 0 < remaining) (planned : planRow row now remaining = .ok plan)
      (quiet : KeepsClaims hs) :
      Effect (.materialize row plan) db { db with
        schedules := Table.put ScheduleRow.id (afterPlan row plan.next) db.schedules
        occurrences := db.occurrences++occurrencesFrom row db.fresh plan.selected
        history := db.history++hs
        fresh := db.fresh+plan.selected.length }
  | cancelOccurrence {db : Db} {o : OccurrenceRow} {hs : List HistoryRow}
      (found : o ∈ db.occurrences) (pending : o.state = .pending) (quiet : KeepsClaims hs) :
      Effect (.cancelOccurrence o.id) db { db.putOccurrence { o with state := .cancelled } with
        history := db.history++hs }
  | claim {db : Db} {row : ScheduleRow} {o : OccurrenceRow} {owner : ℕ} {hs : List HistoryRow}
      (found : o ∈ db.occurrences) (pending : o.state = .pending)
      (schedule : db.scheduleRow row.id = some row) (active : row.state = .active)
      (owns : o.scheduleId = row.id) (quiet : KeepsClaims hs) :
      Effect (.claim ⟨{ o with
          state := .claimed, claimOwnerId := some owner, claimToken := some db.fresh },
          owner,db.fresh,o.workflowInput⟩) db
        { db.putOccurrence { o with
            state := .claimed, claimOwnerId := some owner, claimToken := some db.fresh } with
          history := db.history++hs, fresh := db.fresh+1 }
  | attempt {db : Db} {claim : OccurrenceClaim} {o : OccurrenceRow}
      (fenced : fencedRow db claim = some o) :
      Effect (.attempt claim) db
        (db.putOccurrence { o with dispatchAttemptCount := o.dispatchAttemptCount+1 })
  | start {db : Db} {run : RunRow} (fresh : run.id = db.fresh)
      (absent : runByIdempotency db run.versionId run.idempotencyKey = none) :
      Effect (.start run) db { db with runs := db.runs++[run], fresh := db.fresh+1 }
  | settle {db : Db} {claim : OccurrenceClaim} {row : ScheduleRow} {o settled : OccurrenceRow}
      {hs : List HistoryRow} (reason : String) (schedule : db.scheduleRow row.id = some row)
      (fenced : fencedRow db claim = some o) (owns : o.scheduleId = row.id)
      (same : settled.toOccurrenceSnapshot = o.toOccurrenceSnapshot)
      (owner : settled.claimOwnerId = o.claimOwnerId) (token : settled.claimToken = o.claimToken)
      (target : settled.state = .dispatched ∨ settled.state = .failed) (quiet : KeepsClaims hs) :
      Effect (.settle claim settled) db
        { (db.putOccurrence settled).putSchedule (afterSettling row) with
        history := db.history++⟨row.id,.occurrence o.id (some .claimed) settled.state,reason,
          .worker,none⟩::hs }

end NexusAi.Scheduler
