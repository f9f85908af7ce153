import NexusAi.Scheduler.RecurrenceGrid
import NexusAi.Scheduler.Worlds

/-!
# Every elapsed slot is accounted for

A schedule stores the instant and the reading of its next slot, and both agree on every
reading that the zone shows. `Elapses` says which slots have elapsed since the cursor, by the
readings that `advance` leads to. They are split into a run that gets occurrences and a run
that one record of the history counts, unless the search for the next slot passes over one:
it does so where a skipped reading has come to the instant of a later one.
-/

namespace NexusAi.Scheduler
open NexusAi.Checked NexusAi.Calendar NexusAi.Zones

def cursorSlot (z : Zone) (fireAt localTime : ℤ) : TemporalSlot :=
  ⟨localTime,fireAt,z.offsetAt fireAt,0,decide (z.wall fireAt ≠ localTime)⟩

def ScheduleRow.current (row : ScheduleRow) : Option TemporalSlot :=
  match row.nextFireAt, row.nextLocalTime with
  | some fireAt, some localTime => some (cursorSlot row.spec.timezone.zone fireAt localTime)
  | _, _ => none

def ScheduleRow.storing (row : ScheduleRow) (s : TemporalSlot) : ScheduleRow :=
  { row with nextFireAt := some s.scheduledFor, nextLocalTime := some s.intendedLocalTime }

variable {due : List TemporalSlot} {future : Option TemporalSlot}

theorem elapsedSlots_ok {row : ScheduleRow} {now : ℤ}
    (h : elapsedSlots row now = .ok (due,future)) :
    (∃ s, row.current = some s ∧ elapsedFrom now row.spec maxSearchSteps s = .ok (due,future)) ∨
      row.current = none ∧ due = [] ∧ future = none := by
  simp only [elapsedSlots,ScheduleRow.current] at h ⊢
  cases hf : row.nextFireAt <;> cases hl : row.nextLocalTime <;> simp only [hf,hl] at h ⊢
  case some.some fireAt localTime =>
    simp only [bind_ok,inRange_ok] at h
    obtain ⟨_,⟨-,rfl⟩,h⟩ := h
    exact .inl ⟨_,rfl,h⟩
  all_goals
    simp only [Except.ok.injEq,Prod.mk.injEq] at h
    exact .inr ⟨trivial,h.1.symm,h.2.symm⟩

variable {s : TemporalSlot}

theorem elapsedSlots_storing {row : ScheduleRow}
    (hwall : Representable (row.spec.timezone.zone.wall s.scheduledFor)) (now : ℤ) :
    elapsedSlots (row.storing s) now = elapsedFrom now row.spec maxSearchSteps
      (cursorSlot row.spec.timezone.zone s.scheduledFor s.intendedLocalTime) := by
  simp only [elapsedSlots,ScheduleRow.storing,cursorSlot]
  rw [inRange_ok.mpr ⟨hwall,rfl⟩]
  rfl

theorem cursorSlot_slotOf (z : Zone) (l : ℤ) :
    cursorSlot z (z.earliest l) l = slotOf z l ↔ ¬ z.InGap l := by
  constructor
  · intro heq hg
    have hoff : z.offsetAt (z.earliest l) = z.foldOffset l :=
      congrArg TemporalSlot.utcOffsetSeconds heq
    apply z.wall_ne_of_gap hg (z.earliest l)
    rw [z.wall_def,hoff,z.earliest_def]
    exact sub_add_cancel _ _
  · intro hg
    have hback := z.wall_earliest_of_not_gap hg
    have hoff : z.offsetAt (z.earliest l) = z.foldOffset l := by
      rw [z.wall_def,z.earliest_def] at hback
      simp only [shift,z.earliest_def] at hback ⊢
      omega
    simp only [cursorSlot,slotOf,hback,hoff]

def Found (z : Zone) (s : TemporalSlot) : Prop :=
  (∃ startAt recurrence, firstSlot startAt z recurrence = .ok s) ∨
    ∃ previous after r, nextSlot previous after z r = .ok s

theorem Found.resolved {z : Zone} (h : Found z s) :
    resolveLocal s.intendedLocalTime z = .ok s := by
  rcases h with ⟨_,recurrence,h⟩ | ⟨_,_,r,h⟩
  · cases recurrence with
    | none =>
      simp only [firstSlot,bind_ok] at h
      obtain ⟨_,-,h⟩ := h
      have hs := (resolveLocal_ok.mp h).2.2
      rw [← hs] at h ⊢
      exact h
    | some => exact firstSlot_ok h
  · exact (nextSlot_ok h).2.2

/-- A schedule that stores a slot as its cursor goes on from this very slot exactly if
the zone does not skip its reading. -/
theorem storing_resumes_iff (row : ScheduleRow) (s : TemporalSlot)
    (hs : Found row.spec.timezone.zone s) :
    ((row.storing s).current = some s ∧
      ∀ now, elapsedSlots (row.storing s) now = elapsedFrom now row.spec maxSearchSteps s) ↔
      ¬ row.spec.timezone.zone.InGap s.intendedLocalTime := by
  obtain ⟨-,hwall,hslot⟩ := resolveLocal_ok.mp hs.resolved
  have hat : s.scheduledFor = row.spec.timezone.zone.earliest s.intendedLocalTime := by
    rw [← hslot]
    rfl
  have hiff := cursorSlot_slotOf row.spec.timezone.zone s.intendedLocalTime
  rw [hslot,← hat] at hiff
  constructor
  · rintro ⟨hcurrent,-⟩
    exact hiff.mp (Option.some.inj hcurrent)
  · intro hg
    have heq := hiff.mpr hg
    refine ⟨congrArg some heq,?_⟩
    intro now
    rw [elapsedSlots_storing (hat ▸ hwall),heq]

def halfPast (h : ℤ) : ℤ := (⟨2026,3,8⟩ : Date).number*day+h*hour+30*minute

theorem halfPastSix_representable : Representable (halfPast 6) := by decide

/-- Hourly at half past, through the night of 8 March 2026. -/
def hourlyNight : ScheduleSpec :=
  { every hourly with
    timezone := ⟨"America/New_York",newYork⟩, startAt := halfPast 6
    startRepresentable := halfPastSix_representable, accepted := rfl }

def throughTheNight : ScheduleRow where
  id := 0
  scheduleKey := "nightly"
  workflowVersionId := 0
  spec := hourlyNight
  nextFireAt := none
  nextLocalTime := none
  state := .active
  revision := 1
  timezoneDataVersion := "system"

theorem halfPastOne_resumes :
    ¬ newYork.InGap (halfPast 1) ∧
      (throughTheNight.storing (slotOf newYork (halfPast 1))).current =
        some (slotOf newYork (halfPast 1)) := by
  have hgap : ¬ newYork.InGap (halfPast 1) := by
    simp only [Zone.InGap,newYork,Zones.InGap]
    decide
  have hfound : Found newYork (slotOf newYork (halfPast 1)) :=
    .inl ⟨halfPast 6,none,by decide +kernel⟩
  exact ⟨hgap,((storing_resumes_iff throughTheNight _ hfound).mpr hgap).1⟩

/-- 02:30 is skipped. The search gives its slot the offset from before the change and
the cursor gives it the offset from after it. -/
theorem halfPastTwo_changes :
    nextSlot (halfPast 1) (halfPast 6) newYork hourly = .ok (slotOf newYork (halfPast 2)) ∧
      (slotOf newYork (halfPast 2)).utcOffsetSeconds = -18000 ∧
      ∃ s future, elapsedSlots (throughTheNight.storing (slotOf newYork (halfPast 2)))
          (halfPast 7) = .ok ([s],some future) ∧
        s.utcOffsetSeconds = -14400 ∧ s ≠ slotOf newYork (halfPast 2) :=
  ⟨by decide +kernel,by decide +kernel,cursorSlot newYork (halfPast 7) (halfPast 2),
    slotOf newYork (halfPast 4),by decide +kernel,by decide +kernel,by decide +kernel⟩

/-- A slot of the grid from a slot on: itself, or that of a reading to which `advance` leads. -/
def OnGrid (spec : ScheduleSpec) (s t : TemporalSlot) : Prop :=
  t = s ∨ ∃ r n l, spec.recurrence = some r ∧ t = slotOf spec.timezone.zone l ∧
    (slotWalk spec.timezone.zone r).reach (n+1) s.intendedLocalTime = .ok l

/-- The slot has come, and not after the end of the schedule. -/
def Come (now : ℤ) (spec : ScheduleSpec) (s : TemporalSlot) : Prop :=
  s.scheduledFor ≤ now ∧ ∀ e ∈ spec.endAt, s.scheduledFor ≤ e

/-- The slots of the grid that have elapsed, in the order of their readings. -/
structure Elapses (now : ℤ) (spec : ScheduleSpec) (s : TemporalSlot)
    (slots : List TemporalSlot) : Prop where
  ordered : (slots.map TemporalSlot.intendedLocalTime).Pairwise (· < ·)
  exact : ∀ t, t ∈ slots ↔ OnGrid spec s t ∧ Come now spec t

/-- An elapsed slot of the grid is later than the cursor and than every slot with a skipped
reading before its own. -/
def SkipsClear (now : ℤ) (spec : ScheduleSpec) (s : TemporalSlot) : Prop :=
  ∀ t t', OnGrid spec s t → OnGrid spec s t' → t.intendedLocalTime < t'.intendedLocalTime →
    t = s ∨ spec.timezone.zone.InGap t.intendedLocalTime → Come now spec t' →
    t.scheduledFor < t'.scheduledFor

section Grid

variable {now : ℤ} {spec : ScheduleSpec} {t next : TemporalSlot} {r : RecurrenceSpec} {n : ℕ}

theorem OnGrid.ahead (h : OnGrid spec s t) : t = s ∨ s.intendedLocalTime < t.intendedLocalTime := by
  refine h.imp_right ?_
  rintro ⟨r,n,l,-,rfl,hl⟩
  have hle := reach_add_le hl
  simp only [minute] at hle
  push_cast at hle
  show s.intendedLocalTime < l
  linarith

theorem OnGrid.trans {u : TemporalSlot} (h : OnGrid spec s t) (h' : OnGrid spec t u) :
    OnGrid spec s u := by
  rcases h' with rfl | ⟨r,m,l',hr,rfl,hl'⟩
  · exact h
  rcases h with rfl | ⟨_,n,l,hr',rfl,hl⟩
  · exact .inr ⟨r,m,l',hr,rfl,hl'⟩
  · cases hr.symm.trans hr'
    refine .inr ⟨r,n+1+m,l',hr,rfl,?_⟩
    rw [add_assoc,Walk.reach_add,hl]
    exact hl'

/-- The search passes over the slots of the grid that are not later than the last one. -/
theorem nextSlot_grid (hr : spec.recurrence = some r)
    (h : nextSlot s.intendedLocalTime s.scheduledFor spec.timezone.zone r = .ok next) :
    OnGrid spec s next ∧ s.scheduledFor < next.scheduledFor ∧
      ∀ t, OnGrid spec s t → t.scheduledFor ≤ s.scheduledFor ∨ OnGrid spec next t := by
  obtain ⟨k,-,⟨l,hl,hnext⟩,hgt,hpassed⟩ := Walk.search_ok.mp h
  obtain ⟨-,-,rfl⟩ := resolveLocal_ok.mp hnext
  refine ⟨.inr ⟨r,k,l,hr,rfl,hl⟩,hgt,?_⟩
  rintro t (rfl | ⟨_,n,l',hr',rfl,hl'⟩)
  · exact .inl le_rfl
  cases hr.symm.trans hr'
  rcases lt_trichotomy n k with hlt | rfl | hlt
  · obtain ⟨_,_,hl'',hu,hle⟩ := hpassed n hlt
    cases hl'.symm.trans hl''
    obtain ⟨-,-,rfl⟩ := resolveLocal_ok.mp hu
    exact .inl (not_lt.mp hle)
  · cases hl.symm.trans hl'
    exact .inr (.inl rfl)
  · obtain ⟨d,rfl⟩ := Nat.exists_eq_add_of_lt hlt
    rw [show k+d+1+1 = k+1+(d+1) by omega,Walk.reach_add,hl] at hl'
    exact .inr (.inr ⟨r,d,l',hr,rfl,hl'⟩)

/-- The walk takes elapsed slots only, each later than all slots of the grid before it. -/
theorem elapsedFrom_records (h : elapsedFrom now spec n s = .ok (due,future)) :
    ∀ t' ∈ due, OnGrid spec s t' ∧ Come now spec t' ∧ ∀ t, OnGrid spec s t →
      t.intendedLocalTime < t'.intendedLocalTime → t.scheduledFor < t'.scheduledFor := by
  have here {s t : TemporalSlot} (ht : OnGrid spec s t)
      (hlt : t.intendedLocalTime < s.intendedLocalTime) : t.scheduledFor < s.scheduledFor := by
    rcases ht.ahead with rfl | hle
    · exact absurd hlt (lt_irrefl _)
    · exact absurd hlt hle.not_gt
  refine elapsedFrom_rule (by simp) (by simp) ?_ ?_ h
  · intro s come inside _ t' ht'
    cases List.mem_singleton.mp ht'
    exact ⟨.inl rfl,⟨come,inside⟩,fun t => here⟩
  · intro s r next due future come inside recurs follows ih t' ht'
    obtain ⟨hnext,hgt,hpassed⟩ := nextSlot_grid recurs follows
    rcases List.mem_cons.mp ht' with rfl | ht'
    · exact ⟨.inl rfl,⟨come,inside⟩,fun t => here⟩
    obtain ⟨hgrid,hcome,hrecord⟩ := ih t' ht'
    refine ⟨hnext.trans hgrid,hcome,fun t ht hlt => ?_⟩
    rcases hpassed t ht with hle | hlater
    · refine (hle.trans_lt hgt).trans_le ?_
      rcases hgrid.ahead with rfl | hbefore
      · exact le_rfl
      · exact (hrecord next (.inl rfl) hbefore).le
    · exact hrecord t hlater hlt

/-- Where the instants grow with the readings, the walk takes every elapsed slot. -/
theorem elapsedFrom_all (h : elapsedFrom now spec n s = .ok (due,future))
    (hgrow : ∀ t t', OnGrid spec s t → OnGrid spec s t' →
      t.intendedLocalTime < t'.intendedLocalTime → Come now spec t' →
      t.scheduledFor < t'.scheduledFor) : ∀ t, OnGrid spec s t → Come now spec t → t ∈ due := by
  revert hgrow
  refine elapsedFrom_rule ?_ ?_ ?_ ?_ h
  · intro s later hgrow t ht hcome
    have hle := hcome.1
    rcases ht.ahead with rfl | hlt
    · omega
    · have := hgrow s t (.inl rfl) ht hlt hcome
      omega
  · intro s e he past hgrow t ht hcome
    have hle := hcome.2 e he
    rcases ht.ahead with rfl | hlt
    · omega
    · have := hgrow s t (.inl rfl) ht hlt hcome
      omega
  · intro s _ _ single _ t ht _
    rcases ht with rfl | ⟨_,_,_,hr,-⟩
    · exact List.mem_singleton_self t
    · cases single.symm.trans hr
  · intro s r next due future _ _ recurs follows ih hgrow t ht hcome
    obtain ⟨hnext,-,hpassed⟩ := nextSlot_grid recurs follows
    rcases ht.ahead with rfl | hlt
    · exact List.mem_cons_self
    rcases hpassed t ht with hle | hlater
    · exact absurd hle (hgrow s t (.inl rfl) ht hlt hcome).not_ge
    · refine List.mem_cons_of_mem s (ih ?_ t hlater hcome)
      exact fun t t' ht ht' => hgrow t t' (hnext.trans ht) (hnext.trans ht')

theorem elapsedFrom_iff (h : elapsedFrom now spec n s = .ok (due,future)) :
    Elapses now spec s due ↔ SkipsClear now spec s := by
  constructor
  · intro helapses t t' ht ht' hlt _ hcome
    obtain ⟨-,-,hrecord⟩ := elapsedFrom_records h t' ((helapses.exact t').mpr ⟨ht',hcome⟩)
    exact hrecord t ht hlt
  · intro hclear
    refine ⟨(elapsedFrom_order h).1,fun t => ⟨fun ht => ?_,fun ⟨ht,hcome⟩ => ?_⟩⟩
    · obtain ⟨hgrid,hcome,-⟩ := elapsedFrom_records h t ht
      exact ⟨hgrid,hcome⟩
    · refine elapsedFrom_all h (fun t t' ht ht' hlt hcome => ?_) t ht hcome
      by_cases hearly : t = s ∨ spec.timezone.zone.InGap t.intendedLocalTime
      · exact hclear t t' ht ht' hlt hearly hcome
      · obtain ⟨hne,hshown⟩ := not_or.mp hearly
        obtain ⟨_,_,_,-,rfl,-⟩ := ht.resolve_left hne
        rcases ht' with rfl | ⟨_,_,_,-,rfl,-⟩
        · exact absurd hlt (ht.ahead.resolve_left hne).not_gt
        · exact spec.timezone.zone.earliest_strict hshown hlt

end Grid

variable {now : ℤ} {row : ScheduleRow} {room : ℕ} {plan : Plan} {plans : List (ScheduleRow × Plan)}
  {db db' : Db} {os : List OccurrenceRow}

/-- What has elapsed for a schedule: nothing if no cursor is set. -/
def ScheduleRow.Elapsed (row : ScheduleRow) (now : ℤ) (slots : List TemporalSlot) : Prop :=
  match row.current with
  | some s => Elapses now row.spec s slots
  | none => slots = []

theorem elapsedSlots_iff (h : elapsedSlots row now = .ok (due,future)) :
    row.Elapsed now due ↔ ∀ s ∈ row.current, SkipsClear now row.spec s := by
  unfold ScheduleRow.Elapsed
  rcases elapsedSlots_ok h with ⟨s,hs,hdue⟩ | ⟨hs,hdue,-⟩ <;> rw [hs]
  · simpa using elapsedFrom_iff hdue
  · simp [hdue]

/-- The two runs of the elapsed slots. The latest slots are kept, or the oldest ones
for catching up. -/
structure Divided (spec : ScheduleSpec) (slots kept omitted : List TemporalSlot) : Prop where
  skip : spec.misfirePolicy = .skip → slots = omitted++kept ∧ (slots ≠ [] → kept ≠ [])
  fireOnce : spec.misfirePolicy = .fireOnce →
    slots = omitted++kept ∧ kept = slots.getLast?.toList
  catchUp : spec.misfirePolicy = .catchUpBounded →
    slots = kept++omitted ∧ kept.length ≤ spec.maxCatchUp

theorem divide_divided (spec : ScheduleSpec) (hroom : 0 < room) (slots : List TemporalSlot) :
    Divided spec slots (divide spec room slots).1 (divide spec room slots).2 ∧
      (divide spec room slots).1.length ≤ room := by
  cases hp : spec.misfirePolicy with
  | skip =>
    simp only [divide,hp]
    refine ⟨⟨fun _ => ⟨(List.take_append_drop _ _).symm,?_⟩,by simp [hp],by simp [hp]⟩,?_⟩
    · intro hne hnil
      have hlen := List.length_pos_of_ne_nil hne
      have := List.drop_eq_nil_iff.mp hnil
      omega
    · rw [List.length_drop]
      omega
  | fireOnce =>
    simp only [divide,hp]
    refine ⟨⟨by simp [hp],fun _ => ⟨(List.take_append_drop _ _).symm,?_⟩,by simp [hp]⟩,?_⟩
    · rcases List.eq_nil_or_concat slots with rfl | ⟨_,s,rfl⟩ <;> simp
    · rw [List.length_drop]
      omega
  | catchUpBounded =>
    simp only [divide,hp]
    refine ⟨⟨by simp [hp],by simp [hp],fun _ => ⟨(List.take_append_drop _ _).symm,?_⟩⟩,?_⟩
    all_goals
      rw [List.length_take]
      omega

theorem Divided.unique {spec : ScheduleSpec} {slots slots' kept omitted : List TemporalSlot}
    (h : Divided spec slots kept omitted) (h' : Divided spec slots' kept omitted) :
    slots = slots' := by
  cases hp : spec.misfirePolicy with
  | skip => exact (h.skip hp).1.trans (h'.skip hp).1.symm
  | fireOnce => exact (h.fireOnce hp).1.trans (h'.fireOnce hp).1.symm
  | catchUpBounded => exact (h.catchUp hp).1.trans (h'.catchUp hp).1.symm

theorem planRow_divided (hroom : 0 < room) (h : planRow row now room = .ok plan) :
    (∃ slots, elapsedSlots row now = .ok (slots,plan.next) ∧
      Divided row.spec slots (plan.selected.map Selected.slot) plan.omitted) ∧
    plan.selected.length ≤ room ∧ ∀ f ∈ plan.next, now < f.scheduledFor := by
  simp only [planRow,bind_ok,pure_ok] at h
  obtain ⟨⟨slots,_⟩,hslots,rfl⟩ := h
  obtain ⟨hdiv,hlen⟩ := divide_divided row.spec hroom slots
  have hid : Selected.slot ∘ disposition row.spec.misfirePolicy = id :=
    funext fun s => disposition_slot _ s
  refine ⟨⟨slots,hslots,?_⟩,?_,(elapsedSlots_future hslots).1⟩
  · simpa only [List.map_map,hid,List.map_id] using hdiv
  · simpa using hlen

theorem planRows_budget {rows : List ScheduleRow} (h : planRows now rows room = .ok plans) :
    ∃ waiting, rows = plans.map Prod.fst++waiting ∧
      (plans.map fun p => p.2.selected.length).sum ≤ room ∧
      (waiting ≠ [] → (plans.map fun p => p.2.selected.length).sum = room) := by
  induction rows generalizing room plans with
  | nil =>
    cases h
    exact ⟨[],by simp⟩
  | cons row rows ih =>
    simp only [planRows] at h
    split_ifs at h with h0
    · cases h
      exact ⟨row::rows,by simp [h0]⟩
    · simp only [bind_ok,pure_ok] at h
      obtain ⟨_,hp,_,hr,rfl⟩ := h
      obtain ⟨waiting,rfl,_,heq⟩ := ih hr
      have hfit := (planRow_divided (Nat.pos_of_ne_zero h0) hp).2.1
      simp only [List.map_cons,List.sum_cons]
      refine ⟨waiting,rfl,by omega,?_⟩
      intro hw
      have := heq hw
      omega

def Db.accounts (db : Db) (sid : ℕ) : List MisfireDetail :=
  (db.history.filter fun h => h.scheduleId = sid).filterMap HistoryRow.detail

def summary (row : ScheduleRow) (omitted : List TemporalSlot) : List MisfireDetail :=
  match omitted.head?, omitted.getLast? with
  | some first, some last => [misfireDetail row omitted.length first last]
  | _, _ => []

theorem accounts_log (db : Db) (h : HistoryRow) (sid : ℕ) :
    (db.log h).accounts sid =
      db.accounts sid++if h.scheduleId = sid then h.detail.toList else [] := by
  simp only [Db.accounts,Db.log,List.filter_append,List.filterMap_append]
  by_cases hsid : h.scheduleId = sid
  · cases hd : h.detail <;> simp [hsid,hd]
  · simp [hsid]

theorem accounts_addOccurrences {ss : List Selected} (h : addOccurrences row ss db = .ok (db',os))
    (sid : ℕ) : db'.accounts sid = db.accounts sid := by
  induction ss generalizing db os with
  | nil =>
    cases h
    rfl
  | cons _ _ ih =>
    simp only [addOccurrences,bind_ok,pure_ok,Prod.mk.injEq] at h
    obtain ⟨⟨_,o⟩,h1,⟨_,_⟩,h2,rfl,-⟩ := h
    rw [ih h2]
    simp only [addOccurrence,bind_ok,require_ok,pure_ok,Prod.mk.injEq] at h1
    obtain ⟨_,-,-,-,-,-,_,hlog,rfl,-⟩ := h1
    obtain ⟨p,-,rfl⟩ := logOccurrence_ok hlog
    rw [accounts_log]
    simp [Db.accounts]

theorem accounts_moveCursor {next : Option TemporalSlot} (h : moveCursor db row next = .ok db')
    (sid : ℕ) : db'.accounts sid = db.accounts sid := by
  unfold moveCursor at h
  split_ifs at h
  · cases h
    rfl
  · cases next with
    | none =>
      simp only [bind_ok,pure_ok] at h
      obtain ⟨⟨_,_⟩,h1,rfl⟩ := h
      obtain ⟨-,-,rfl⟩ := transitionSchedule_ok h1
      rw [Db.logSchedule,accounts_log]
      simp [Db.accounts,Db.putSchedule]
    | some =>
      cases h
      rfl

theorem accounts_record {omitted : List TemporalSlot} {reason : String}
    (h : recordMisfireAccounting db row omitted reason = .ok db') :
    ∃ added, added.Sublist (summary row omitted) ∧ summary row omitted ⊆ db'.accounts row.id ∧
      ∀ sid, db'.accounts sid = db.accounts sid++if row.id = sid then added else [] := by
  unfold recordMisfireAccounting at h
  split at h
  · rename_i first last hfirst hlast
    have hs : summary row omitted = [misfireDetail row omitted.length first last] := by
      simp [summary,hfirst,hlast]
    rw [hs]
    simp only [bind_ok,require_ok] at h
    obtain ⟨-,-,-,-,h⟩ := h
    split_ifs at h with hdup
    · cases h
      obtain ⟨x,hx,hsid,-,hdetail⟩ := hdup
      refine ⟨[],by simp,?_,by simp⟩
      simp only [List.cons_subset,List.nil_subset,and_true,Db.accounts,List.mem_filterMap,
        List.mem_filter]
      exact ⟨x,⟨hx,by simpa using hsid⟩,hdetail⟩
    · cases h
      refine ⟨_,List.Sublist.refl _,?_,fun sid => accounts_log ..⟩
      rw [accounts_log]
      simp
  · cases h
    exact ⟨[],by simp,by simp_all [summary],by simp⟩

structure View where
  row : Option ScheduleRow
  occurrences : List OccurrenceRow
  accounts : List MisfireDetail

def Db.view (db : Db) (sid : ℕ) : View := ⟨db.scheduleRow sid,db.occurrencesOf sid,db.accounts sid⟩

structure Took (row : ScheduleRow) (plan : Plan) (v v' : View) : Prop where
  moved : v'.row = some (afterPlan row plan.next)
  created : ∃ n, v'.occurrences = v.occurrences++occurrencesFrom row n plan.selected
  counted : ∃ added, added.Sublist (summary row plan.omitted) ∧
    summary row plan.omitted ⊆ v'.accounts ∧ v'.accounts = v.accounts++added

theorem applyPlan_took (hfound : db.scheduleRow row.id = some row)
    (h : applyPlan row plan db = .ok (db',os)) : Took row plan (db.view row.id) (db'.view row.id) ∧
      ∀ sid, row.id ≠ sid → db'.view sid = db.view sid := by
  have hrows : ∀ sid, db'.scheduleRow sid =
      if row.id = sid then some (afterPlan row plan.next) else db.scheduleRow sid := by
    obtain ⟨-,_,-,rfl⟩ := applyPlan_ok h
    exact scheduleRow_put hfound (afterPlan_id row plan.next)
  have hoccs : ∀ sid, db'.occurrencesOf sid = db.occurrencesOf sid++
      if row.id = sid then occurrencesFrom row db.fresh plan.selected else [] := by
    obtain ⟨rfl,_,-,rfl⟩ := applyPlan_ok h
    intro sid
    rw [Db.occurrencesOf,List.filter_append,occurrencesOf_new]
    rfl
  simp only [applyPlan,bind_ok,pure_ok,Prod.mk.injEq] at h
  obtain ⟨⟨_,_⟩,h1,_,h2,db3,h3,rfl,-⟩ := h
  obtain ⟨added,hadded,_,haccounts⟩ := accounts_record h2
  have hkept : ∀ sid, db3.accounts sid = db.accounts sid++if row.id = sid then added else [] := by
    intro sid
    rw [accounts_moveCursor h3,haccounts,accounts_addOccurrences h1]
  refine ⟨⟨?_,⟨db.fresh,?_⟩,added,hadded,?_,?_⟩,?_⟩
  · simp [Db.view,hrows]
  · simp [Db.view,hoccs]
  · rwa [Db.view,accounts_moveCursor h3]
  · simp [Db.view,hkept]
  · intro sid hne
    simp [Db.view,hrows,hoccs,hkept,hne]

theorem applyPlans_length (h : applyPlans plans db = .ok (db',os)) :
    os.length = (plans.map fun p => p.2.selected.length).sum := by
  induction plans generalizing db os with
  | nil =>
    cases h
    rfl
  | cons _ _ ih =>
    obtain ⟨_,_,_,ha,hr,rfl⟩ := applyPlans_cons h
    rw [List.length_append,applyPlan_length ha,ih hr]
    rfl

def OccurrenceRow.place (o : OccurrenceRow) : ℤ × ℤ × ℤ × ℕ :=
  (o.intendedLocalTime,o.scheduledFor,o.utcOffsetSeconds,o.fold)

def TemporalSlot.place (s : TemporalSlot) : ℤ × ℤ × ℤ × ℕ :=
  (s.intendedLocalTime,s.scheduledFor,s.utcOffsetSeconds,s.fold)

/-- Each kept slot of a schedule has an occurrence, the omitted ones are counted by their
record, and the cursor is past the present. -/
structure Accounted (now : ℤ) (row : ScheduleRow) (kept omitted : List TemporalSlot)
    (v v' : View) : Prop where
  occurrences : ∃ os, v'.occurrences = v.occurrences++os ∧
    os.map OccurrenceRow.place = kept.map TemporalSlot.place
  records : ∃ added, added.Sublist (summary row omitted) ∧ summary row omitted ⊆ v'.accounts ∧
    v'.accounts = v.accounts++added
  cursor : ∃ next, v'.row = some next ∧ ∀ t ∈ next.nextFireAt, now < t

theorem afterPlan_ahead {next : Option TemporalSlot} (h : ∀ f ∈ next, now < f.scheduledFor) :
    ∀ t ∈ (afterPlan row next).nextFireAt, now < t := by
  rcases afterPlan_cases row next with ⟨-,he⟩ | ⟨-,-,he⟩ | ⟨-,slot,rfl,he⟩ <;> rw [he]
  · simp
  · simp
  · simpa using h slot rfl

theorem Took.accounted {v v' : View} (h : Took row plan v v') (hroom : 0 < room)
    (hplan : planRow row now room = .ok plan) :
    ∃ kept omitted, Accounted now row kept omitted v v' ∧
      ((∃ slots, row.Elapsed now slots ∧ Divided row.spec slots kept omitted) ↔
        ∀ s ∈ row.current, SkipsClear now row.spec s) := by
  obtain ⟨⟨due,hdue,hdivided⟩,-,hnext⟩ := planRow_divided hroom hplan
  obtain ⟨n,hcreated⟩ := h.created
  refine ⟨plan.selected.map Selected.slot,plan.omitted,
    ⟨⟨_,hcreated,?_⟩,h.counted,_,h.moved,afterPlan_ahead hnext⟩,?_⟩
  · rw [List.map_map]
    exact map_occurrencesFrom (fun _ _ => rfl) n plan.selected
  · rw [← elapsedSlots_iff hdue]
    constructor
    · rintro ⟨slots,helapsed,hslots⟩
      exact hslots.unique hdivided ▸ helapsed
    · exact fun helapsed => ⟨due,helapsed,hdivided⟩

/-- A batch that commits handles the due schedules in order, as far as its limit reaches, and
leaves every other schedule as it was. What it creates and counts for a schedule are exactly
the slots that have elapsed, if and only if no skipped reading gets in the way of one. -/
theorem batch_accounts (versions : List ℕ) (as : List Action) (q : Query) (limit : ℕ) (db' : Db)
    (created : List OccurrenceRow)
    (h : materializeDue (reach versions as).db q limit = .ok (db',created)) :
    ∃ done waiting, dueScheduleRows (reach versions as).db q limit = done++waiting ∧
      (∀ row ∈ done, ∃ kept omitted, Accounted q.now row kept omitted
          ((reach versions as).db.view row.id) (db'.view row.id) ∧
        ((∃ slots, row.Elapsed q.now slots ∧ Divided row.spec slots kept omitted) ↔
          ∀ s ∈ row.current, SkipsClear q.now row.spec s)) ∧
      (∀ sid, sid ∉ done.map ScheduleRow.id →
        db'.view sid = (reach versions as).db.view sid) ∧
      created.length ≤ limit ∧ (waiting ≠ [] → created.length = limit) := by
  have hs := (reach_sound versions as).db
  obtain ⟨plans,hplans,happly⟩ := materializeDue_ok h
  have hx := executable_due hs hplans
  obtain ⟨waiting,hrows,hle,hfull⟩ := planRows_budget hplans
  obtain ⟨htook,hothers⟩ := applyPlans_view Db.view Took applyPlan_took hx happly
  rw [← applyPlans_length happly] at hle hfull
  refine ⟨plans.map Prod.fst,waiting,hrows,?_,?_,hle,hfull⟩
  · intro row hrow
    obtain ⟨p,hp,rfl⟩ := List.mem_map.mp hrow
    obtain ⟨_,hroom,hplan⟩ := hx.plans p hp
    exact (htook p hp).accounted hroom hplan
  · intro sid hsid
    rw [List.map_map] at hsid
    exact hothers sid hsid

/-- An hourly schedule that was not looked at for three hours. -/
theorem threeHours_account :
    ∃ db' created,
      materializeDue (reach [0] (setUp (every hourly))).db (clock (3*hour)) 2 = .ok (db',created) ∧
      (∃ row ∈ dueScheduleRows (reach [0] (setUp (every hourly))).db (clock (3*hour)) 2,
        ∃ slots kept omitted, row.Elapsed (3*hour) slots ∧ Divided row.spec slots kept omitted) ∧
      (db'.accounts 0).map (·.accountedCount) = [2] := by
  have hok : ((materializeDue (reach [0] (setUp (every hourly))).db (clock (3*hour)) 2).map
      fun r => (r.2.length,(r.1.accounts 0).map (·.accountedCount))) = .ok (1,[2]) := by
    decide +kernel
  have hdue : (dueScheduleRows (reach [0] (setUp (every hourly))).db (clock (3*hour)) 2).map
      (fun row => (row.spec,row.current)) = [(every hourly,some (slotOf utc.zone hour))] := rfl
  cases hr : materializeDue (reach [0] (setUp (every hourly))).db (clock (3*hour)) 2 with
  | error =>
    rw [hr] at hok
    cases hok
  | ok r =>
    obtain ⟨db',created⟩ := r
    rw [hr] at hok
    obtain ⟨hlength,hcount⟩ := Prod.mk.inj (Except.ok.inj hok)
    obtain ⟨done,waiting,hrows,hdone,-,-,hfull⟩ := batch_accounts [0] _ _ _ db' created hr
    have hnone : waiting = [] := by
      by_contra hne
      exact absurd (hlength.symm.trans (hfull hne)) (by decide)
    rw [hnone,List.append_nil] at hrows
    rw [hrows] at hdue ⊢
    obtain ⟨row,rfl,hrow⟩ := List.map_eq_singleton_iff.mp hdue
    obtain ⟨hspec,hcurrent⟩ := Prod.mk.inj hrow
    obtain ⟨kept,omitted,-,hsplit⟩ := hdone row (List.mem_singleton_self row)
    -- UTC has no changes, so an instant is its reading
    have hplain (l : ℤ) : (slotOf utc.zone l).scheduledFor = l := sub_zero l
    obtain ⟨slots,helapsed,hdivided⟩ := hsplit.mpr (by
      rw [hspec,hcurrent]
      rintro _ ⟨⟩ t t' ht ht' hlt (rfl | hgap) _
      · rcases ht' with rfl | ⟨_,_,l,-,rfl,-⟩
        · exact absurd hlt (lt_irrefl _)
        · exact (hplain hour).trans_lt (hlt.trans_eq (hplain l).symm)
      · exact hgap.elim)
    exact ⟨db',created,rfl,⟨row,by simp,slots,kept,omitted,helapsed,hdivided⟩,hcount⟩

/-- Until nine UTC the grid has four slots. 03:30, which exists, is neither created nor
counted, as 02:30 has come to its instant. -/
theorem throughTheNight_loses :
    (materializeDue (reach [0] (setUp hourlyNight)).db (clock (halfPast 8+30*minute)) 1).map
      (fun r => (r.2.map (·.intendedLocalTime),(r.1.accounts 0).map fun d =>
        (d.accountedCount,d.firstOmittedLocalTime,d.lastOmittedLocalTime))) =
      .ok ([halfPast 4],[(2,halfPast 1,halfPast 2)]) ∧
    ((reach [0] (setUp hourlyNight)).db.scheduleRow 0).bind ScheduleRow.current =
      some (slotOf newYork (halfPast 1)) ∧
    ∀ h ∈ [1,2,3,4], OnGrid hourlyNight (slotOf newYork (halfPast 1)) (slotOf newYork (halfPast h)) ∧
      Come (halfPast 8+30*minute) hourlyNight (slotOf newYork (halfPast h)) := by
  refine ⟨by decide +kernel,by decide +kernel,?_⟩
  have hcome : ∀ h ∈ [1,2,3,4], (slotOf newYork (halfPast h)).scheduledFor ≤
      halfPast 8+30*minute := by decide +kernel
  intro h hh
  refine ⟨?_,hcome h hh,by simp [hourlyNight,every]⟩
  simp only [List.mem_cons,List.not_mem_nil,or_false] at hh
  rcases hh with rfl | rfl | rfl | rfl
  · exact .inl rfl
  · exact .inr ⟨hourly,0,_,rfl,rfl,by decide +kernel⟩
  · exact .inr ⟨hourly,1,_,rfl,rfl,by decide +kernel⟩
  · exact .inr ⟨hourly,2,_,rfl,rfl,by decide +kernel⟩

end NexusAi.Scheduler
