import NexusAi.Scheduler.Keys
import NexusAi.Scheduler.RecurrenceGrid

/-!
# Schedules of one batch

A batch is one transaction, so a recurrence search that raises takes the work
of all other due schedules with it. Apart from the identifiers that it hands
out, a batch does for each schedule what a batch of that schedule alone does,
exactly if the searches that raise are those that it does not come to.
-/

namespace NexusAi.Scheduler
open NexusAi.Checked

def Query.only (q : Query) (sid : ℕ) : Query :=
  { q with locked := fun i => q.locked i || i ≠ sid }

def OccurrenceRow.anonymous (o : OccurrenceRow) : OccurrenceRow :=
  { o with id := 0, p14IdempotencyKey := ⟨o.scheduleId,0⟩ }

abbrev Footprint := Option ScheduleRow × List OccurrenceRow

/-- The row of a schedule, cursor included, and its occurrences. -/
def Db.footprint (db : Db) (sid : ℕ) : Footprint :=
  (db.scheduleRow sid,(db.occurrencesOf sid).map OccurrenceRow.anonymous)

/-- All due schedules in the order in which a batch takes them. -/
def dueRows (db : Db) (now : ℤ) : List ScheduleRow :=
  (db.schedules.filter (isDue (clock now))).insertionSort (fun a b => dueBefore a b)

def searchFails (row : ScheduleRow) (now : ℤ) : Bool :=
  match elapsedSlots row now with
  | .ok _ => false
  | .error _ => true

/-- The number of occurrences that a schedule yields within a limit. -/
def yield (now : ℤ) (limit : ℕ) (row : ScheduleRow) : ℕ :=
  match planRow row now limit with
  | .ok plan => plan.selected.length
  | .error _ => 0

/-- The rows that a batch comes to before its limit is spent. -/
def served (now : ℤ) (limit : ℕ) : List ScheduleRow → ℕ → List ScheduleRow
  | [], _ => []
  | row::rows, spent =>
    if limit ≤ spent then [] else row::served now limit rows (spent+yield now limit row)

/-- Every due schedule comes out as if it were the only one. -/
def Isolated (db : Db) (now : ℤ) (limit : ℕ) : Prop :=
  ∀ row ∈ dueRows db now,
    (commit (materializeDue db (clock now) limit) db).footprint row.id =
      (commit (materializeDue db ((clock now).only row.id) limit) db).footprint row.id

/-- The limit is refused, or all searches raise, or exactly those do that the
batch does not come to. -/
def FailuresUnserved (db : Db) (now : ℤ) (limit : ℕ) : Prop :=
  ¬ (1 ≤ limit ∧ limit ≤ maxBatch) ∨ (∀ row ∈ dueRows db now, searchFails row now) ∨
    ∀ row ∈ dueRows db now, searchFails row now ↔
      row ∉ served now limit ((dueRows db now).take limit) 0

variable {rows : List ScheduleRow} {spent : ℕ} {plan : Plan}

variable {now : ℤ} {limit : ℕ} {row : ScheduleRow}

theorem served_subset
    (h : row ∈ served now limit rows spent) : row ∈ rows := by
  induction rows generalizing spent with
  | nil => cases h
  | cons _ _ ih =>
    unfold served at h
    split_ifs at h
    · cases h
    · rcases List.mem_cons.mp h with rfl | h
      · exact List.mem_cons_self ..
      · exact List.mem_cons_of_mem _ (ih h)

theorem searchFails_false :
    searchFails row now = false ↔ ∃ slots, elapsedSlots row now = .ok slots := by
  unfold searchFails
  cases elapsedSlots row now with
  | ok | error => simp

theorem yield_ok (h : planRow row now limit = .ok plan) :
    yield now limit row = plan.selected.length := by
  rw [yield,h]

theorem planRow_served
    (hsum : spent+yield now limit row ≤ limit) (h : searchFails row now = false) :
    ∃ plan, planRow row now limit = .ok plan ∧ planRow row now (limit-spent) = .ok plan ∧
      yield now limit row = plan.selected.length := by
  obtain ⟨plan,hplan⟩ := planRow_isOk.mpr (searchFails_false.mp h)
  have hy := yield_ok hplan
  exact ⟨plan,hplan,planRow_room hplan (Nat.sub_le _ _) (by omega),hy⟩

theorem planRows_served
    (hsum : spent+(rows.map (yield now limit)).sum ≤ limit)
    (h : ∀ row ∈ served now limit rows spent, searchFails row now = false) :
    ∃ plans, planRows now rows (limit-spent) = .ok plans ∧
      plans.map Prod.fst = served now limit rows spent ∧
      ∀ p ∈ plans, planRow p.1 now limit = .ok p.2 := by
  induction rows generalizing spent with
  | nil => exact ⟨[],rfl,rfl,by simp⟩
  | cons row rows ih =>
    simp only [List.map_cons,List.sum_cons] at hsum
    by_cases hs : limit ≤ spent
    · have h0 : limit-spent = 0 := by omega
      exact ⟨[],by simp [planRows,h0],by simp [served,hs],by simp⟩
    · simp only [served,if_neg hs] at h ⊢
      have hfit : spent+yield now limit row ≤ limit := by omega
      obtain ⟨plan,hplan,hroom,hy⟩ := planRow_served hfit (h row (by simp))
      obtain ⟨plans,hps,hfst,hall⟩ := ih
        (show spent+yield now limit row+(rows.map (yield now limit)).sum ≤ limit by omega)
        (fun r hr => h r (by simp [hr]))
      refine ⟨(row,plan)::plans,?_,by simp [hfst],?_⟩
      · have h0 : limit-spent ≠ 0 := by omega
        simp only [planRows,if_neg h0,bind_ok,pure_ok]
        refine ⟨plan,hroom,plans,?_,rfl⟩
        rw [← hy,Nat.sub_sub]
        exact hps
      · intro p hp
        rcases List.mem_cons.mp hp with rfl | hp
        · exact hplan
        · exact hall p hp

theorem served_of_planRows {plans : List (ScheduleRow × Plan)}
    (hsum : spent+(rows.map (yield now limit)).sum ≤ limit)
    (h : planRows now rows (limit-spent) = .ok plans) :
    ∀ row ∈ served now limit rows spent, searchFails row now = false := by
  induction rows generalizing spent plans with
  | nil => simp [served]
  | cons row _ ih =>
    simp only [List.map_cons,List.sum_cons] at hsum
    by_cases hs : limit ≤ spent
    · simp [served,hs]
    · have h0 : limit-spent ≠ 0 := by omega
      simp only [planRows,if_neg h0,bind_ok,pure_ok] at h
      obtain ⟨plan,hplan,_,hrest,-⟩ := h
      have hf := searchFails_false.mpr (planRow_isOk.mp ⟨plan,hplan⟩)
      have hfit : spent+yield now limit row ≤ limit := by omega
      obtain ⟨plan',-,hroom,hy⟩ := planRow_served hfit hf
      obtain rfl : plan = plan' := Except.ok.inj (hplan.symm.trans hroom)
      rw [← hy,Nat.sub_sub] at hrest
      simp only [served,if_neg hs]
      intro r hr
      rcases List.mem_cons.mp hr with rfl | hr
      · exact hf
      · exact ih (by omega) hrest r hr

def stamp (row : ScheduleRow) (s : Selected) : OccurrenceRow :=
  (newOccurrence row s.slot (keyOf row s.slot) s.state s.reason 0).anonymous

def Footprint.after (f : Footprint) (row : ScheduleRow) (plan : Plan) : Footprint :=
  (some (afterPlan row plan.next),f.2++plan.selected.map (stamp row))

theorem applyPlan_footprint {db db' : Db} {os : List OccurrenceRow} {row : ScheduleRow}
    {plan : Plan} (hrow : db.scheduleRow row.id = some row)
    (h : applyPlan row plan db = .ok (db',os)) :
    db'.footprint row.id = (db.footprint row.id).after row plan ∧
      ∀ sid, row.id ≠ sid → db'.footprint sid = db.footprint sid := by
  obtain ⟨rfl,_,-,rfl⟩ := applyPlan_ok h
  have hput := scheduleRow_put hrow (afterPlan_id row plan.next)
  have hnew := occurrencesOf_new row db.fresh plan.selected
  simp only [Db.footprint,Db.occurrencesOf,List.filter_append,hnew,List.map_append,
    Footprint.after]
  constructor
  · rw [if_pos trivial,map_occurrencesFrom (g := stamp row) (fun _ _ => rfl)]
    exact congrArg (·,_) ((hput _).trans (if_pos rfl))
  · intro sid hne
    rw [if_neg hne,List.map_nil,List.append_nil]
    exact congrArg (·,_) ((hput sid).trans (if_neg hne))

theorem applyPlans_footprint {plans : List (ScheduleRow × Plan)} {db db' : Db}
    {os : List OccurrenceRow} (hx : Executable db now plans)
    (h : applyPlans plans db = .ok (db',os)) :
    (∀ p ∈ plans, db'.footprint p.1.id = (db.footprint p.1.id).after p.1 p.2) ∧
      ∀ sid, sid ∉ plans.map (fun p => p.1.id) → db'.footprint sid = db.footprint sid :=
  applyPlans_view Db.footprint (fun row plan f f' => f' = f.after row plan) applyPlan_footprint hx h

theorem after_ne {db : Db} {now t : ℤ} {room : ℕ}
    (hrow : db.scheduleRow row.id = some row) (active : row.state = .active)
    (hfire : row.nextFireAt = some t) (hdue : t ≤ now) (h : planRow row now room = .ok plan) :
    (db.footprint row.id).after row plan ≠ db.footprint row.id := by
  intro he
  have hrows : afterPlan row plan.next = row := by
    have := congrArg Prod.fst he
    simp only [Footprint.after,Db.footprint,hrow] at this
    exact Option.some.inj this
  obtain ⟨_,hslots,-,-⟩ := planRow_slots h
  have hfuture := (elapsedSlots_future hslots).1
  rcases afterPlan_cases row plan.next with ⟨-,hp⟩ | ⟨-,-,hp⟩ | ⟨-,f,hf,hp⟩ <;> rw [hp] at hrows
  · have hcursor := congrArg ScheduleRow.nextFireAt hrows
    rw [hfire] at hcursor
    cases hcursor
  · have hstate := congrArg ScheduleRow.state hrows
    rw [active] at hstate
    cases hstate
  · have hcursor := congrArg ScheduleRow.nextFireAt hrows
    rw [hfire] at hcursor
    have hgt := hfuture f hf
    have he := Option.some.inj hcursor
    omega

section Batches

variable {db : Db} {now : ℤ} {limit : ℕ} {row : ScheduleRow}

theorem mem_dueRows : row ∈ dueRows db now ↔ row ∈ db.schedules ∧ row.state = .active ∧
    ∃ t, row.nextFireAt = some t ∧ t ≤ now := by
  rw [dueRows,List.mem_insertionSort,List.mem_filter,isDue_iff]
  simp [clock]

theorem due_alone (hs : db.Sound) (hrow : row ∈ dueRows db now) (hlimit : 1 ≤ limit) :
    dueScheduleRows db ((clock now).only row.id) limit = [row] := by
  obtain ⟨hm,hactive,t,ht,hle⟩ := mem_dueRows.mp hrow
  have hone : db.schedules.filter (isDue ((clock now).only row.id)) = [row] := by
    rw [← Table.filter_key hs.schedulesKeyed hm]
    apply List.filter_congr
    intro r hr
    by_cases hid : r.id = row.id
    · obtain rfl : r = row := Table.mem_unique hs.schedulesKeyed hr hm hid
      simp [isDue,Query.only,clock,hactive,ht,hle]
    · simp [isDue,Query.only,clock,hid]
  rw [dueScheduleRows,hone]
  exact List.take_of_length_le hlimit

theorem batch_applied (hs : db.Sound) (hk : ∀ sid l, db.life sid = some l → l.Keyed)
    (hlimit : 1 ≤ limit ∧ limit ≤ maxBatch) {q : Query} {plans : List (ScheduleRow × Plan)}
    (h : planRows q.now (dueScheduleRows db q limit) limit = .ok plans) :
    ∃ os, applyPlans plans db = .ok (commit (materializeDue db q limit) db,os) := by
  obtain ⟨⟨db',os⟩,happly⟩ := applyPlans_total hs hk (executable_due hs h)
  have hok : materializeDue db q limit = .ok (db',os) := by
    simp only [materializeDue,bind_ok,require_ok]
    exact ⟨(),hlimit,materializeRows_ok.mpr ⟨plans,h,happly⟩⟩
  exact ⟨os,by rw [hok]; exact happly⟩

theorem batch_raised {q : Query}
    (h : ∀ plans, planRows q.now (dueScheduleRows db q limit) limit ≠ .ok plans) :
    commit (materializeDue db q limit) db = db := by
  rcases commit_cases (materializeDue db q limit) db with ⟨⟨_,_⟩,hok,-⟩ | he
  · obtain ⟨plans,hp,-⟩ := materializeDue_ok hok
    exact absurd hp (h plans)
  · exact he

theorem alone_planned (hs : db.Sound) (hk : ∀ sid l, db.life sid = some l → l.Keyed)
    (hlimit : 1 ≤ limit ∧ limit ≤ maxBatch) (hrow : row ∈ dueRows db now) {plan : Plan}
    (h : planRow row now limit = .ok plan) :
    (commit (materializeDue db ((clock now).only row.id) limit) db).footprint row.id =
      (db.footprint row.id).after row plan := by
  have hdue := due_alone hs hrow hlimit.1
  have hplans : planRows ((clock now).only row.id).now
      (dueScheduleRows db ((clock now).only row.id) limit) limit = .ok [(row,plan)] := by
    have h0 : limit ≠ 0 := by omega
    rw [hdue]
    simp only [planRows,if_neg h0,bind_ok,pure_ok]
    exact ⟨plan,h,[],rfl,rfl⟩
  obtain ⟨_,happly⟩ := batch_applied hs hk hlimit hplans
  exact (applyPlans_footprint (executable_due hs hplans) happly).1 (row,plan) (by simp)

theorem alone_raised (hs : db.Sound) (hlimit : 1 ≤ limit) (hrow : row ∈ dueRows db now)
    (h : searchFails row now) :
    (commit (materializeDue db ((clock now).only row.id) limit) db).footprint row.id =
      db.footprint row.id := by
  rw [batch_raised]
  intro plans hp
  have h0 : limit ≠ 0 := by omega
  rw [due_alone hs hrow hlimit] at hp
  simp only [planRows,if_neg h0,bind_ok,pure_ok] at hp
  obtain ⟨plan,hplan,-⟩ := hp
  have hok : searchFails row now = false := searchFails_false.mpr (planRow_isOk.mp ⟨plan,hplan⟩)
  rw [hok] at h
  cases h

theorem batch_serves (hs : db.Sound) (hk : ∀ sid l, db.life sid = some l → l.Keyed)
    (hlimit : 1 ≤ limit ∧ limit ≤ maxBatch)
    (hsum : ((dueRows db now).map (yield now limit)).sum ≤ limit)
    (h : ∀ row ∈ served now limit ((dueRows db now).take limit) 0, searchFails row now = false)
    (hrow : row ∈ dueRows db now) :
    (row ∈ served now limit ((dueRows db now).take limit) 0 →
      ∃ plan, planRow row now limit = .ok plan ∧
        (commit (materializeDue db (clock now) limit) db).footprint row.id =
          (db.footprint row.id).after row plan) ∧
    (row ∉ served now limit ((dueRows db now).take limit) 0 →
      (commit (materializeDue db (clock now) limit) db).footprint row.id =
        db.footprint row.id) := by
  have htake : 0+(((dueRows db now).take limit).map (yield now limit)).sum ≤ limit := by
    rw [Nat.zero_add]
    exact (List.Sublist.sum_le_sum ((List.take_sublist _ _).map _) (by simp)).trans hsum
  obtain ⟨_,hplans,hfst,hall⟩ := planRows_served htake h
  have hx := executable_due hs (q := clock now) hplans
  obtain ⟨_,happly⟩ := batch_applied hs hk hlimit (q := clock now) hplans
  obtain ⟨hin,hout⟩ := applyPlans_footprint hx happly
  constructor
  · intro hserved
    rw [← hfst] at hserved
    obtain ⟨p,hp,rfl⟩ := List.mem_map.mp hserved
    exact ⟨p.2,hall p hp,hin p hp⟩
  · intro hserved
    refine hout _ fun hin => hserved ?_
    obtain ⟨p,hp,hid⟩ := List.mem_map.mp hin
    have hfound := (hx.rows p hp).1
    have hself := Table.find_of_mem hs.schedulesKeyed (mem_dueRows.mp hrow).1
    rw [hid] at hfound
    obtain rfl : p.1 = row := Option.some.inj (hfound.symm.trans hself)
    rw [← hfst]
    exact List.mem_map_of_mem hp

theorem batch_fails (hsum : ((dueRows db now).map (yield now limit)).sum ≤ limit)
    (hrow : row ∈ served now limit ((dueRows db now).take limit) 0)
    (h : searchFails row now) : commit (materializeDue db (clock now) limit) db = db := by
  have htake : 0+(((dueRows db now).take limit).map (yield now limit)).sum ≤ limit := by
    rw [Nat.zero_add]
    exact (List.Sublist.sum_le_sum ((List.take_sublist _ _).map _) (by simp)).trans hsum
  apply batch_raised
  intro plans hplans
  rw [served_of_planRows htake hplans row hrow] at h
  cases h

section

variable (hs : db.Sound) (hk : ∀ sid l, db.life sid = some l → l.Keyed)

include hs hk

theorem alone_changes (hlimit : 1 ≤ limit ∧ limit ≤ maxBatch) (hrow : row ∈ dueRows db now)
    (h : searchFails row now = false) :
    (commit (materializeDue db ((clock now).only row.id) limit) db).footprint row.id ≠
      db.footprint row.id := by
  obtain ⟨hm,hactive,t,ht,hle⟩ := mem_dueRows.mp hrow
  obtain ⟨_,hplan⟩ := planRow_isOk.mpr (searchFails_false.mp h)
  rw [alone_planned hs hk hlimit hrow hplan]
  exact after_ne (Table.find_of_mem hs.schedulesKeyed hm) hactive ht hle hplan

theorem isolated_of_failures (hsum : ((dueRows db now).map (yield now limit)).sum ≤ limit)
    (h : FailuresUnserved db now limit) : Isolated db now limit := by
  intro row hrow
  by_cases hlimit : 1 ≤ limit ∧ limit ≤ maxBatch
  · rcases h with h | hall | hiff
    · exact absurd hlimit h
    · rw [alone_raised hs hlimit.1 hrow (hall row hrow)]
      obtain ⟨first,_,hrows⟩ := List.exists_cons_of_ne_nil (List.ne_nil_of_mem hrow)
      have hserved : first ∈ served now limit ((dueRows db now).take limit) 0 := by
        obtain ⟨n,rfl⟩ : ∃ n, limit = n+1 := ⟨limit-1,by omega⟩
        simp [hrows,served]
      rw [batch_fails hsum hserved (hall first (by simp [hrows]))]
    · have hok : ∀ r ∈ served now limit ((dueRows db now).take limit) 0,
          searchFails r now = false := by
        intro r hr
        by_contra hc
        exact (hiff r (List.mem_of_mem_take (served_subset hr))).mp (by simpa using hc) hr
      obtain ⟨hin,hout⟩ := batch_serves hs hk hlimit hsum hok hrow
      by_cases hserved : row ∈ served now limit ((dueRows db now).take limit) 0
      · obtain ⟨_,hplan,hbatch⟩ := hin hserved
        rw [hbatch,alone_planned hs hk hlimit hrow hplan]
      · rw [hout hserved,alone_raised hs hlimit.1 hrow ((hiff row hrow).mpr hserved)]
  · have hrefuse : ∀ q, commit (materializeDue db q limit) db = db := by
      intro q
      rcases commit_cases (materializeDue db q limit) db with ⟨⟨_,_⟩,hok,-⟩ | he
      · simp only [materializeDue,bind_ok,require_ok] at hok
        obtain ⟨_,hl,-⟩ := hok
        exact absurd hl hlimit
      · exact he
    rw [hrefuse,hrefuse]

theorem failures_of_isolated (hsum : ((dueRows db now).map (yield now limit)).sum ≤ limit)
    (h : Isolated db now limit) : FailuresUnserved db now limit := by
  by_cases hlimit : 1 ≤ limit ∧ limit ≤ maxBatch
  · by_cases hall : ∀ row ∈ dueRows db now, searchFails row now
    · exact .inr (.inl hall)
    · push Not at hall
      obtain ⟨sane,hsane,hok⟩ := hall
      have hserved : ∀ row ∈ served now limit ((dueRows db now).take limit) 0,
          searchFails row now = false := by
        intro row hrow
        by_contra hc
        have hiso := h sane hsane
        rw [batch_fails hsum hrow (by simpa using hc)] at hiso
        exact alone_changes hs hk hlimit hsane (by simpa using hok) hiso.symm
      refine .inr (.inr fun row hrow => ⟨?_,?_⟩)
      · intro hf hin
        rw [hserved row hin] at hf
        cases hf
      · intro hout
        by_contra hc
        have hiso := h row hrow
        rw [(batch_serves hs hk hlimit hsum hserved hrow).2 hout] at hiso
        exact alone_changes hs hk hlimit hrow (by simpa using hc) hiso.symm
  · exact .inl hlimit

end

end Batches

/-- In every reachable database and for every limit that the due schedules do
not exceed, a batch isolates them exactly if the searches that raise are those
that it does not come to, or all of them. -/
theorem isolated_iff (versions : List ℕ) (as : List Action) (now : ℤ) (limit : ℕ)
    (hsum : ((dueRows (reach versions as).db now).map (yield now limit)).sum ≤ limit) :
    Isolated (reach versions as).db now limit ↔
      FailuresUnserved (reach versions as).db now limit :=
  have hs := (reach_sound versions as).db
  have hk := reach_keyed versions as
  ⟨failures_of_isolated hs hk hsum,isolated_of_failures hs hk hsum⟩

/-- The first of every sixty-first month, beyond the horizon of the search. -/
def sparse : RecurrenceSpec where
  frequency := .monthly
  interval := 61
  weekdays := []
  monthDays := [1]
  localTime := some ⟨Calendar.hour,false,by decide⟩
  intervalBounds := by decide
  weekdayBounds := hourly.weekdayBounds
  monthDayBounds := by decide
  accepted := rfl

def beside (spec other : ScheduleSpec) : List Action :=
  setUp spec++[.createSchedule ⟨"weekly",0,other,"system"⟩,.activateSchedule 1]

theorem healthy_isolated :
    ((dueRows (reach [0] (beside (once .skip) (once .fireOnce))).db (2*Calendar.hour)).map
      (yield (2*Calendar.hour) 100)).sum ≤ 100 ∧
    (Isolated (reach [0] (beside (once .skip) (once .fireOnce))).db (2*Calendar.hour) 100 ↔
      FailuresUnserved (reach [0] (beside (once .skip) (once .fireOnce))).db
        (2*Calendar.hour) 100) :=
  have h : ((dueRows (reach [0] (beside (once .skip) (once .fireOnce))).db
      (2*Calendar.hour)).map (yield (2*Calendar.hour) 100)).sum ≤ 100 := by decide +kernel
  ⟨h,isolated_iff [0] _ _ _ h⟩

/-- The search of the sparse schedule raises and keeps the one beside it from
its occurrence. -/
theorem sparse_not_isolated :
    ((dueRows (reach [0] (beside (every sparse) (once .fireOnce))).db (2*Calendar.hour)).map
      (yield (2*Calendar.hour) 100)).sum ≤ 100 ∧
    ¬ Isolated (reach [0] (beside (every sparse) (once .fireOnce))).db (2*Calendar.hour) 100 := by
  refine ⟨by decide +kernel,?_⟩
  intro h
  have hrow : ∃ row ∈ dueRows (reach [0] (beside (every sparse) (once .fireOnce))).db
      (2*Calendar.hour), row.id = 1 := by decide +kernel
  obtain ⟨row,hm,hid⟩ := hrow
  have hlen := congrArg (fun f : Footprint => f.2.length) (h row hm)
  rw [hid] at hlen
  exact absurd hlen (by decide +kernel)

end NexusAi.Scheduler
