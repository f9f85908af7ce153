import NexusAi.Scheduler.Firing
import NexusAi.Scheduler.Misfires

/-!
# The end of a schedule

A schedule is completed by a batch that exhausts it, and by the success and the failure of
a one-time dispatch. None of them looks at the occurrences that are still pending. A slot
passes as long as it is not later than the end of the window, so an occurrence lies before
the end unless a slot falls on the end itself.
-/

namespace NexusAi.Scheduler
open NexusAi.Checked NexusAi.Calendar

section

/-- A pending occurrence belongs to a schedule that is active or paused. -/
structure Life.Backed (l : Life) : Prop where
  draft : l.row.state = .draft → l.occs = []
  pending : ∀ o ∈ l.occs, o.state = .pending → l.row.state = .active ∨ l.row.state = .paused

/-- The walk from the cursor passes the end of the window no later than `now`. -/
def exhausted (row : ScheduleRow) (now : ℤ) : Bool :=
  match elapsedSlots row now with
  | .ok (_,none) => true
  | _ => false

/-- A batch exhausts a recurring schedule only if no pending occurrence of it
is left and none of the slots that its policy picks is to be dispatched. The
dispatch of an active one-time schedule ends only when nothing is pending. -/
def completesLast (w : World) : Action → Bool
  | .materializeDue q limit =>
    match materializeDue w.db q limit, planRows q.now (dueScheduleRows w.db q limit) limit with
    | .ok _, .ok plans => plans.all fun p =>
        p.1.spec.scheduleType == .oneTime || !exhausted p.1 q.now ||
          ((p.1.spec.misfirePolicy == .skip || p.2.selected.all fun s => s.slot.nonexistent) &&
            (w.db.occurrencesOf p.1.id).all fun o => o.state != .pending)
    | _, _ => true
  | .settle i =>
    match w.calls[i]? with
    | some ⟨claim,some _,false⟩ => (fencedRow w.db claim).isNone ||
        match w.db.scheduleRow claim.occurrence.scheduleId with
        | some row => row.spec.scheduleType != .oneTime || row.state != .active ||
            (w.db.occurrencesOf row.id).all fun o => o.state != .pending
        | none => true
    | _ => true
  | _ => true

variable {l : Life} {o : OccurrenceRow} {w : World}

theorem backed_blank (h : l.Blank) : l.Backed := by
  obtain ⟨-,-,-,-,ho⟩ := h
  constructor <;> simp [ho]

theorem backed_put (h : l.Backed) {o' : OccurrenceRow} (ho : o ∈ l.occs)
    (hstate : o'.state ≠ .pending) :
    (⟨l.row,Table.put (fun o => o.id) o' l.occs⟩ : Life).Backed := by
  constructor
  · intro hd
    rw [h.draft hd] at ho
    cases ho
  · intro p hp hpending
    rcases Table.mem_put.mp hp with ⟨-,rfl⟩ | ⟨hp,-⟩
    · exact absurd hpending hstate
    · exact h.pending p hp hpending

theorem settle_schedule (hw : w.Sound) {c : OccurrenceClaim} (hc : c ∈ w.claims)
    (hl : w.db.life l.row.id = some l) (ho : o ∈ l.occs) (hid : o.id = c.occurrence.id) :
    c.occurrence.scheduleId = l.row.id := by
  obtain ⟨-,p,hp,hps,-⟩ := hw.claims c hc
  obtain ⟨ho',hsid⟩ := life_scheduleId hl ho
  have he := Table.mem_unique hw.db.keyed ho' hp
    (hid.trans (congrArg OccurrenceSnapshot.id hps).symm)
  rw [← hsid,he]
  exact (congrArg OccurrenceSnapshot.scheduleId hps).symm

theorem no_pending_of_settle (hw : w.Sound) {i : ℕ} (hok : completesLast w (.settle i))
    {c : OccurrenceClaim} {outcome : Outcome} (hi : w.calls[i]? = some ⟨c,some outcome,false⟩)
    (hf : (fencedRow w.db c).isSome) (hl : w.db.life l.row.id = some l) (ho : o ∈ l.occs)
    (hid : o.id = c.occurrence.id) (htype : l.row.spec.scheduleType = .oneTime)
    (hactive : l.row.state = .active) : ∀ p ∈ l.occs, p.state ≠ .pending := by
  have hsid := settle_schedule hw (hw.calls _ (List.mem_of_getElem? hi)) hl ho hid
  obtain ⟨hrow,hoccs⟩ := life_some.mp hl
  have hnone : (fencedRow w.db c).isNone = false := by
    cases h : fencedRow w.db c with
    | none => simp [h] at hf
    | some => rfl
  simp only [completesLast,hi,hnone,Bool.false_or] at hok
  rw [hsid,hrow] at hok
  simp only [htype,hactive,bne_self_eq_false,Bool.false_or,List.all_eq_true,← hoccs] at hok
  intro p hp
  simpa using hok p hp

theorem no_pending_of_exhaustion {q : Query} {limit : ℕ}
    (hok : completesLast w (.materializeDue q limit)) {r : Db × List OccurrenceRow}
    (hr : materializeDue w.db q limit = .ok r) {plans : List (ScheduleRow × Plan)}
    (hp : planRows q.now (dueScheduleRows w.db q limit) limit = .ok plans) {row : ScheduleRow}
    {plan : Plan} (hm : (row,plan) ∈ plans) (htype : row.spec.scheduleType ≠ .oneTime)
    (hnext : plan.next = none) : (∀ s ∈ plan.selected, s.state ≠ .pending) ∧
      ∀ o ∈ w.db.occurrencesOf row.id, o.state ≠ .pending := by
  obtain ⟨_,-,hplan⟩ := (planRows_mem hp).2 _ hm
  obtain ⟨_,hdue,-,-⟩ := planRow_slots hplan
  have hex : exhausted row q.now := by
    rw [exhausted,hdue,hnext]
  simp only [completesLast,hr,hp,List.all_eq_true] at hok
  have h := hok (row,plan) hm
  simp only [hex,Bool.not_true,Bool.or_false,Bool.or_eq_true,beq_iff_eq,htype,false_or,
    Bool.and_eq_true,List.all_eq_true,bne_iff_ne] at h
  refine ⟨?_,h.2⟩
  intro s hs
  rw [planRow_disposition hplan hs]
  rcases h.1 with hskip | hgap
  · rw [hskip,disposition,if_pos (rfl : MisfirePolicy.skip = .skip)]
    split_ifs <;> simp
  · rw [disposition,if_pos (hgap s hs)]
    simp

theorem move_backed (hw : w.Sound) {a : Action} (hok : completesLast w a) {lab : Label}
    {l' : Life} (hlic : Licensed w a lab) (hl : w.db.life l.row.id = some l) (h : l.Backed)
    (m : Move lab l l') : l'.Backed := by
  cases m with
  | edit => exact ⟨h.draft,h.pending⟩
  | activate | resume => exact ⟨by simp,fun o ho hp => .inl rfl⟩
  | pause => exact ⟨by simp,fun o ho hp => .inr rfl⟩
  | cancel =>
    refine ⟨by simp,?_⟩
    intro o ho hp
    obtain ⟨p,hpm,rfl⟩ := List.mem_map.mp ho
    have hsid := (life_scheduleId hl hpm).2
    by_cases hpp : p.state = .pending
    · simp [cancelPendingOf,hsid,hpp] at hp
    · simp [cancelPendingOf,hpp] at hp
  | @materialize _ plan _ _ _ active =>
    obtain ⟨q,_,_,_,rfl,hr,hplans,hm⟩ := licensed_materialize hlic
    by_cases hstate : (afterPlan l.row plan.next).state = l.row.state
    · rw [active] at hstate
      refine ⟨?_,fun o ho hp => .inl hstate⟩
      intro hd
      rw [hstate] at hd
      cases hd
    · obtain ⟨htype,hnext,hdone⟩ := afterPlan_exhausted hstate
      obtain ⟨hnew,hold⟩ := no_pending_of_exhaustion hok hr hplans hm htype hnext
      constructor
      · intro hd
        cases hdone.symm.trans hd
      · intro o ho hp
        rcases List.mem_append.mp ho with ho | ho
        · rw [(life_some.mp hl).2] at ho
          exact absurd hp (hold o ho)
        · obtain ⟨-,-,s,hs,he⟩ := mem_occurrencesFrom ho
          rw [he] at hp
          exact absurd hp (hnew s hs)
  | cancelOccurrence found | claim found => exact backed_put h found (by simp)
  | attempt found claimed => exact backed_put h found (by simp [claimed])
  | settle found _ fenced _ target =>
    obtain ⟨i,_,rfl,hi,hf,-⟩ := licensed_settle hlic
    have hnp := no_pending_of_settle hw hok hi hf hl found fenced
    have hput := backed_put h found
      (show _ ≠ OccurrenceState.pending by rcases target with ht | ht <;> rw [ht] <;> simp)
    by_cases hc : l.row.spec.scheduleType = .oneTime ∧ l.row.state = .active
    · rw [afterSettling,if_pos hc]
      refine ⟨by simp,?_⟩
      intro p hp hpending
      rcases Table.mem_put.mp hp with ⟨-,rfl⟩ | ⟨hp,-⟩
      · rcases target with ht | ht <;> rw [ht] at hpending <;> cases hpending
      · exact absurd hpending (hnp hc.1 hc.2 p hp)
    · rw [afterSettling,if_neg hc]
      exact hput

/-- Along every run whose steps complete a schedule last, a pending occurrence
belongs to a schedule that is active or paused. -/
theorem pending_backed (versions : List ℕ) (as : List Action)
    (h : Run.Conforms step (fun w a => completesLast w a) as (initial versions)) :
    ∀ o ∈ (reach versions as).db.occurrences, o.state = .pending →
      ∃ row, (reach versions as).db.scheduleRow o.scheduleId = some row ∧
        (row.state = .active ∨ row.state = .paused) := by
  have hall := reach_lives Life.Backed (fun _ => backed_blank)
    (fun hw hok _ _ _ => move_backed hw hok) h
  intro o ho hp
  cases hl : (reach versions as).db.life o.scheduleId with
  | none =>
    exact absurd ((reach_sound versions as).db.owned _ (Db.mem_snapshots ho)) (life_none.mp hl)
  | some l =>
    obtain ⟨hrow,hoccs⟩ := life_some.mp hl
    refine ⟨l.row,hrow,(hall _ l hl).pending o ?_ hp⟩
    rw [hoccs]
    exact List.mem_filter.mpr ⟨ho,by simp⟩

def untilTwo : ScheduleSpec :=
  { every hourly with endAt := some (2*Calendar.hour), accepted := rfl }

/-- The batch at two o'clock leaves an occurrence pending and the one at four
finds it claimed. -/
def exhaustedClaimed : List Action :=
  setUp untilTwo++[.materializeDue (clock (2*Calendar.hour)) 100,
    .claimDue (clock (2*Calendar.hour)) (clock (2*Calendar.hour)) 7,
    .materializeDue (clock (4*Calendar.hour)) 100]

theorem exhaustedClaimed_backed :
    Run.Conforms step (fun w a => completesLast w a) exhaustedClaimed (initial [0]) ∧
      ∀ o ∈ (reach [0] exhaustedClaimed).db.occurrences, o.state = .pending →
        ∃ row, (reach [0] exhaustedClaimed).db.scheduleRow o.scheduleId = some row ∧
          (row.state = .active ∨ row.state = .paused) :=
  have h : Run.Conforms step (fun w a => completesLast w a) exhaustedClaimed
      (initial [0]) := by
    decide +kernel
  ⟨h,pending_backed [0] exhaustedClaimed h⟩

/-- The first batch comes two hours after the end of the window. -/
def exhaustedLate : List Action := setUp untilTwo++[.materializeDue (clock (4*Calendar.hour)) 100]

/-- It creates the occurrence of two o'clock and completes the schedule. -/
theorem exhaustedLate_strands :
    ∃ o ∈ (reach [0] exhaustedLate).db.occurrences, o.state = .pending ∧
      ((reach [0] exhaustedLate).db.scheduleRow o.scheduleId).map (fun row => row.state) =
        some .completed := by
  decide +kernel

end

/-- The slots that the searches come to from a slot on. -/
inductive Follows (spec : ScheduleSpec) : TemporalSlot → TemporalSlot → Prop
  | here (s : TemporalSlot) : Follows spec s s
  | next {s t u : TemporalSlot} {r : RecurrenceSpec} (recurs : spec.recurrence = some r)
      (follows : nextSlot s.intendedLocalTime s.scheduledFor spec.timezone.zone r = .ok t)
      (rest : Follows spec t u) : Follows spec s u

def ScheduleRow.EndsBetween (row : ScheduleRow) : Prop :=
  ∀ s ∈ row.current, ∀ t, Follows row.spec s t → row.spec.endAt ≠ some t.scheduledFor

variable {row : ScheduleRow}

theorem elapsedFrom_follows {now : ℤ} {spec : ScheduleSpec} {s : TemporalSlot}
    {due : List TemporalSlot} {future : Option TemporalSlot} {n : ℕ}
    (h : elapsedFrom now spec n s = .ok (due,future)) : ∀ t ∈ due, Follows spec s t := by
  refine elapsedFrom_rule (by simp) (by simp) (fun _ _ _ => by simpa using .here _) ?_ h
  intro s r next due future _ _ recurs follows ih t ht
  rcases List.mem_cons.mp ht with rfl | ht
  · exact .here t
  · exact .next recurs follows (ih t ht)

theorem planRow_within {now : ℤ} {room : ℕ} {plan : Plan}
    (h : planRow row now room = .ok plan) {s : Selected} (hs : s ∈ plan.selected) :
    ∀ e ∈ row.spec.endAt,
      s.slot.scheduledFor ≤ e ∧ (row.EndsBetween → s.slot.scheduledFor < e) := by
  intro e he
  obtain ⟨_,hdue,hsub,-⟩ := planRow_slots h
  have hmem := hsub.subset (List.mem_map_of_mem hs)
  rcases elapsedSlots_ok hdue with ⟨s₀,hc,hdue⟩ | ⟨-,rfl,-⟩
  · have hle := (elapsedFrom_records hdue s.slot hmem).2.1.2 e he
    refine ⟨hle,fun hb => lt_of_le_of_ne hle ?_⟩
    rintro rfl
    exact hb s₀ hc s.slot (elapsedFrom_follows hdue s.slot hmem) he
  · cases hmem

theorem mem_applyPlans {plans : List (ScheduleRow × Plan)} {db db' : Db}
    {os : List OccurrenceRow} (h : applyPlans plans db = .ok (db',os)) {o : OccurrenceRow}
    (ho : o ∈ os) : ∃ p ∈ plans, ∃ s ∈ p.2.selected,
      o.scheduleId = p.1.id ∧ o.scheduledFor = s.slot.scheduledFor := by
  induction plans generalizing db os with
  | nil =>
    cases h
    cases ho
  | cons p _ ih =>
    obtain ⟨_,_,_,ha,hr,rfl⟩ := applyPlans_cons h
    rcases List.mem_append.mp ho with ho | ho
    · rw [(applyPlan_ok ha).1] at ho
      obtain ⟨-,-,s,hs,he⟩ := mem_occurrencesFrom ho
      refine ⟨p,by simp,s,hs,?_⟩
      rw [he]
      exact ⟨rfl,rfl⟩
    · obtain ⟨p',hp,hrest⟩ := ih hr ho
      exact ⟨p',List.mem_cons_of_mem _ hp,hrest⟩

/-- Whatever happened before, an occurrence is created for a due schedule at an instant
that its end does not precede, and before the end if no slot falls on it. -/
theorem created_within (versions : List ℕ) (as : List Action) (q : Query) (limit : ℕ) (db' : Db)
    (created : List OccurrenceRow)
    (h : materializeDue (reach versions as).db q limit = .ok (db',created)) :
    ∀ o ∈ created, ∃ row ∈ dueScheduleRows (reach versions as).db q limit,
      o.scheduleId = row.id ∧ ∀ e ∈ row.spec.endAt,
        o.scheduledFor ≤ e ∧ (row.EndsBetween → o.scheduledFor < e) := by
  intro o ho
  obtain ⟨_,hplans,happly⟩ := materializeDue_ok h
  obtain ⟨hrows,hall⟩ := planRows_mem hplans
  obtain ⟨p,hp,s,hs,hid,hat⟩ := mem_applyPlans happly ho
  obtain ⟨_,-,hplan⟩ := hall p hp
  refine ⟨p.1,hrows.subset (List.mem_map_of_mem hp),hid,?_⟩
  rw [hat]
  exact planRow_within hplan hs

theorem endsBetween_once (hnone : row.spec.recurrence = none)
    (hne : ∀ t ∈ row.nextFireAt, row.spec.endAt ≠ some t) : row.EndsBetween := by
  intro s hs t hf
  cases hf with
  | here =>
    unfold ScheduleRow.current at hs
    split at hs
    · rename_i fireAt _ hfire _
      obtain rfl := Option.some.inj hs
      exact hne fireAt hfire
    · cases hs
  | next recurs => cases hnone.symm.trans recurs

/-- One firing at one o'clock within a window that ends at two. -/
def onceUntilTwo : ScheduleSpec :=
  { once .fireOnce with endAt := some (2*hour), accepted := rfl }

theorem onceUntilTwo_within :
    ∃ db' created, materializeDue (reach [0] (setUp onceUntilTwo)).db (clock hour) 1 =
        .ok (db',created) ∧ created.map (·.scheduledFor) = [hour] ∧
      ∀ o ∈ created, o.scheduledFor < 2*hour := by
  have hok : (materializeDue (reach [0] (setUp onceUntilTwo)).db (clock hour) 1).map
      (fun r => r.2.map (·.scheduledFor)) = .ok [hour] := by decide +kernel
  have hdue : (dueScheduleRows (reach [0] (setUp onceUntilTwo)).db (clock hour) 1).map
      (fun row => (row.spec,row.nextFireAt)) = [(onceUntilTwo,some hour)] := rfl
  cases hr : materializeDue (reach [0] (setUp onceUntilTwo)).db (clock hour) 1 with
  | error =>
    rw [hr] at hok
    cases hok
  | ok r =>
    obtain ⟨db',created⟩ := r
    rw [hr] at hok
    refine ⟨db',created,rfl,Except.ok.inj hok,?_⟩
    intro o ho
    obtain ⟨row,hrow,-,hwithin⟩ := created_within [0] _ _ _ db' created hr o ho
    have hin := List.mem_map_of_mem (f := fun row : ScheduleRow => (row.spec,row.nextFireAt)) hrow
    rw [hdue,List.mem_singleton,Prod.mk.injEq] at hin
    obtain ⟨hspec,hfire⟩ := hin
    rw [hspec] at hwithin
    apply (hwithin (2*hour) rfl).2
    apply endsBetween_once (by rw [hspec]; rfl)
    rw [hspec,hfire]
    decide

/-- The slot at two o'clock is created although the window has ended then. -/
theorem created_on_end :
    untilTwo.endAt = some (2*hour) ∧
      (materializeDue (reach [0] (setUp untilTwo)).db (clock (2*hour)) 1).map
        (fun r => r.2.map (·.scheduledFor)) = .ok [2*hour] :=
  ⟨rfl,by decide +kernel⟩

end NexusAi.Scheduler
