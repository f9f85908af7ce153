import NexusAi.Scheduler.Life

/-!
# Batches, and rows across an effect

A plan depends on its row, the clock and the room left by the plans before it, so a batch
commits exactly if all of its plans can be made and then applied one after the other.
`Advance` is what one effect can do to one occurrence row. A claim that a worker holds is
honest: the row it was handed out for never returns to a state before CLAIMED.
-/

namespace NexusAi.Scheduler
open NexusAi.Checked

section

def planRows (now : ℤ) : List ScheduleRow → ℕ → Result (List (ScheduleRow × Plan))
  | [], _ => .ok []
  | row::rows, remaining =>
    if remaining = 0 then .ok []
    else do
      let plan ← planRow row now remaining
      let rest ← planRows now rows (remaining-plan.selected.length)
      pure ((row,plan)::rest)

def applyPlans : List (ScheduleRow × Plan) → Db → Result (Db × List OccurrenceRow)
  | [], db => .ok (db,[])
  | (row,plan)::rest, db => do
    let (db,created) ← applyPlan row plan db
    let (db,more) ← applyPlans rest db
    pure (db,created++more)

variable {row : ScheduleRow} {db db' : Db} {os : List OccurrenceRow} {now : ℤ}
  {plans : List (ScheduleRow × Plan)} {q : Query} {limit : ℕ}

theorem applyPlan_length {plan : Plan} (h : applyPlan row plan db = .ok (db',os)) :
    os.length = plan.selected.length := by
  rw [(applyPlan_ok h).1,length_occurrencesFrom]

theorem applyPlans_cons {p : ScheduleRow × Plan} (h : applyPlans (p::plans) db = .ok (db',os)) :
    ∃ db₁ created more, applyPlan p.1 p.2 db = .ok (db₁,created) ∧
      applyPlans plans db₁ = .ok (db',more) ∧ os = created++more := by
  simp only [applyPlans,bind_ok,pure_ok,Prod.mk.injEq] at h
  obtain ⟨⟨_,_⟩,ha,⟨_,_⟩,hr,rfl,rfl⟩ := h
  exact ⟨_,_,_,ha,hr,rfl⟩

theorem materializeRows_ok {rows : List ScheduleRow} {remaining : ℕ} {r : Db × List OccurrenceRow} :
    materializeRows now rows remaining db = .ok r ↔
      ∃ plans, planRows now rows remaining = .ok plans ∧ applyPlans plans db = .ok r := by
  induction rows generalizing remaining db r with
  | nil => simp [materializeRows,planRows,applyPlans]
  | cons _ _ ih =>
    by_cases h0 : remaining = 0
    · simp [materializeRows,planRows,applyPlans,h0]
    · simp only [materializeRows,planRows,materializeRow,if_neg h0,bind_ok,pure_ok]
      constructor
      · rintro ⟨⟨_,_⟩,⟨plan,hp,ha⟩,⟨db2,rest⟩,hr,rfl⟩
        dsimp only at hr
        rw [applyPlan_length ha] at hr
        obtain ⟨plans,hps,has⟩ := ih.mp hr
        refine ⟨_,⟨plan,hp,plans,hps,rfl⟩,?_⟩
        simp only [applyPlans,bind_ok,pure_ok]
        exact ⟨_,ha,_,has,rfl⟩
      · rintro ⟨_,⟨plan,hp,plans,hps,rfl⟩,h⟩
        simp only [applyPlans,bind_ok,pure_ok] at h
        obtain ⟨⟨_,_⟩,ha,⟨db2,rest⟩,has,rfl⟩ := h
        refine ⟨_,⟨plan,hp,ha⟩,(db2,rest),?_,rfl⟩
        dsimp only
        rw [applyPlan_length ha]
        exact ih.mpr ⟨plans,hps,has⟩

theorem planRows_mem {rows : List ScheduleRow} {remaining : ℕ}
    (h : planRows now rows remaining = .ok plans) : (plans.map Prod.fst).Sublist rows ∧
      ∀ p ∈ plans, ∃ room, 0 < room ∧ planRow p.1 now room = .ok p.2 := by
  induction rows generalizing remaining plans with
  | nil =>
    simp only [planRows,Except.ok.injEq] at h
    subst h
    exact ⟨List.Sublist.refl _,by simp⟩
  | cons row _ ih =>
    simp only [planRows] at h
    split_ifs at h with h0
    · simp only [Except.ok.injEq] at h
      subst h
      exact ⟨List.nil_sublist _,by simp⟩
    · simp only [bind_ok,pure_ok] at h
      obtain ⟨_,hp,_,hr,rfl⟩ := h
      obtain ⟨hsub,hall⟩ := ih hr
      refine ⟨hsub.cons_cons row,?_⟩
      intro p hpm
      rcases List.mem_cons.mp hpm with rfl | hpm
      · exact ⟨remaining,Nat.pos_of_ne_zero h0,hp⟩
      · exact hall p hpm

theorem mem_dueScheduleRows (h : row ∈ dueScheduleRows db q limit) :
    row ∈ db.schedules ∧ isDue q row := by
  have hm := List.mem_of_mem_take h
  rwa [List.mem_insertionSort,List.mem_filter] at hm

theorem isDue_iff : isDue q row ↔ row.state = .active ∧ q.locked row.id = false ∧
      ∃ t, row.nextFireAt = some t ∧ t ≤ q.now+q.lag row.id := by
  unfold isDue
  cases row.nextFireAt with
  | none => simp
  | some => simp [and_assoc]

theorem dueScheduleRows_keyed (hs : db.Sound) (q : Query) (limit : ℕ) :
    ((dueScheduleRows db q limit).map ScheduleRow.id).Nodup := by
  have hf : ((db.schedules.filter (isDue q)).map ScheduleRow.id).Nodup :=
    hs.schedulesKeyed.sublist (List.filter_sublist.map _)
  have hp := (List.perm_insertionSort (fun a b => dueBefore a b)
    (db.schedules.filter (isDue q))).map ScheduleRow.id
  exact (hp.nodup_iff.mpr hf).sublist ((List.take_sublist _ _).map _)

/-- The plans belong to distinct rows of the table, all of them active. -/
structure Executable (db : Db) (now : ℤ) (plans : List (ScheduleRow × Plan)) : Prop where
  keyed : (plans.map fun p => p.1.id).Nodup
  rows : ∀ p ∈ plans, db.scheduleRow p.1.id = some p.1 ∧ p.1.state = .active ∧
    p.1.nextFireAt.isSome
  plans : ∀ p ∈ plans, ∃ room, 0 < room ∧ planRow p.1 now room = .ok p.2

theorem executable_due (hs : db.Sound)
    (h : planRows q.now (dueScheduleRows db q limit) limit = .ok plans) :
    Executable db q.now plans := by
  obtain ⟨hsub,hall⟩ := planRows_mem h
  refine ⟨?_,?_,hall⟩
  · have := (dueScheduleRows_keyed hs q limit).sublist (hsub.map ScheduleRow.id)
    rwa [List.map_map] at this
  · intro p hp
    obtain ⟨hm,hdue⟩ := mem_dueScheduleRows (hsub.subset (List.mem_map_of_mem hp))
    obtain ⟨hactive,-,t,ht,-⟩ := isDue_iff.mp hdue
    exact ⟨Table.find_of_mem hs.schedulesKeyed hm,hactive,by simp [ht]⟩

theorem Executable.first {db₁ : Db} {plan : Plan} (hx : Executable db now ((row,plan)::plans))
    (h : applyPlan row plan db = .ok (db₁,os)) :
    Effect (.materialize row plan) db db₁ ∧ Executable db₁ now plans := by
  obtain ⟨hfound,hactive,hfires⟩ := hx.rows (row,plan) (by simp)
  obtain ⟨_,hroom,hplan⟩ := hx.plans (row,plan) (by simp)
  obtain ⟨rfl,_,hq,rfl⟩ := applyPlan_ok h
  have hkeyed := hx.keyed
  simp only [List.map_cons,List.nodup_cons] at hkeyed
  refine ⟨.materialize hfound hactive hfires hroom hplan hq,hkeyed.2,?_,?_⟩
  · intro p hp
    obtain ⟨hf,hrest⟩ := hx.rows p (by simp [hp])
    refine ⟨?_,hrest⟩
    have hput := scheduleRow_put hfound (afterPlan_id row plan.next) p.1.id
    have hne : row.id ≠ p.1.id := fun he => hkeyed.1 (he ▸ List.mem_map_of_mem hp)
    rw [if_neg hne,hf] at hput
    exact hput
  · exact fun p hp => hx.plans p (by simp [hp])

/-- What a plan does to its own schedule, and nothing to the others, the plans together do. -/
theorem applyPlans_view {V : Type} (view : Db → ℕ → V) (R : ScheduleRow → Plan → V → V → Prop)
    (happly : ∀ {db db' os row plan}, db.scheduleRow row.id = some row →
      applyPlan row plan db = .ok (db',os) → R row plan (view db row.id) (view db' row.id) ∧
        ∀ sid, row.id ≠ sid → view db' sid = view db sid)
    (hx : Executable db now plans) (h : applyPlans plans db = .ok (db',os)) :
    (∀ p ∈ plans, R p.1 p.2 (view db p.1.id) (view db' p.1.id)) ∧
      ∀ sid, sid ∉ plans.map (fun p => p.1.id) → view db' sid = view db sid := by
  induction plans generalizing db os with
  | nil =>
    cases h
    simp
  | cons p _ ih =>
    obtain ⟨_,_,_,ha,hr,-⟩ := applyPlans_cons h
    obtain ⟨hown,hothers⟩ := happly (hx.rows p (by simp)).1 ha
    obtain ⟨hlater,hrest⟩ := ih (hx.first ha).2 hr
    have hkeyed := hx.keyed
    simp only [List.map_cons,List.nodup_cons] at hkeyed
    constructor
    · intro q hq
      rcases List.mem_cons.mp hq with rfl | hq
      · rwa [hrest _ hkeyed.1]
      · have hne : p.1.id ≠ q.1.id := fun he => hkeyed.1 (he ▸ List.mem_map_of_mem hq)
        rw [← hothers _ hne]
        exact hlater q hq
    · intro sid hsid
      simp only [List.map_cons,List.mem_cons,not_or] at hsid
      rw [hrest sid hsid.2,hothers sid (Ne.symm hsid.1)]

theorem applyPlans_chain {P : Label → Prop} (hx : Executable db now plans)
    (hP : ∀ p ∈ plans, P (.materialize p.1 p.2)) (h : applyPlans plans db = .ok (db',os)) :
    Chain P db db' := by
  induction plans generalizing db os with
  | nil =>
    cases h
    exact .refl _
  | cons p _ ih =>
    obtain ⟨row,plan⟩ := p
    obtain ⟨_,_,_,ha,hr,-⟩ := applyPlans_cons h
    obtain ⟨e,hx1⟩ := hx.first ha
    exact .cons (hP (row,plan) (by simp)) e (ih hx1 (fun p hp => hP p (by simp [hp])) hr)

theorem applyPlans_life {sid : ℕ} {l : Life} (hs : db.Sound) (hx : Executable db now plans)
    (h : applyPlans plans db = .ok (db',os)) (hl : db.life sid = some l) :
    ∃ l', db'.life sid = some l' ∧
      (l' = l ∨ ∃ plan, (l.row,plan) ∈ plans ∧ Move (.materialize l.row plan) l l') := by
  induction plans generalizing db os l with
  | nil =>
    cases h
    exact ⟨l,hl,.inl rfl⟩
  | cons p _ ih =>
    obtain ⟨row,plan⟩ := p
    obtain ⟨_,_,_,ha,hr,-⟩ := applyPlans_cons h
    obtain ⟨e,hx1⟩ := hx.first ha
    obtain ⟨_,hl1,hstep⟩ := e.life hs hl
    obtain ⟨l2,hl2,hrest⟩ := ih (e.sound hs) hx1 hr hl1
    refine ⟨l2,hl2,?_⟩
    rcases hstep with rfl | hm
    · rcases hrest with rfl | ⟨plan',hp,hm⟩
      · exact .inl rfl
      · exact .inr ⟨plan',List.mem_cons_of_mem _ hp,hm⟩
    · cases hm with
      | materialize active fires open_ planned =>
        have hid := afterPlan_id l.row plan.next
        have hkeyed := hx.keyed
        simp only [List.map_cons,List.nodup_cons] at hkeyed
        rcases hrest with rfl | ⟨_,hp,-⟩
        · exact .inr ⟨plan,List.mem_cons_self ..,.materialize active fires open_ planned⟩
        · have hin := List.mem_map_of_mem (f := fun p : ScheduleRow × Plan => p.1.id) hp
          simp only [hid] at hin
          exact absurd hin hkeyed.1

theorem applyPlans_ids (h : applyPlans plans db = .ok (db',os)) :
    db'.scheduleIds = db.scheduleIds := by
  induction plans generalizing db os with
  | nil =>
    cases h
    rfl
  | cons _ _ ih =>
    obtain ⟨_,_,_,ha,hr,-⟩ := applyPlans_cons h
    obtain ⟨-,_,-,rfl⟩ := applyPlan_ok ha
    exact (ih hr).trans (Db.scheduleIds_put db _)

theorem materializeDue_ok (h : materializeDue db q limit = .ok (db',os)) :
    ∃ plans, planRows q.now (dueScheduleRows db q limit) limit = .ok plans ∧
      applyPlans plans db = .ok (db',os) := by
  simp only [materializeDue,bind_ok] at h
  obtain ⟨_,-,h⟩ := h
  exact materializeRows_ok.mp h

end

inductive Advance : Label → OccurrenceRow → OccurrenceRow → Prop
  | kept {lab : Label} {o : OccurrenceRow} : Advance lab o o
  | cancelled {lab : Label} {o : OccurrenceRow} (pending : o.state = .pending) :
      Advance lab o { o with state := .cancelled }
  | claimed {o : OccurrenceRow} {owner token : ℕ} (pending : o.state = .pending) :
      Advance (.claim ⟨{ o with
          state := .claimed, claimOwnerId := some owner, claimToken := some token },
          owner,token,o.workflowInput⟩) o
        { o with state := .claimed, claimOwnerId := some owner, claimToken := some token }
  | attempted {claim : OccurrenceClaim} {o : OccurrenceRow} (claimed : o.state = .claimed) :
      Advance (.attempt claim) o { o with dispatchAttemptCount := o.dispatchAttemptCount+1 }
  | settled {claim : OccurrenceClaim} {o o' : OccurrenceRow} (claimed : o.state = .claimed)
      (fenced : o.id = claim.occurrence.id)
      (same : o'.toOccurrenceSnapshot = o.toOccurrenceSnapshot)
      (owner : o'.claimOwnerId = o.claimOwnerId) (token : o'.claimToken = o.claimToken)
      (target : o'.state = .dispatched ∨ o'.state = .failed) :
      Advance (.settle claim o') o o'

variable {lab : Label} {o : OccurrenceRow} {db db' : Db} {c : OccurrenceClaim}

theorem Advance.snapshot {o' : OccurrenceRow} (a : Advance lab o o') :
    o'.toOccurrenceSnapshot = o.toOccurrenceSnapshot := by
  cases a with
  | settled _ _ same => exact same
  | _ => rfl

structure Added (db : Db) (o : OccurrenceRow) : Prop where
  fresh : db.fresh ≤ o.id
  state : o.state = .pending ∨ o.state = .skipped
  unclaimed : o.claimToken = none

structure RowsAdvance (lab : Label) (db db' : Db) : Prop where
  after : ∀ o ∈ db.occurrences, ∃ o' ∈ db'.occurrences, Advance lab o o'
  before : ∀ o' ∈ db'.occurrences, (∃ o ∈ db.occurrences, Advance lab o o') ∨ Added db o'

theorem rows_same (h : db'.occurrences = db.occurrences) : RowsAdvance lab db db' := by
  constructor
  · intro o ho
    exact ⟨o,h ▸ ho,.kept⟩
  · intro o ho
    exact .inl ⟨o,h ▸ ho,.kept⟩

theorem rows_put {o' : OccurrenceRow} (hs : db.Sound) (found : o ∈ db.occurrences)
    (hocc : db'.occurrences = Table.put (fun o => o.id) o' db.occurrences) (ha : Advance lab o o') :
    RowsAdvance lab db db' := by
  have hid : o'.id = o.id := congrArg OccurrenceSnapshot.id ha.snapshot
  constructor
  · intro p hp
    by_cases he : p.id = o.id
    · obtain rfl := Table.mem_unique hs.keyed hp found he
      refine ⟨o',?_,ha⟩
      rw [hocc,Table.mem_put]
      exact .inl ⟨⟨p,hp,hid.symm⟩,rfl⟩
    · refine ⟨p,?_,.kept⟩
      rw [hocc,Table.mem_put]
      exact .inr ⟨hp,fun h => he (h.trans hid)⟩
  · intro p hp
    rw [hocc,Table.mem_put] at hp
    rcases hp with ⟨-,rfl⟩ | ⟨hp,-⟩
    · exact .inl ⟨o,found,ha⟩
    · exact .inl ⟨p,hp,.kept⟩

theorem disposition_state (policy : MisfirePolicy) (slot : TemporalSlot) :
    (disposition policy slot).state = .pending ∨ (disposition policy slot).state = .skipped := by
  unfold disposition
  split_ifs <;> simp

theorem planned_state {row : ScheduleRow} {now : ℤ} {room : ℕ} {plan : Plan}
    (h : planRow row now room = .ok plan) (s : Selected) (hs : s ∈ plan.selected) :
    s.state = .pending ∨ s.state = .skipped := by
  simp only [planRow,bind_ok,pure_ok] at h
  obtain ⟨_,_,rfl⟩ := h
  obtain ⟨t,-,rfl⟩ := List.mem_map.mp hs
  exact disposition_state _ t

theorem Effect.rows (e : Effect lab db db') (hs : db.Sound) : RowsAdvance lab db db' := by
  cases e with
  | cancel =>
    have hadv : ∀ id o, Advance (.cancel id) o (cancelPendingOf id o) := by
      intro id o
      unfold cancelPendingOf
      split_ifs with h
      · exact .cancelled h.2
      · exact .kept
    constructor
    · intro o ho
      exact ⟨_,List.mem_map_of_mem ho,hadv _ o⟩
    · intro o' ho'
      obtain ⟨o,ho,rfl⟩ := List.mem_map.mp ho'
      exact .inl ⟨o,ho,hadv _ o⟩
  | materialize _ _ _ _ planned =>
    constructor
    · intro o ho
      exact ⟨o,List.mem_append_left _ ho,.kept⟩
    · intro o ho
      rcases List.mem_append.mp ho with ho | ho
      · exact .inl ⟨o,ho,.kept⟩
      · obtain ⟨hlo,-,s,hsel,he⟩ := mem_occurrencesFrom ho
        refine .inr ⟨hlo,?_,by rw [he]; rfl⟩
        rw [he]
        exact planned_state planned s hsel
  | cancelOccurrence found pending => exact rows_put hs found rfl (.cancelled pending)
  | claim found pending => exact rows_put hs found rfl (.claimed pending)
  | attempt fenced =>
    exact rows_put hs (fencedRow_some fenced).1 rfl (.attempted (fencedRow_some fenced).2.2.1)
  | settle _ _ fenced _ same owner token target =>
    obtain ⟨found,hid,hclaimed,-⟩ := fencedRow_some fenced
    exact rows_put hs found rfl (.settled hclaimed hid same owner token target)
  | _ => exact rows_same rfl

theorem Effect.runs (e : Effect lab db db') :
    db'.runs = db.runs ∨ ∃ run, lab = .start run ∧ db'.runs = db.runs++[run] ∧
      runByIdempotency db run.versionId run.idempotencyKey = none := by
  cases e with
  | start _ absent => exact .inr ⟨_,rfl,rfl,absent⟩
  | _ => exact .inl rfl

theorem Effect.fenced (e : Effect (.settle c o) db db') : (fencedRow db c).isSome := by
  cases e with
  | settle _ _ fenced => simp [fenced]

def OccurrenceClaim.Honest (c : OccurrenceClaim) (db : Db) : Prop :=
  c.workflowInput = c.occurrence.workflowInput ∧
  ∃ o ∈ db.occurrences, o.toOccurrenceSnapshot = c.occurrence.toOccurrenceSnapshot ∧
    o.claimOwnerId = some c.ownerId ∧ o.claimToken = some c.claimToken ∧
    (o.state = .claimed ∨ o.state = .dispatched ∨ o.state = .failed)

theorem Effect.honest (e : Effect lab db db') (hs : db.Sound) (h : c.Honest db) : c.Honest db' := by
  obtain ⟨hi,o,ho,hsnap,howner,htoken,hstate⟩ := h
  obtain ⟨o',ho',ha⟩ := (e.rows hs).after o ho
  refine ⟨hi,o',ho',ha.snapshot.trans hsnap,?_⟩
  cases ha with
  | kept | attempted => exact ⟨howner,htoken,hstate⟩
  | cancelled pending | claimed pending => simp [pending] at hstate
  | settled _ _ _ owner token target =>
    exact ⟨owner.trans howner,token.trans htoken,.inr target⟩

theorem Chain.honest {P : Label → Prop} (ch : Chain P db db') (hs : db.Sound) (h : c.Honest db) :
    c.Honest db' := by
  induction ch with
  | refl => exact h
  | cons _ first _ ih => exact ih (first.sound hs) (first.honest hs h)

end NexusAi.Scheduler
