import NexusAi.Scheduler.Fencing

/-!
# Agreement between occurrences and workflow runs

DISPATCHED always points to an existing run. FAILED is written on the verdict
of one call, while another call of the same claim may have started a run or
may still do so; it excludes a run exactly as long as no call of the claim has
started one, nor does so afterwards.
-/

namespace NexusAi.Scheduler

def Outcome.commits : Outcome → Bool
  | .accepted _ | .lost _ => true
  | .rejected _ => false

def Call.committed (k : Call) : Bool := k.outcome.any Outcome.commits

def World.Agrees (w : World) : Prop :=
  ∀ o ∈ w.db.occurrences,
    (o.state = .dispatched → ∃ r ∈ w.db.runs,
      o.workflowRunId = some r.id ∧ r.idempotencyKey = o.p14IdempotencyKey) ∧
    (o.state = .failed → ∀ r ∈ w.db.runs, r.idempotencyKey ≠ o.p14IdempotencyKey)

/-- A dispatch is failed only if none of its calls has started a run, and none does so after
it has failed. -/
def failsWhenRefused (w : World) : Action → Bool
  | .startRun i stale delivery =>
    match w.calls[i]? with
    | some ⟨claim,none,_⟩ => !(deliver w.db claim stale delivery).2.commits ||
        w.db.occurrences.all fun o => o.id != claim.occurrence.id || o.state != .failed
    | _ => true
  | .settle i =>
    match w.calls[i]? with
    | some ⟨_,some (.accepted _),_⟩ => true
    | some ⟨claim,some _,false⟩ => (fencedRow w.db claim).isNone ||
        w.calls.all fun k => k.claim.occurrence.id != claim.occurrence.id || !k.committed
    | _ => true
  | _ => true

structure World.Accounted (w : World) : Prop where
  accepted : ∀ k ∈ w.calls, ∀ runId, k.outcome = some (.accepted runId) →
    ∃ r ∈ w.db.runs, r.id = runId ∧ r.idempotencyKey = k.claim.occurrence.p14IdempotencyKey
  started : ∀ r ∈ w.db.runs, ∃ k ∈ w.calls,
    r.idempotencyKey = k.claim.occurrence.p14IdempotencyKey ∧ k.committed
  dispatched : ∀ o ∈ w.db.occurrences, o.state = .dispatched → ∃ r ∈ w.db.runs,
    o.workflowRunId = some r.id ∧ r.idempotencyKey = o.p14IdempotencyKey

def World.FailedRefused (w : World) : Prop :=
  ∀ o ∈ w.db.occurrences, o.state = .failed → ∀ k ∈ w.calls,
    k.claim.occurrence.id = o.id → k.committed = false

variable {db db' : Db} {o : OccurrenceRow} {w : World} {i : ℕ} {outcome : Outcome}

theorem Effect.settled_before {lab : Label} (e : Effect lab db db') (hs : db.Sound)
    (ho : o ∈ db'.occurrences) (hstate : o.state = .dispatched ∨ o.state = .failed) :
    o ∈ db.occurrences ∨ ∃ c, lab = .settle c o ∧ o.id = c.occurrence.id := by
  rcases (e.rows hs).before o ho with ⟨p,hp,ha⟩ | hnew
  · cases ha with
    | kept => exact .inl hp
    | cancelled | claimed => simp at hstate
    | attempted claimed => simp [claimed] at hstate
    | settled _ fenced same =>
      exact .inr ⟨_,rfl,(congrArg OccurrenceSnapshot.id same).trans fenced⟩
  · rcases hnew.state with h | h <;> simp [h] at hstate

theorem Chain.settled_before {P : Label → Prop} (ch : Chain P db db') (hs : db.Sound)
    (hP : ∀ c o, ¬ P (.settle c o)) (ho : o ∈ db'.occurrences)
    (hstate : o.state = .dispatched ∨ o.state = .failed) : o ∈ db.occurrences := by
  induction ch with
  | refl => exact ho
  | cons licensed first _ ih =>
    rcases first.settled_before hs (ih (first.sound hs) ho) hstate with h | ⟨c,rfl,-⟩
    · exact h
    · exact absurd licensed (hP c _)

theorem not_licensed_settle {a : Action} (ha : ∀ i, a ≠ .settle i) (c : OccurrenceClaim)
    (o : OccurrenceRow) : ¬ Licensed w a (.settle c o) := by
  cases a with
  | settle i => exact absurd rfl (ha i)
  | _ => exact id

theorem step_settled_before (hw : w.Sound) {a : Action} (ha : ∀ i, a ≠ .settle i)
    (ho : o ∈ (step w a).db.occurrences) (hstate : o.state = .dispatched ∨ o.state = .failed) :
    o ∈ w.db.occurrences :=
  (step_chain hw a).settled_before hw.db (not_licensed_settle ha) ho hstate

theorem step_runs (hw : w.Sound) {a : Action} (ha : ∀ i stale d, a ≠ .startRun i stale d) :
    (step w a).db.runs = w.db.runs :=
  (step_chain hw a).runs (not_licensed_start ha)

/-- Accounts carry over when runs stay, calls keep claims and outcomes apart
from calls that were not answered, and dispatched rows are accounted for. -/
theorem accounted_of {w' : World} (h : w.Accounted) (hruns : w'.db.runs = w.db.runs)
    (hold : ∀ k ∈ w.calls, k.outcome = none ∨
      ∃ k' ∈ w'.calls, k'.claim = k.claim ∧ k'.outcome = k.outcome)
    (hnew : ∀ k' ∈ w'.calls, k'.outcome = none ∨
      ∃ k ∈ w.calls, k.claim = k'.claim ∧ k.outcome = k'.outcome)
    (hrows : ∀ o ∈ w'.db.occurrences, o.state = .dispatched → o ∈ w.db.occurrences ∨
      ∃ r ∈ w.db.runs, o.workflowRunId = some r.id ∧ r.idempotencyKey = o.p14IdempotencyKey) :
    w'.Accounted := by
  constructor
  · intro k' hk' runId ho
    rcases hnew k' hk' with hn | ⟨k,hk,hc,hout⟩
    · rw [hn] at ho
      cases ho
    · rw [hruns,← hc]
      exact h.accepted k hk runId (hout.trans ho)
  · intro r hr
    rw [hruns] at hr
    obtain ⟨k,hk,hkey,hcom⟩ := h.started r hr
    rcases hold k hk with hn | ⟨k',hk',hc,hout⟩
    · rw [Call.committed,hn] at hcom
      cases hcom
    · refine ⟨k',hk',by rw [hc]; exact hkey,?_⟩
      unfold Call.committed
      rw [hout]
      exact hcom
  · intro o ho hd
    rw [hruns]
    rcases hrows o ho hd with ho | hr
    · exact h.dispatched o ho hd
    · exact hr

theorem mem_set_of_mem {α : Type} {l : List α} {a b x : α} (hi : l[i]? = some b) (ha : a ∈ l) :
    a = b ∨ a ∈ l.set i x := by
  obtain ⟨j,hj⟩ := List.mem_iff_getElem?.mp ha
  by_cases h : i = j
  · subst h
    rw [hi] at hj
    exact .inl (Option.some.inj hj).symm
  · right
    apply List.mem_iff_getElem?.mpr
    exact ⟨j,by rw [List.getElem?_set_ne h]; exact hj⟩

theorem mem_set_self {α : Type} {l : List α} {b x : α} (hi : l[i]? = some b) : x ∈ l.set i x :=
  List.mem_set ((List.getElem?_eq_some_iff.mp hi).1) x

theorem settle_calls {claim : OccurrenceClaim}
    (hi : w.calls[i]? = some ⟨claim,some outcome,false⟩) :
    (∀ k ∈ w.calls, ∃ k' ∈ w.calls.set i ⟨claim,some outcome,true⟩,
      k'.claim = k.claim ∧ k'.outcome = k.outcome) ∧
    ∀ k' ∈ w.calls.set i ⟨claim,some outcome,true⟩,
      ∃ k ∈ w.calls, k.claim = k'.claim ∧ k.outcome = k'.outcome := by
  constructor
  · intro k hk
    rcases mem_set_of_mem hi hk with rfl | hk'
    · exact ⟨_,mem_set_self hi,rfl,rfl⟩
    · exact ⟨k,hk',rfl,rfl⟩
  · intro k' hk'
    rcases List.mem_or_eq_of_mem_set hk' with hk | rfl
    · exact ⟨k',hk,rfl,rfl⟩
    · exact ⟨_,List.mem_of_getElem? hi,rfl,rfl⟩

theorem accounted_answer (h : w.Accounted) {claim : OccurrenceClaim} {settled : Bool}
    (hi : w.calls[i]? = some ⟨claim,none,settled⟩)
    (hrows : ∀ o ∈ db'.occurrences, o.state = .dispatched → o ∈ w.db.occurrences)
    (hsub : ∀ r ∈ w.db.runs, r ∈ db'.runs) (hnew : ∀ r ∈ db'.runs, r ∈ w.db.runs ∨
      r.idempotencyKey = claim.occurrence.p14IdempotencyKey ∧
        (⟨claim,some outcome,settled⟩ : Call).committed)
    (haccepted : ∀ runId, outcome = .accepted runId → ∃ r ∈ db'.runs, r.id = runId ∧
      r.idempotencyKey = claim.occurrence.p14IdempotencyKey) : ({ w with
      db := db'
      calls := w.calls.set i ⟨claim,some outcome,settled⟩ } : World).Accounted := by
  constructor
  · intro k hk runId ho
    rcases List.mem_or_eq_of_mem_set hk with hk | rfl
    · obtain ⟨r,hr,hid,hkr⟩ := h.accepted k hk runId ho
      exact ⟨r,hsub r hr,hid,hkr⟩
    · exact haccepted runId (Option.some.inj ho)
  · intro r hr
    rcases hnew r hr with hr | ⟨hkey,hc⟩
    · obtain ⟨k,hk,hkr,hc⟩ := h.started r hr
      rcases mem_set_of_mem hi hk with rfl | hk'
      · cases hc
      · exact ⟨k,hk',hkr,hc⟩
    · exact ⟨_,mem_set_self hi,hkey,hc⟩
  · intro o ho hd
    obtain ⟨r,hr,hid,hkr⟩ := h.dispatched o (hrows o ho hd) hd
    exact ⟨r,hsub r hr,hid,hkr⟩

theorem runs_of_start {run : RunRow} (h : db' = db ∨ Effect (.start run) db db') :
    (∀ r ∈ db.runs, r ∈ db'.runs) ∧ ∀ r ∈ db'.runs, r ∈ db.runs ∨ r = run := by
  rcases h with rfl | e
  · exact ⟨fun r hr => hr,fun r hr => .inl hr⟩
  · rcases e.runs with hr | ⟨_,hlab,hr,-⟩
    · rw [hr]
      exact ⟨fun r hr => hr,fun r hr => .inl hr⟩
    · cases hlab
      rw [hr]
      exact ⟨fun r hm => List.mem_append_left _ hm,fun r hm => by simpa using hm⟩

section

variable (hw : w.Sound) (h : w.Accounted)

include hw h

theorem startRun_accounted (i : ℕ) (stale : Bool) (delivery : Delivery) :
    (step w (.startRun i stale delivery)).Accounted := by
  have hrows := fun o => step_settled_before (o := o) hw (a := .startRun i stale delivery) (by simp)
  simp only [step] at hrows ⊢
  split at hrows
  · rename_i claim _ hi
    rcases deliver_cases w.db claim stale delivery with
      ⟨code,he⟩ | ⟨run,db',outcome,he,-,hkey,hrun,hdb,hout⟩
    · rw [he] at hrows ⊢
      refine accounted_answer h hi (fun o ho hd => hrows o ho (.inl hd)) (fun r hr => hr)
        (fun r hr => .inl hr) ?_
      intro runId ho
      cases ho
    · rw [he] at hrows ⊢
      obtain ⟨hsub,hsup⟩ := runs_of_start hdb
      refine accounted_answer h hi (fun o ho hd => hrows o ho (.inl hd)) hsub ?_ ?_
      · intro r hr
        rcases hsup r hr with hr | rfl
        · exact .inl hr
        · refine .inr ⟨hkey,?_⟩
          rcases hout with rfl | ⟨_,rfl⟩ <;> rfl
      · intro runId ho
        rcases hout with rfl | ⟨_,rfl⟩
        · exact ⟨run,hrun,Outcome.accepted.inj ho,hkey⟩
        · cases ho
  · exact h

theorem beginDispatch_accounted (i : ℕ) : (step w (.beginDispatch i)).Accounted := by
  refine accounted_of h (step_runs hw (by simp)) ?_ ?_
    (fun o ho hd => .inl (step_settled_before hw (by simp) ho (.inl hd)))
  · intro k hk
    right
    refine ⟨k,?_,rfl,rfl⟩
    simp only [step]
    split
    · exact hk
    · split
      · exact List.mem_append_left _ hk
      · exact hk
  · intro k hk
    simp only [step] at hk
    split at hk
    · exact .inr ⟨k,hk,rfl,rfl⟩
    · split at hk
      · rcases Table.mem_concat hk with hk | rfl
        · exact .inr ⟨k,hk,rfl,rfl⟩
        · exact .inl rfl
      · exact .inr ⟨k,hk,rfl,rfl⟩

theorem settle_accounted (i : ℕ) : (step w (.settle i)).Accounted := by
  have heff := step_effect hw (a := .settle i) (by simp)
  have hrows : ∀ o ∈ (step w (.settle i)).db.occurrences, o.state = .dispatched →
      o ∈ w.db.occurrences ∨ ∃ r ∈ w.db.runs,
        o.workflowRunId = some r.id ∧ r.idempotencyKey = o.p14IdempotencyKey := by
    intro o ho hd
    rcases heff with he | ⟨_,hlic,e⟩
    · rw [he] at ho
      exact .inl ho
    · rcases e.settled_before hw.db ho (.inl hd) with ho | ⟨c,rfl,hid⟩
      · exact .inl ho
      · obtain ⟨outcome,hi,-,hset⟩ := hlic
        have hk := List.mem_of_getElem? hi
        cases outcome with
        | accepted runId =>
          obtain ⟨r,hr,hrid,hkey⟩ := h.accepted _ hk runId rfl
          refine .inr ⟨r,hr,by rw [hset.2,hrid],hkey.trans ?_⟩
          obtain ⟨-,p,hp,hps,-⟩ := (e.honest hw.db (hw.claims c (hw.calls _ hk)))
          have hpo : o = p := Table.mem_unique (e.sound hw.db).keyed ho hp
            (hid.trans (congrArg OccurrenceSnapshot.id hps).symm)
          rw [hpo,hps]
        | rejected | lost => simp [Outcome.Settles,hd] at hset
  refine accounted_of h (step_runs hw (by simp)) ?_ ?_ hrows
  · intro k hk
    simp only [step]
    split
    · rename_i claim outcome hi
      exact .inr ((settle_calls hi).1 k hk)
    · exact .inr ⟨k,hk,rfl,rfl⟩
  · intro k hk
    simp only [step] at hk
    split at hk
    · rename_i hi
      exact .inr ((settle_calls hi).2 k hk)
    · exact .inr ⟨k,hk,rfl,rfl⟩

theorem step_accounted (a : Action) : (step w a).Accounted := by
  have hother : (∀ i s d, a ≠ .startRun i s d) → (∀ i, a ≠ .settle i) →
      (step w a).calls = w.calls → (step w a).Accounted := by
    intro hs hset hcalls
    refine accounted_of h (step_runs hw hs) ?_ ?_
      (fun o ho hd => .inl (step_settled_before hw hset ho (.inl hd)))
    · rw [hcalls]
      exact fun k hk => .inr ⟨k,hk,rfl,rfl⟩
    · rw [hcalls]
      exact fun k hk => .inr ⟨k,hk,rfl,rfl⟩
  cases a with
  | startRun i stale delivery => exact startRun_accounted hw h i stale delivery
  | beginDispatch i => exact beginDispatch_accounted hw h i
  | settle i => exact settle_accounted hw h i
  | claimDue =>
    refine hother (by simp) (by simp) ?_
    simp only [step]
    split <;> rfl
  | _ => exact hother (by simp) (by simp) rfl

end

theorem startRun_failedRefused (hw : w.Sound) (h : w.FailedRefused) (i : ℕ) (stale : Bool)
    (delivery : Delivery) (hok : failsWhenRefused w (.startRun i stale delivery)) :
    (step w (.startRun i stale delivery)).FailedRefused := by
  intro o ho hf k hk hid
  have ho' := step_settled_before hw (by simp) ho (.inr hf)
  simp only [step] at hk
  split at hk
  · rename_i hi
    rcases List.mem_or_eq_of_mem_set hk with hk | rfl
    · exact h o ho' hf k hk hid
    · simp only [failsWhenRefused,hi,Bool.or_eq_true,List.all_eq_true] at hok
      rcases hok with hrefused | hopen
      · simpa [Call.committed] using hrefused
      · have hstate := hopen o ho'
        simp only [hf,bne_self_eq_false,Bool.false_eq_true,or_false,bne_iff_ne] at hstate
        exact absurd hid.symm hstate
  · exact h o ho' hf k hk hid

theorem beginDispatch_failedRefused (hw : w.Sound) (h : w.FailedRefused) (i : ℕ) :
    (step w (.beginDispatch i)).FailedRefused := by
  intro o ho hf k hk hid
  have ho' := step_settled_before hw (by simp) ho (.inr hf)
  simp only [step] at hk
  split at hk
  · exact h o ho' hf k hk hid
  · split at hk
    · rcases Table.mem_concat hk with hk | rfl
      · exact h o ho' hf k hk hid
      · rfl
    · exact h o ho' hf k hk hid

theorem uncommitted_of_settle (hok : failsWhenRefused w (.settle i)) {c : OccurrenceClaim}
    (hi : w.calls[i]? = some ⟨c,some outcome,false⟩) (hna : ∀ runId, outcome ≠ .accepted runId)
    (hf : (fencedRow w.db c).isSome) :
    ∀ k ∈ w.calls, k.claim.occurrence.id = c.occurrence.id → k.committed = false := by
  intro k hk hid
  have hnone : (fencedRow w.db c).isNone = false := by
    cases h : fencedRow w.db c with
    | none => simp [h] at hf
    | some => rfl
  cases outcome with
  | accepted runId => exact absurd rfl (hna runId)
  | rejected | lost =>
    simp only [failsWhenRefused,hi,hnone,Bool.false_or,List.all_eq_true] at hok
    simpa [hid] using hok k hk

theorem settle_failedRefused (hw : w.Sound) (h : w.FailedRefused) (i : ℕ)
    (hok : failsWhenRefused w (.settle i)) : (step w (.settle i)).FailedRefused := by
  have heff := step_effect hw (a := .settle i) (by simp)
  intro o ho hf k hk hid
  obtain ⟨k₀,hk₀,hc,hout⟩ : ∃ k₀ ∈ w.calls, k₀.claim = k.claim ∧ k₀.outcome = k.outcome := by
    simp only [step] at hk
    split at hk
    · rename_i outcome hi
      exact (settle_calls hi).2 k hk
    · exact ⟨k,hk,rfl,rfl⟩
  have hsame : k.committed = k₀.committed := by rw [Call.committed,← hout,Call.committed]
  rw [hsame]
  rw [← hc] at hid
  rcases heff with he | ⟨_,hlic,e⟩
  · rw [he] at ho
    exact h o ho hf k₀ hk₀ hid
  · rcases e.settled_before hw.db ho (.inr hf) with ho' | ⟨c,rfl,hoc⟩
    · exact h o ho' hf k₀ hk₀ hid
    · obtain ⟨outcome,hi,hf',hset⟩ := hlic
      have hna : ∀ runId, outcome ≠ .accepted runId := by
        rintro _ rfl
        rw [hset.1] at hf
        cases hf
      exact uncommitted_of_settle hok hi hna hf' k₀ hk₀ (hid.trans hoc)

theorem step_failedRefused (hw : w.Sound) (h : w.FailedRefused) (a : Action)
    (hok : failsWhenRefused w a) : (step w a).FailedRefused := by
  have hother : (∀ i, a ≠ .settle i) → (step w a).calls = w.calls → (step w a).FailedRefused := by
    intro hset hcalls o ho hf
    rw [hcalls]
    exact h o (step_settled_before hw hset ho (.inr hf)) hf
  cases a with
  | startRun i stale delivery => exact startRun_failedRefused hw h i stale delivery hok
  | beginDispatch i => exact beginDispatch_failedRefused hw h i
  | settle i => exact settle_failedRefused hw h i hok
  | claimDue =>
    refine hother (by simp) ?_
    simp only [step]
    split <;> rfl
  | _ => exact hother (by simp) rfl

theorem agrees_of (hw : w.Sound) (ha : w.Accounted) (hf : w.FailedRefused) : w.Agrees := by
  intro o ho
  refine ⟨ha.dispatched o ho,?_⟩
  intro hfailed r hr hkey
  obtain ⟨k,hk,hkr,hcom⟩ := ha.started r hr
  obtain ⟨-,p,hp,hps,-⟩ := hw.claims _ (hw.calls k hk)
  have hn := hw.db.named _ (Db.mem_snapshots ho)
  have hn' := hw.db.named _ (Db.mem_snapshots hp)
  rw [hps] at hn'
  have hid : k.claim.occurrence.id = o.id := by
    have := hn'.symm.trans (hkr.symm.trans (hkey.trans hn))
    exact congrArg IdempotencyKey.occurrenceId this
  rw [hf o ho hfailed k hk hid] at hcom
  cases hcom

/-- Scheduler and workflow engine agree along every run that fails a dispatch
only if no call of its claim starts a run, before or after. -/
theorem agrees_when_refused (versions : List ℕ) (as : List Action)
    (h : Run.Conforms step (fun w a => failsWhenRefused w a) as (initial versions)) :
    (reach versions as).Agrees := by
  have hall := Run.exec_conforming step (fun w a => failsWhenRefused w a)
    (fun w => w.Sound ∧ w.Accounted ∧ w.FailedRefused)
    (fun w a hok hw => ⟨step_sound hw.1 a,step_accounted hw.1 hw.2.1 a,
      step_failedRefused hw.1 hw.2.2 a hok⟩) as (initial versions) h
    ⟨sound_initial versions,⟨by simp [initial],by simp [initial,empty],by simp [initial,empty]⟩,
      by simp [World.FailedRefused,initial,empty]⟩
  exact agrees_of hall.1 hall.2.1 hall.2.2

/-- The first claim has a call that stops and one that is refused. -/
def refusedAndAccepted : List Action :=
  setUp (once .fireOnce)++[.createSchedule ⟨"second",0,once .fireOnce,"system"⟩,
    .activateSchedule 1,.materializeDue (clock (2*Calendar.hour)) 100,
    .claimDue (clock (2*Calendar.hour)) (clock (2*Calendar.hour)) 7,
    .claimDue (clock (2*Calendar.hour)) (clock (2*Calendar.hour)) 7,
    .beginDispatch 0,.beginDispatch 0,.startRun 1 false (.rejected "NXS_CELL_PLACEMENT_FENCED"),
    .settle 1,.beginDispatch 1,.startRun 2 false .answered,.settle 2]

theorem refusedAndAccepted_agrees :
    Run.Conforms step (fun w a => failsWhenRefused w a) refusedAndAccepted (initial [0]) ∧
      (reach [0] refusedAndAccepted).Agrees :=
  have h : Run.Conforms step (fun w a => failsWhenRefused w a) refusedAndAccepted
      (initial [0]) := by decide +kernel
  ⟨h,agrees_when_refused [0] refusedAndAccepted h⟩

/-- The run is replayed after the first call started it and stopped; the second
call is refused and fails the dispatch. -/
def refusedReplay : List Action :=
  setUp (once .fireOnce)++[.materializeDue (clock (2*Calendar.hour)) 100,
    .claimDue (clock (2*Calendar.hour)) (clock (2*Calendar.hour)) 7,
    .beginDispatch 0,.startRun 0 false .answered,
    .beginDispatch 0,.startRun 1 false (.rejected "NXS_CELL_PLACEMENT_FENCED"),.settle 1]

theorem refusedReplay_disagrees : ¬ (reach [0] refusedReplay).Agrees := by
  intro h
  have hocc : (reach [0] refusedReplay).db.occurrences.map
      (fun o => (o.state,o.p14IdempotencyKey)) = [(.failed,⟨0,1⟩)] := by decide +kernel
  have hrun : (reach [0] refusedReplay).db.runs.map (fun r => r.idempotencyKey) = [⟨0,1⟩] := by
    decide +kernel
  obtain ⟨o,ho,hos⟩ := List.mem_map.mp (hocc ▸ List.mem_singleton.mpr rfl)
  obtain ⟨r,hr,hrk⟩ := List.mem_map.mp (hrun ▸ List.mem_singleton.mpr rfl)
  simp only [Prod.mk.injEq] at hos
  exact (h o ho).2 hos.1 r hr (hrk.trans hos.2.symm)

end NexusAi.Scheduler
