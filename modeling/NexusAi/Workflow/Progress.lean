import NexusAi.Workflow.Respect

/-!
# A running workflow has work

The sweeps after each operation leave no pending step with a verdict. Among the steps that
are not settled, one that comes first in the order of the graph waits for nobody. When no
such step is left, the operation that settled the last one completes the run.
-/

namespace NexusAi.Workflow
open NexusAi.Checked

def Saturated (rows : List StepRow) : Prop :=
  ∀ r ∈ rows, r.state = .pending → resolution rows r.spec = none

def Intact (rows : List StepRow) : Prop :=
  ∀ r ∈ rows, r.state ≠ .failed ∧ r.state ≠ .cancelled

def Unfinished (rows : List StepRow) : Prop := ∃ r ∈ rows, r.state.settled = false

/-- What holds after each operation. A pause suspends the sweeps, so nothing is
known of the pending steps of a paused run. -/
structure Tended (db : Db) : Prop where
  saturated : db.run.state = .running → Saturated db.steps
  unfinished : db.run.state = .running → Unfinished db.steps
  finished : db.run.state = .completed →
    (∀ r ∈ db.steps, r.state.settled) ∧ db.run.output = some (outputs db.steps)
  intact : db.run.state ≠ .failed → db.run.state ≠ .cancelled → Intact db.steps

theorem tended_idle {db : Db} (hr : db.run.state ≠ .running) (hc : db.run.state ≠ .completed)
    (hi : db.run.state ≠ .failed → db.run.state ≠ .cancelled → Intact db.steps) : Tended db :=
  ⟨fun h => absurd h hr,fun h => absurd h hr,fun h => absurd h hc,hi⟩

theorem resolve_none {states : List StepState} {mode : DependencyMode} :
    resolvePendingStep states mode = none ↔ ∃ s ∈ states, s.settled = false := by
  constructor
  · intro h
    by_contra hc
    have hany : states.any (fun s => !s.settled) = false := by
      rw [List.any_eq_false]
      intro s hs hn
      exact hc ⟨s,hs,by simpa using hn⟩
    cases mode <;> simp only [resolvePendingStep,hany] at h <;> split_ifs at h <;> simp_all
  · rintro ⟨s,hs,hn⟩
    have hany : states.any (fun s => !s.settled) := List.any_eq_true.mpr ⟨s,hs,by simp [hn]⟩
    simp [resolvePendingStep,List.ne_nil_of_mem hs,hany]

theorem resolution_none {rows : List StepRow} {spec : StepSpec} :
    resolution rows spec = none ↔ ∃ d ∈ spec.dependsOn, (stateOf rows d).settled = false := by
  rw [resolution,resolve_none,dependencyStates]
  simp

section Rows

variable {rows : List StepRow}

theorem intact_put {row : StepRow} (h : Intact rows)
    (hrow : row.state ≠ .failed ∧ row.state ≠ .cancelled) :
    Intact (Table.put StepRow.key row rows) := by
  intro r hr
  rcases put_origin hr with rfl | hr
  · exact hrow
  · exact h r hr

theorem intact_skip (h : Intact rows) (keys : List String) : Intact (rows.map (skipStep keys)) := by
  intro r hr
  obtain ⟨p,hp,rfl⟩ := List.mem_map.mp hr
  unfold skipStep
  split_ifs
  · simp
  · exact h p hp

theorem saturated_put (h : Saturated rows) (hk : Table.Keyed StepRow.key rows) {row row' : StepRow}
    (found : row ∈ rows) (hspec : row'.spec = row.spec) (hopen : row'.state.settled = false)
    (hmoved : row'.state ≠ .pending) : Saturated (Table.put StepRow.key row' rows) := by
  intro r hr hpending
  rcases put_origin hr with rfl | hr
  · exact absurd hpending hmoved
  · obtain ⟨d,hd,hn⟩ := resolution_none.mp (h r hr hpending)
    refine resolution_none.mpr ⟨d,hd,?_⟩
    rw [stateOf,Table.find_put]
    split_ifs with hkey
    · rw [← hkey,key_eq hspec,Table.find_of_mem hk found]
      exact hopen
    · exact hn

theorem unfinished_put {row row' : StepRow} (found : row ∈ rows) (hspec : row'.spec = row.spec)
    (hopen : row'.state.settled = false) : Unfinished (Table.put StepRow.key row' rows) :=
  ⟨row',Table.mem_put.mpr (.inl ⟨⟨row,found,(key_eq hspec).symm⟩,rfl⟩),hopen⟩

end Rows

section Advancing

variable {db db' : Db}

def pendings (rows : List StepRow) : ℕ :=
  (rows.map fun r => if r.state = .pending then 1 else 0).sum

theorem pendings_le (rows : List StepRow) : pendings rows ≤ rows.length := by
  unfold pendings
  induction rows with
  | nil => simp
  | cons =>
    rw [List.map_cons,List.sum_cons,List.length_cons]
    split_ifs <;> omega

theorem resolveStep_pendings {key : String} (h : resolveStep db key = some db') :
    pendings db'.steps < pendings db.steps := by
  obtain ⟨row,found,-,hpending,target,ht,-,-,hsteps⟩ := resolveStep_some h
  have hleft : target ≠ .pending := by
    rcases resolve_target ht with rfl | rfl <;> simp
  rw [hsteps,Table.put,Table.modify,pendings,List.map_map]
  apply List.sum_lt_sum
  · intro r _
    dsimp only [Function.comp]
    split_ifs <;> simp_all
  · refine ⟨row,found,?_⟩
    have hkey : row.key = ({ row with state := target } : StepRow).key := rfl
    simp [← hkey,hpending,hleft]

theorem sweeps_run (db : Db) : (sweeps db).run = db.run :=
  Sweep.saturate_related (R := fun s t : Db => t.run = s.run) (fun _ => rfl)
    (fun _ _ _ h h' => h'.trans h)
    (fun _ _ _ h => by obtain ⟨-,-,-,-,-,-,hrun,-⟩ := resolveStep_some h; exact hrun) _ _ db

theorem sweeps_intact (h : Intact db.steps) : Intact (sweeps db).steps := by
  refine Sweep.saturate_related (R := fun s t : Db => Intact s.steps → Intact t.steps)
    (fun _ => id) (fun _ _ _ h h' => h' ∘ h) ?_ _ _ db h
  intro s k t hst hs
  obtain ⟨_,-,-,-,_,ht,-,-,hsteps⟩ := resolveStep_some hst
  rw [hsteps]
  apply intact_put hs
  rcases resolve_target ht with rfl | rfl <;> simp

theorem sweeps_saturated (hk : Table.Keyed StepRow.key db.steps) :
    Saturated (sweeps db).steps := by
  have hstable : Sweep.Stable resolveStep _ (sweeps db) :=
    Sweep.saturate_stable (fun _ _ _ h => resolveStep_pendings h) _
      (Nat.lt_succ_of_le (pendings_le db.steps))
  have ms := (sweeps_effect (P := fun _ => True) trivial db).moves
  intro r hr hpending
  have hmem : r.key ∈ Kahn.sorted (db.steps.map StepRow.key) := by
    rw [Kahn.sorted,List.mem_insertionSort,← keys_of_specs (ms.specs hk)]
    exact List.mem_map_of_mem hr
  have hnone := hstable r.key hmem
  simp only [resolveStep,Table.find_of_mem (ms.keyed hk) hr,hpending,Option.filter_some,
    decide_true,if_true,Option.bind_eq_bind,Option.bind_some] at hnone
  cases hres : resolution (sweeps db).steps r.spec with
  | none => rfl
  | some =>
    rw [hres] at hnone
    cases hnone

theorem transitionRun_of {target : RunState} {reason : String}
    (h : target ∈ db.run.state.targets) :
    db.transitionRun target reason = .ok (db.enterState target reason) := by
  simp only [Db.transitionRun,requireWorkflowTransition,bind_ok,require_ok,pure_ok]
  exact ⟨(),h,trivial⟩

theorem advance_total (db : Db) : ∃ db', advance db = .ok db' := by
  unfold advance
  by_cases hrun : db.run.state = .running
  · simp only [hrun,ne_eq,not_true_eq_false,if_false]
    split_ifs
    · refine ⟨_,transitionRun_of ?_⟩
      rw [sweeps_run,hrun]
      decide
    · exact ⟨_,rfl⟩
  · simp only [hrun,ne_eq,not_false_eq_true,if_true]
    exact ⟨_,rfl⟩

theorem advance_running (h : advance db = .ok db') (hrun : db.run.state = .running)
    (hk : Table.Keyed StepRow.key db.steps) (hi : Intact db.steps) :
    Tended db' ∧ (db'.run.state = .running ∨ db'.run.state = .completed) := by
  rcases advance_cases h with ⟨hn,-⟩ | ⟨-,⟨hall,rfl⟩ | ⟨hall,rfl⟩⟩
  · exact absurd hrun hn
  · refine ⟨⟨fun hs => ?_,fun hs => ?_,fun _ => ⟨?_,rfl⟩,fun _ _ => sweeps_intact hi⟩,.inr rfl⟩
    · cases hs
    · cases hs
    · simpa [Db.enterState,Db.addTransition] using hall
  · have hstate : (sweeps db).run.state = .running := by rw [sweeps_run,hrun]
    refine ⟨⟨fun _ => sweeps_saturated hk,fun _ => ?_,fun hs => ?_,fun _ _ => sweeps_intact hi⟩,
      .inl hstate⟩
    · simpa [Unfinished] using hall
    · rw [hstate] at hs
      cases hs

theorem advance_open (h : advance db = .ok db')
    (hrun : db.run.state = .running ∨ db.run.state = .paused)
    (hk : Table.Keyed StepRow.key db.steps) (hi : Intact db.steps) :
    Tended db' ∧ (db.run.state = .running →
      db'.run.state = .running ∨ db'.run.state = .completed) := by
  rcases hrun with hrun | hrun
  · obtain ⟨ht,hs⟩ := advance_running h hrun hk hi
    exact ⟨ht,fun _ => hs⟩
  · have hne : db.run.state ≠ .running := by simp [hrun]
    rcases advance_cases h with ⟨-,rfl⟩ | ⟨hc,-⟩
    · exact ⟨tended_idle hne (by simp [hrun]) fun _ _ => hi,fun hc => absurd hc hne⟩
    · exact absurd hc hne

end Advancing

section Operations

variable {db db' : Db}

section

variable (hk : Table.Keyed StepRow.key db.steps) (ht : Tended db)

include hk ht

theorem finish_tended {e : Execution} (h : finish db e = .ok db') :
    Tended db' ∧ (db.run.state = .running →
      db'.run.state = .running ∨ db'.run.state = .completed) := by
  have hopen : ∀ r, fencedRow db e.claim = some r → Intact db.steps := by
    intro r hr
    rcases (fencedRow_some hr).1 with hs | hs <;> exact ht.intact (by simp [hs]) (by simp [hs])
  unfold finish at h
  split at h
  · simp only [finishStep,bind_ok,present_ok] at h
    obtain ⟨row,hrow,h⟩ := h
    have hnext := advance_open h (fencedRow_some hrow).1 (Table.keyed_put hk)
      (intact_put (hopen row hrow) (by simp))
    exact hnext
  · rename_i keys _
    simp only [finishCondition,bind_ok,present_ok] at h
    obtain ⟨row,hrow,h⟩ := h
    have hnext := advance_open h (fencedRow_some hrow).1 (Table.keyed_map (Table.keyed_put hk)
      fun r => key_eq (skipStep_spec keys r))
      (intact_skip (intact_put (hopen row hrow) (by simp)) keys)
    exact hnext

theorem failStep_tended {c : StepClaim} {code : String} {retryable : Bool}
    (h : failStep db c code retryable = .ok db') :
    Tended db' ∧ (db.run.state = .running → Unfinished db'.steps) := by
  simp only [failStep,bind_ok,present_ok] at h
  obtain ⟨_,hrow,h⟩ := h
  obtain ⟨hrun,found,-,-⟩ := fencedRow_some hrow
  split_ifs at h
  · rw [pure_ok] at h
    subst h
    refine ⟨⟨fun hs => saturated_put (ht.saturated hs) hk found rfl rfl (by simp),
      fun _ => unfinished_put found rfl rfl,?_,fun h1 h2 => intact_put (ht.intact h1 h2) (by simp)⟩,
      fun _ => unfinished_put found rfl rfl⟩
    intro hs
    change db.run.state = .completed at hs
    rw [hs] at hrun
    rcases hrun with hrun | hrun <;> cases hrun
  · obtain ⟨-,rfl⟩ := transitionRun_ok h
    exact ⟨tended_idle (by simp [Db.enterState,Db.addTransition])
      (by simp [Db.enterState,Db.addTransition]) fun hs => absurd rfl hs,
      fun _ => unfinished_put found rfl rfl⟩

theorem claim_tended (ownerId : ℕ) (locked : String → Bool) :
    Tended (claim db ownerId locked).1 ∧ (claim db ownerId locked).1.run = db.run := by
  rcases claim_cases db ownerId locked with he | ⟨_,found,-,hrun,he⟩
  · rw [he]
    exact ⟨ht,rfl⟩
  · rw [he]
    refine ⟨⟨fun hs => saturated_put (ht.saturated hs) hk found rfl rfl (by simp),
      fun _ => unfinished_put found rfl rfl,?_,fun h1 h2 => intact_put (ht.intact h1 h2) (by simp)⟩,
      rfl⟩
    intro hs
    change db.run.state = .completed at hs
    rw [hs] at hrun
    cases hrun

end

theorem pauseRun_tended (ht : Tended db) (h : pauseRun db = .ok db') :
    Tended db' ∧ db'.steps = db.steps := by
  obtain ⟨hm,rfl⟩ := transitionRun_ok h
  have hi : Intact db.steps := by
    refine ht.intact ?_ ?_ <;> intro hs <;> rw [hs] at hm <;> cases hm
  exact ⟨tended_idle (by simp [Db.enterState,Db.addTransition])
    (by simp [Db.enterState,Db.addTransition]) fun _ _ => hi,rfl⟩

theorem resumeRun_tended (hk : Table.Keyed StepRow.key db.steps) (ht : Tended db)
    (h : resumeRun db = .ok db') :
    Tended db' ∧ (db'.run.state = .running ∨ db'.run.state = .completed) := by
  simp only [resumeRun,bind_ok] at h
  obtain ⟨_,h1,h2⟩ := h
  obtain ⟨hm,rfl⟩ := transitionRun_ok h1
  refine advance_running h2 rfl hk (ht.intact ?_ ?_) <;> intro hs <;> rw [hs] at hm <;> cases hm

theorem resumed (hk : Table.Keyed StepRow.key db.steps) (ht : Tended db)
    (h : resumeRun db = .ok db') : Unfinished db'.steps ∨ db'.run.state = .completed := by
  obtain ⟨ht',hs⟩ := resumeRun_tended hk ht h
  exact hs.imp_left ht'.unfinished

theorem resumeRun_total (h : db.run.state = .paused) : ∃ db', resumeRun db = .ok db' := by
  obtain ⟨db',h'⟩ := advance_total (db.enterState .running "WORKFLOW_RESUMED")
  refine ⟨db',?_⟩
  simp only [resumeRun,bind_ok]
  exact ⟨_,transitionRun_of (by rw [h]; decide),h'⟩

theorem cancelRun_tended (h : cancelRun db = .ok db') :
    Tended db' ∧ (Unfinished db.steps → Unfinished db'.steps) := by
  simp only [cancelRun,bind_ok,pure_ok] at h
  obtain ⟨_,h1,rfl⟩ := h
  obtain ⟨-,rfl⟩ := transitionRun_ok h1
  refine ⟨tended_idle (by simp [cancelSteps,Db.enterState,Db.addTransition])
    (by simp [cancelSteps,Db.enterState,Db.addTransition]) fun _ hs => absurd rfl hs,?_⟩
  rintro ⟨r,hr,hopen⟩
  refine ⟨cancelStep r,List.mem_map_of_mem hr,?_⟩
  unfold cancelStep
  split_ifs
  · rfl
  · exact hopen

end Operations

theorem tended_start (g : Graph) (input : Json.Fields) : Tended (startRun g input) := by
  have hopen := newStep_open
  constructor
  · intro _
    rw [startRun_steps]
    intro r hr hpending
    obtain ⟨spec,_,rfl⟩ := List.mem_map.mp hr
    rcases newStep_cases spec with ⟨-,hs⟩ | ⟨hne,-⟩
    · rw [hs] at hpending
      cases hpending
    · obtain ⟨d,_,hd⟩ := List.exists_cons_of_ne_nil hne
      refine resolution_none.mpr ⟨d,hd ▸ List.mem_cons_self ..,?_⟩
      by_contra hsettled
      obtain ⟨p,hp,-,hs⟩ := stateOf_settled (by simpa using hsettled)
      obtain ⟨s,-,rfl⟩ := List.mem_map.mp hp
      exact hsettled (hs ▸ hopen s)
  · intro _
    rw [startRun_steps]
    obtain ⟨s,_,hs⟩ := List.exists_cons_of_ne_nil g.accepted_iff.1
    have hm : s ∈ g.published := Graph.mem_published.mpr (hs ▸ List.mem_cons_self ..)
    exact ⟨newStep s,List.mem_map_of_mem hm,hopen s⟩
  · simp [(startRun_run g input).1]
  · intro _ _
    rw [startRun_steps]
    intro r hr
    obtain ⟨spec,-,rfl⟩ := List.mem_map.mp hr
    rcases newStep_cases spec with ⟨-,hs⟩ | ⟨-,hs⟩ <;> rw [hs] <;> simp

section Steps

variable {g : Graph} {input : Json.Fields} {w : World}

theorem step_tended (hw : w.Sound g input) (ht : Tended w.db) (a : Action) :
    Tended (step w a).db := by
  have hk := hw.rows.keyed
  exact step_db (P := fun _ db => Tended db) (fun _ => ht)
    (fun ownerId locked => (claim_tended hk ht ownerId locked).1)
    (fun _ _ _ _ h => (finish_tended hk ht h).1) (fun _ _ _ _ _ _ _ h => (failStep_tended hk ht h).1)
    (fun _ h => (pauseRun_tended ht h).1) (fun _ h => (resumeRun_tended hk ht h).1)
    (fun _ h => (cancelRun_tended h).1) a

theorem step_completes (hw : w.Sound g input) (ht : Tended w.db) (hrun : w.db.run.state = .running)
    (a : Action) : Unfinished (step w a).db.steps ∨ (step w a).db.run.state = .completed := by
  have hk := hw.rows.keyed
  have hu := ht.unfinished hrun
  refine step_db (P := fun _ db => Unfinished db.steps ∨ db.run.state = .completed)
    (fun _ => .inl hu) (fun ownerId locked => .inl ?_) (fun _ _ _ _ h => ?_)
    (fun _ _ _ _ _ _ _ h => .inl ((failStep_tended hk ht h).2 hrun)) (fun _ h => .inl ?_)
    (fun _ h => resumed hk ht h) (fun _ h => .inl ((cancelRun_tended h).2 hu)) a
  · obtain ⟨ht',hsame⟩ := claim_tended hk ht ownerId locked
    exact ht'.unfinished (by rw [hsame,hrun])
  · obtain ⟨ht',hs⟩ := finish_tended hk ht h
    exact (hs hrun).imp_left ht'.unfinished
  · rw [(pauseRun_tended ht h).2]
    exact hu

theorem Sound.row_of_key {rows : List StepRow} (h : Sound g rows) {key : String}
    (hkey : key ∈ g.keys) : ∃ r ∈ rows, r.key = key := by
  obtain ⟨s,hs,rfl⟩ := List.mem_map.mp hkey
  rw [← Graph.mem_published,← h.specs] at hs
  obtain ⟨r,hr,rfl⟩ := List.mem_map.mp hs
  exact ⟨r,hr,rfl⟩

theorem exists_workable {rows : List StepRow} (h : Sound g rows) (hs : Saturated rows)
    (hi : Intact rows) {r : StepRow} (hr : r ∈ rows) (hopen : r.state.settled = false) :
    ∃ r ∈ rows, r.state = .ready ∨ r.state = .running := by
  induction hn : g.rank r.key using Nat.strong_induction_on generalizing r with
  | _ _ ih =>
    cases hstate : r.state with
    | pending =>
      obtain ⟨d,hd,hunsettled⟩ := resolution_none.mp (hs r hr hstate)
      obtain ⟨p,hp,rfl⟩ := h.row_of_key (Graph.dependency_known (h.mem_steps hr) hd)
      rw [stateOf_mem h.keyed hp] at hunsettled
      exact ih _ (hn ▸ Graph.rank_lt (h.mem_steps hr) hd) hp hunsettled rfl
    | ready => exact ⟨r,hr,.inl hstate⟩
    | running => exact ⟨r,hr,.inr hstate⟩
    | failed => exact absurd hstate (hi r hr).1
    | cancelled => exact absurd hstate (hi r hr).2
    | completed | skipped =>
      rw [hstate] at hopen
      cases hopen

end Steps

theorem reach_tended (g : Graph) (input : Json.Fields) (as : List Action) :
    Tended (reach g input as).db :=
  (Run.exec_invariant step (fun w => w.Sound g input ∧ Tended w.db)
    (fun _ a h => ⟨step_sound h.1 a,step_tended h.1 h.2 a⟩) as (start g input)
    ⟨world_sound_start g input,tended_start g input⟩).2

/-- A running workflow has a step that is ready or running. When an operation
of a running workflow, or its resumption, leaves every step completed or
skipped, that operation completes the run, and only then is a run completed. -/
theorem running_has_work (g : Graph) (input : Json.Fields) (as : List Action) :
    ((reach g input as).db.run.state = .running →
      ∃ r ∈ (reach g input as).db.steps, r.state = .ready ∨ r.state = .running) ∧
    (∀ a, (reach g input as).db.run.state = .running ∨
        (reach g input as).db.run.state = .paused ∧ a = .resume →
      (∀ r ∈ (reach g input (as++[a])).db.steps, r.state = .completed ∨ r.state = .skipped) →
      (reach g input (as++[a])).db.run.state = .completed) ∧
    ((reach g input as).db.run.state = .completed →
      ∀ r ∈ (reach g input as).db.steps, r.state = .completed ∨ r.state = .skipped) := by
  have hw := reach_sound g input as
  have ht := reach_tended g input as
  refine ⟨?_,?_,?_⟩
  · intro hrun
    obtain ⟨r,hr,hopen⟩ := ht.unfinished hrun
    refine exists_workable hw.rows (ht.saturated hrun) (ht.intact ?_ ?_) hr hopen <;> simp [hrun]
  · intro a hrun hall
    have hlast : reach g input (as++[a]) = step (reach g input as) a := by
      rw [reach,Run.exec_append]
      rfl
    rw [hlast] at hall ⊢
    have hnone : ¬ Unfinished (step (reach g input as) a).db.steps := by
      rintro ⟨r,hr,hopen⟩
      rcases hall r hr with hs | hs <;> rw [hs] at hopen <;> cases hopen
    rcases hrun with hrun | ⟨hrun,rfl⟩
    · exact (step_completes hw ht hrun a).resolve_left hnone
    · obtain ⟨_,h⟩ := resumeRun_total hrun
      have hdone := resumed hw.rows.keyed ht h
      simp only [step,settleWith,h] at hnone ⊢
      exact hdone.resolve_left hnone
  · intro hrun r hr
    simpa [StepState.settled] using (ht.finished hrun).1 r hr

/-- The steps of a run are those of its graph. Just the completed ones have an output, and
a completed run has all of these. A step is skipped by the rule for its dependencies or by a
condition, and what a condition excludes never runs. -/
theorem steps_accounted (g : Graph) (input : Json.Fields) (as : List Action) :
    let db := (reach g input as).db
    db.steps.map StepRow.spec = g.published ∧ db.run.input = input ∧
    (∀ r ∈ db.steps, (r.output.isSome ↔ r.state = .completed) ∧
      (r.state = .skipped → resolution db.steps r.spec = some .skipped ∨ Excluded db.steps r.key) ∧
      (Excluded db.steps r.key → r.state = .skipped ∨ r.state = .cancelled)) ∧
    (db.run.state = .completed → db.run.output = some (outputs db.steps)) := by
  have hw := reach_sound g input as
  refine ⟨hw.rows.specs,hw.given,fun r hr => ?_,fun hdone => ?_⟩
  · exact ⟨hw.rows.told r hr,hw.rows.skipped r hr,hw.rows.excluded r hr⟩
  · exact ((reach_tended g input as).finished hdone).2

end NexusAi.Workflow
