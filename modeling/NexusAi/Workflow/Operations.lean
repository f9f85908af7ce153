import NexusAi.Workflow.Moves

/-!
# Operations as moves

A step that has left PENDING towards running has the dependencies that its mode asks for,
and the steps of a branch that was not selected are out of the game. Each operation that
commits makes moves of the step rows and keeps the input of the run, so the rows of every
reachable state are sound.
-/

namespace NexusAi.Workflow
open NexusAi.Checked

def Excluded (rows : List StepRow) (key : String) : Prop :=
  ∃ c ∈ rows, c.state = .completed ∧ ∃ o, c.output = some o ∧ key ∈ excludes c.spec o

structure Sound (g : Graph) (rows : List StepRow) : Prop where
  specs : rows.map StepRow.spec = g.published
  enabled : ∀ r ∈ rows, r.state.active → resolution rows r.spec = some .ready
  excluded : ∀ r ∈ rows, Excluded rows r.key → r.state = .skipped ∨ r.state = .cancelled
  skipped : ∀ r ∈ rows, r.state = .skipped →
    resolution rows r.spec = some .skipped ∨ Excluded rows r.key
  told : ∀ r ∈ rows, r.output.isSome ↔ r.state = .completed
  decided : ∀ r ∈ rows, ∀ c, r.spec.config = .condition c → ∀ o, r.output = some o →
    ∃ b, o = conditionOutput c.toConditionFields b

section

variable {g : Graph} {rows rows' : List StepRow} {lab : Label}

theorem Sound.keyed (h : Sound g rows) : Table.Keyed StepRow.key rows := by
  have hk := g.published_keyed
  rw [← h.specs,Table.Keyed,List.map_map] at hk
  exact hk

variable {r r' : StepRow} {output : Json.Fields}

theorem Sound.mem_steps (h : Sound g rows) (hr : r ∈ rows) : r.spec ∈ g.steps := by
  rw [← Graph.mem_published,← h.specs]
  exact List.mem_map_of_mem hr

theorem excludes_branch {spec : StepSpec} {key : String} (h : key ∈ excludes spec output) :
    ∃ c, spec.config = .condition c ∧ key ∈ c.thenSteps++c.elseSteps := by
  unfold excludes at h
  split at h
  · rename_i c _ hc _
    refine ⟨c,hc,List.mem_append.mpr ?_⟩
    unfold ConditionFields.selected at h
    split_ifs at h
    · exact .inl h
    · exact .inr h
  · cases h

theorem Sound.excluded_depends (h : Sound g rows) {c : StepRow} (hc : c ∈ rows) (hr : r ∈ rows)
    (hx : r.key ∈ excludes c.spec output) : c.key ∈ r.spec.dependsOn := by
  obtain ⟨_,hcfg,hb⟩ := excludes_branch hx
  have hd := Graph.branch_depends (h.mem_steps hc) hcfg hb
  rw [← Graph.dependencies_of_mem (h.mem_steps hr)]
  exact hd

theorem settled_of_resolution {spec : StepSpec} {t : StepState}
    (h : resolution rows spec = some t) {d : String} (hd : d ∈ spec.dependsOn) :
    (stateOf rows d).settled :=
  resolve_settled h _ (List.mem_map_of_mem hd)

theorem Sound.inactive (h : Sound g rows) {c : StepRow} (hc : c ∈ rows) (hr : r ∈ rows)
    (hd : c.key ∈ r.spec.dependsOn) (hopen : c.state.settled = false) : r.state.active = false := by
  by_contra hact
  have hs := settled_of_resolution (h.enabled r hr (by simpa using hact)) hd
  rw [stateOf_mem h.keyed hc,hopen] at hs
  cases hs

theorem Excluded.follows (hf : Follows rows rows') {key : String} (h : Excluded rows key) :
    Excluded rows' key := by
  obtain ⟨c,hc,hs,o,ho,hx⟩ := h
  obtain ⟨c',hc',hspec,hs',ho'⟩ := hf c hc (by rw [hs]; rfl)
  exact ⟨c',hc',hs'.trans hs,o,ho'.trans ho,hspec ▸ hx⟩

theorem sound_enabled (h : Sound g rows) (m : Move lab rows rows') (hr : r' ∈ rows')
    (hact : r'.state.active) : resolution rows' r'.spec = some .ready := by
  obtain ⟨r,hm,hspec,ch⟩ := m.origin hr
  rw [hspec]
  apply m.resolution_kept h.keyed
  rcases ch.of_active hact with hold | hnew
  · exact h.enabled r hm hold
  · exact hnew

theorem sound_finished (h : Sound g rows) {c : StepRow} (m : Move (.finish c output) rows rows')
    (hc : c ∈ rows) (running : c.state = .running) (hr : r' ∈ rows')
    (hx : r'.key ∈ excludes c.spec output) : r'.state = .skipped ∨ r'.state = .cancelled := by
  obtain ⟨r,hm,hspec,ch⟩ := m.origin hr
  obtain ⟨hpending,_⟩ := m.excluded hr hx
  rw [key_eq hspec] at hx
  have hinactive := h.inactive hc hm (h.excluded_depends hc hm hx) (by rw [running]; rfl)
  have hstill : r'.state.active = false := by
    by_contra hact
    rcases ch.of_active (by simpa using hact) with hold | hnew
    · rw [hold] at hinactive
      cases hinactive
    · have hs := settled_of_resolution hnew (h.excluded_depends hc hm hx)
      rw [stateOf_mem h.keyed hc,running] at hs
      cases hs
  revert hstill hpending
  cases r'.state <;> simp [StepState.active]

section

variable (h : Sound g rows) (m : Move lab rows rows')

include h m

theorem sound_excluded (hr : r' ∈ rows') (hx : Excluded rows' r'.key) :
    r'.state = .skipped ∨ r'.state = .cancelled := by
  obtain ⟨c',hc',hdone,o,ho,hkey⟩ := hx
  obtain ⟨c,hcm,hcspec,ch⟩ := m.origin hc'
  rcases ch.of_completed hdone with rfl | ⟨_,rfl,running,hout⟩
  · obtain ⟨r,hm,hspec,-⟩ := m.origin hr
    rw [key_eq hspec] at hkey
    have hstate := h.excluded r hm ⟨c',hcm,hdone,o,ho,hkey⟩
    have hkept := m.terminal_kept h.keyed hm
      (by rcases hstate with hs | hs <;> rw [hs] <;> rfl)
    rw [Table.mem_unique (m.keyed h.keyed) hr hkept (key_eq hspec)]
    exact hstate
  · obtain rfl := Option.some.inj (hout.symm.trans ho)
    exact sound_finished h m hcm running hr (hcspec ▸ hkey)

theorem sound_skipped (hr : r' ∈ rows') (hs : r'.state = .skipped) :
    resolution rows' r'.spec = some .skipped ∨ Excluded rows' r'.key := by
  obtain ⟨r,hm,hspec,ch⟩ := m.origin hr
  rw [hspec,key_eq hspec]
  rcases ch.of_skipped hs with rfl | hx | hres
  · exact (h.skipped r' hm hs).imp (m.resolution_kept h.keyed)
      (Excluded.follows (m.follows h.keyed))
  · exact .inr hx
  · exact .inl (m.resolution_kept h.keyed hres)

theorem sound_told (hr : r' ∈ rows') : r'.output.isSome ↔ r'.state = .completed := by
  obtain ⟨r,hm,_,ch⟩ := m.origin hr
  have hold := h.told r hm
  cases ch with
  | same he => rw [he]; exact hold
  | finished _ _ after out => simp [after,out]
  | resolved before after out =>
    rw [out,hold,before]
    rcases resolve_target after with ht | ht <;> simp [ht]
  | claimed label before after out | retried before after out | failed before after out =>
    rw [out,hold,before,after]
    simp
  | skipped before after out | cancelled before after out =>
    rw [out,hold,after]
    rcases before with hb | hb <;> simp [hb]

theorem sound_decided (htells : lab.Tells) (hr : r' ∈ rows') {c : ConditionConfig}
    (hc : r'.spec.config = .condition c) {o : Json.Fields} (ho : r'.output = some o) :
    ∃ b, o = conditionOutput c.toConditionFields b := by
  have hdone := (sound_told h m hr).mp (by rw [ho]; rfl)
  obtain ⟨r,hm,hspec,ch⟩ := m.origin hr
  rw [hspec] at hc
  rcases ch.of_completed hdone with rfl | ⟨_,rfl,-,hout⟩
  · exact h.decided r' hm c hc o ho
  · obtain rfl := Option.some.inj (hout.symm.trans ho)
    exact htells c hc

theorem sound_move (htells : lab.Tells) : Sound g rows' where
  specs := (m.specs h.keyed).trans h.specs
  enabled _ hr := sound_enabled h m hr
  excluded _ hr := sound_excluded h m hr
  skipped _ hr := sound_skipped h m hr
  told _ hr := sound_told h m hr
  decided _ hr _ hc _ ho := sound_decided h m htells hr hc ho

end

section Chains

variable {P : Label → Prop}

section

variable (ms : Moves P rows rows') (hk : Table.Keyed StepRow.key rows)

include ms hk

theorem Moves.keyed : Table.Keyed StepRow.key rows' := by
  induction ms with
  | refl => exact hk
  | tail _ hm ih =>
    obtain ⟨_,-,m⟩ := hm
    exact m.keyed ih

theorem Moves.specs : rows'.map StepRow.spec = rows.map StepRow.spec := by
  induction ms with
  | refl => rfl
  | tail hms hm ih =>
    obtain ⟨_,-,m⟩ := hm
    exact (m.specs (Moves.keyed hms hk)).trans ih

theorem Moves.terminal_kept {r : StepRow} (hr : r ∈ rows) (ht : r.state.terminal) :
    r ∈ rows' := by
  induction ms with
  | refl => exact hr
  | tail hms hm ih =>
    obtain ⟨_,-,m⟩ := hm
    exact m.terminal_kept (Moves.keyed hms hk) ih ht

theorem Moves.follows : Follows rows rows' :=
  fun r hr h => ⟨r,ms.terminal_kept hk hr (settled_terminal h),rfl,rfl,rfl⟩

end

theorem Moves.sound (ms : Moves P rows rows') (hP : ∀ lab, P lab → lab.Tells) (h : Sound g rows) :
    Sound g rows' := by
  induction ms with
  | refl => exact h
  | tail _ hm ih =>
    obtain ⟨lab,hlab,m⟩ := hm
    exact sound_move ih m (hP lab hlab)

end Chains

end

structure Effect (P : Label → Prop) (db db' : Db) : Prop where
  moves : Moves P db.steps db'.steps
  input : db'.run.input = db.run.input
  fresh : db.fresh ≤ db'.fresh

section

variable {P : Label → Prop} {db db' db'' : Db}

theorem Effect.refl (db : Db) : Effect P db db := ⟨.refl,rfl,le_rfl⟩

theorem Effect.trans (h : Effect P db db') (h' : Effect P db' db'') : Effect P db db'' :=
  ⟨h.moves.trans h'.moves,h'.input.trans h.input,h.fresh.trans h'.fresh⟩

theorem Effect.move {lab : Label} (hP : P lab) (m : Move lab db.steps db'.steps)
    (input : db'.run.input = db.run.input) (fresh : db.fresh ≤ db'.fresh) : Effect P db db' :=
  ⟨.single ⟨lab,hP,m⟩,input,fresh⟩

theorem Effect.same (steps : db'.steps = db.steps) (input : db'.run.input = db.run.input)
    (fresh : db'.fresh = db.fresh) : Effect P db db' :=
  ⟨steps ▸ .refl,input,fresh.ge⟩

theorem resolveStep_some {key : String} (h : resolveStep db key = some db') :
    ∃ row ∈ db.steps, row.key = key ∧ row.state = .pending ∧ ∃ target,
      resolution db.steps row.spec = some target ∧ db'.run = db.run ∧ db'.fresh = db.fresh ∧
      db'.steps = Table.put StepRow.key { row with state := target } db.steps := by
  simp only [resolveStep,Option.bind_eq_bind,Option.bind_eq_some_iff,Option.filter_eq_some_iff,
    decide_eq_true_eq,Option.pure_def,Option.some.injEq] at h
  obtain ⟨row,⟨hfind,hpending⟩,target,ht,rfl⟩ := h
  exact ⟨row,Table.find_mem hfind,Table.find_key hfind,hpending,target,ht,rfl,rfl,rfl⟩

theorem resolveStep_effect (hP : P .quiet) {key : String} (h : resolveStep db key = some db') :
    Effect P db db' := by
  obtain ⟨_,found,-,hpending,_,ht,hrun,hfresh,hsteps⟩ := resolveStep_some h
  exact .move hP (hsteps ▸ .resolve found hpending ht) (by rw [hrun]) hfresh.ge

theorem sweeps_effect (hP : P .quiet) (db : Db) : Effect P db (sweeps db) :=
  Sweep.saturate_related Effect.refl (fun _ _ _ h h' => h.trans h')
    (fun _ _ _ h => resolveStep_effect hP h) _ _ db

theorem transitionRun_ok {target : RunState} {reason : String}
    (h : db.transitionRun target reason = .ok db') :
    target ∈ db.run.state.targets ∧ db' = db.enterState target reason := by
  simp only [Db.transitionRun,requireWorkflowTransition,bind_ok,require_ok,pure_ok] at h
  obtain ⟨_,ht,rfl⟩ := h
  exact ⟨ht,rfl⟩

theorem advance_cases (h : advance db = .ok db') :
    (db.run.state ≠ .running ∧ db' = db) ∨ (db.run.state = .running ∧
      (((sweeps db).steps.all (fun r => r.state.settled) ∧
        db' = ({ sweeps db with
          run := { (sweeps db).run with
            output := some (outputs (sweeps db).steps) } } : Db).enterState
              .completed "WORKFLOW_COMPLETED") ∨
      ((sweeps db).steps.all (fun r => r.state.settled) = false ∧
        db' = sweeps db))) := by
  unfold advance at h
  by_cases hrun : db.run.state = .running
  · simp only [hrun,ne_eq,not_true_eq_false,if_false] at h
    refine .inr ⟨hrun,?_⟩
    split_ifs at h with hall
    · exact .inl ⟨hall,(transitionRun_ok h).2⟩
    · exact .inr ⟨by simpa using hall,(Except.ok.inj h).symm⟩
  · simp only [hrun,ne_eq,not_false_eq_true,if_true] at h
    exact .inl ⟨hrun,(Except.ok.inj h).symm⟩

theorem advance_effect (hP : P .quiet) (h : advance db = .ok db') : Effect P db db' := by
  have hsweeps := sweeps_effect hP db
  rcases advance_cases h with ⟨-,rfl⟩ | ⟨-,⟨-,rfl⟩ | ⟨-,rfl⟩⟩
  · exact .refl _
  · exact hsweeps.trans (.same rfl rfl rfl)
  · exact hsweeps

theorem fencedRow_some {claim : StepClaim} {r : StepRow} (h : fencedRow db claim = some r) :
    (db.run.state = .running ∨ db.run.state = .paused) ∧ r ∈ db.steps ∧
      r.key = claim.spec.key ∧ r.state = .running ∧ r.executionOwnerId = some claim.ownerId ∧
      r.claimToken = some claim.claimToken := by
  unfold fencedRow at h
  split_ifs at h with hrun
  rw [Option.filter_eq_some_iff] at h
  simp only [Bool.and_eq_true,decide_eq_true_eq] at h
  obtain ⟨hfind,⟨hstate,howner⟩,htoken⟩ := h
  exact ⟨hrun,Table.find_mem hfind,Table.find_key hfind,hstate,howner,htoken⟩

theorem skipStep_nil (rows : List StepRow) : rows.map (skipStep []) = rows := by
  conv_rhs => rw [← List.map_id rows]
  exact List.map_congr_left fun r _ => if_neg (by simp)

theorem finish_effect {e : Execution} (h : finish db e = .ok db')
    (hspec : ∀ r, fencedRow db e.claim = some r → r.spec = e.claim.spec)
    (hskip : e.skipped.getD [] = excludes e.claim.spec e.output) (hq : P .quiet)
    (hP : ∀ r, fencedRow db e.claim = some r → P (.finish r e.output)) : Effect P db db' := by
  unfold finish at h
  split at h
  · rename_i hnone
    simp only [finishStep,bind_ok,present_ok] at h
    obtain ⟨row,hrow,h⟩ := h
    obtain ⟨-,found,-,running,-⟩ := fencedRow_some hrow
    refine Effect.trans ?_ (advance_effect hq h)
    have m : Move (.finish row e.output) db.steps
        ((Table.put StepRow.key (row.done e.output e.reference) db.steps).map
          (skipStep (excludes row.spec e.output))) := .finish found running
    rw [hnone] at hskip
    rw [hspec row hrow,← hskip,Option.getD_none,skipStep_nil] at m
    exact .move (hP row hrow) m rfl le_rfl
  · rename_i hsome
    simp only [finishCondition,bind_ok,present_ok] at h
    obtain ⟨row,hrow,h⟩ := h
    obtain ⟨-,found,-,running,-⟩ := fencedRow_some hrow
    refine Effect.trans ?_ (advance_effect hq h)
    have m : Move (.finish row e.output) db.steps
        ((Table.put StepRow.key (row.done e.output row.externalReference) db.steps).map
          (skipStep (excludes row.spec e.output))) := .finish found running
    rw [hsome] at hskip
    rw [hspec row hrow,← hskip,Option.getD_some] at m
    exact .move (hP row hrow) m rfl le_rfl

theorem failStep_effect (hP : P .quiet) {c : StepClaim} {code : String} {retryable : Bool}
    (h : failStep db c code retryable = .ok db') : Effect P db db' := by
  simp only [failStep,bind_ok,present_ok] at h
  obtain ⟨_,hrow,h⟩ := h
  obtain ⟨-,found,-,running,-⟩ := fencedRow_some hrow
  split_ifs at h
  · rw [pure_ok] at h
    subst h
    exact .move hP (.retry found running) rfl le_rfl
  · obtain ⟨-,rfl⟩ := transitionRun_ok h
    exact .move hP (.fail found running) rfl le_rfl

theorem pauseRun_effect (h : pauseRun db = .ok db') : Effect P db db' := by
  obtain ⟨-,rfl⟩ := transitionRun_ok h
  exact .same rfl rfl rfl

theorem resumeRun_effect (hP : P .quiet) (h : resumeRun db = .ok db') : Effect P db db' := by
  simp only [resumeRun,bind_ok] at h
  obtain ⟨_,h1,h2⟩ := h
  obtain ⟨-,rfl⟩ := transitionRun_ok h1
  have hsame : Effect P db (db.enterState .running "WORKFLOW_RESUMED") := .same rfl rfl rfl
  exact hsame.trans (advance_effect hP h2)

theorem cancelRun_effect (hP : P .quiet) (h : cancelRun db = .ok db') : Effect P db db' := by
  simp only [cancelRun,bind_ok,pure_ok] at h
  obtain ⟨_,h1,rfl⟩ := h
  obtain ⟨-,rfl⟩ := transitionRun_ok h1
  exact .move hP .cancel rfl le_rfl

theorem claim_cases (db : Db) (ownerId : ℕ) (locked : String → Bool) :
    claim db ownerId locked = (db,none) ∨ ∃ row ∈ db.steps, row.state = .ready ∧
      db.run.state = .running ∧ claim db ownerId locked =
        (({ db with fresh := db.fresh+1 } : Db).moveStep { row with
          state := .running, attemptCount := row.attemptCount+1,
          executionOwnerId := some ownerId, claimToken := some db.fresh } .ready
          "STEP_CLAIMED" .worker,some ⟨row.spec,db.run.input,ownerId,db.fresh⟩) := by
  unfold claim
  split_ifs with hrun
  · exact .inl rfl
  · split
    · exact .inl rfl
    · rename_i row hfind
      have hm := List.mem_of_find?_eq_some hfind
      have hp := List.find?_some hfind
      simp only [Bool.and_eq_true,decide_eq_true_eq] at hp
      refine .inr ⟨row,?_,hp.1,not_not.mp hrun,rfl⟩
      rwa [listSteps,List.mem_insertionSort] at hm

theorem claim_effect (db : Db) (hP : P (.take db.fresh)) (ownerId : ℕ) (locked : String → Bool) :
    Effect P db (claim db ownerId locked).1 := by
  rcases claim_cases db ownerId locked with he | ⟨_,found,ready,-,he⟩
  · rw [he]
    exact .refl _
  · rw [he]
    exact .move hP (.claim found ready) rfl (Nat.le_succ _)

end

end NexusAi.Workflow
