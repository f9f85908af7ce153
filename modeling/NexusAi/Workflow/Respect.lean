import NexusAi.Workflow.Operations

/-!
# Every run respects its graph

Claims name steps of the graph and executions carry the exclusions that their
outputs tell, so every step of the system makes sound moves. What a running or
completed step found in its dependencies, all later states still show.
-/

namespace NexusAi.Workflow
open NexusAi.Checked

/-- The output of an execution tells the branch that it selected, and the steps
that it will skip are those of the other one. -/
def Execution.Faithful (e : Execution) : Prop :=
  e.skipped.getD [] = excludes e.claim.spec e.output ∧
    ∀ c, e.claim.spec.config = .condition c → ∃ b, e.output = conditionOutput c.toConditionFields b

structure World.Sound (g : Graph) (input : Json.Fields) (w : World) : Prop where
  rows : Workflow.Sound g w.db.steps
  given : w.db.run.input = input
  claims : ∀ c ∈ w.claims, c.spec ∈ g.steps ∧ c.input = input ∧ c.claimToken < w.db.fresh
  executions : ∀ e ∈ w.executions, e.claim ∈ w.claims ∧ e.Faithful

/-- The moves that an action may make: a claim takes a new token, and only
finishing has an output. -/
def Licensed (w : World) (a : Action) : Label → Prop
  | .quiet => True
  | .take token => w.db.fresh ≤ token
  | .finish row output => ∃ j e, a = .finish j ∧ w.executions[j]? = some e ∧
      fencedRow w.db e.claim = some row ∧ output = e.output

theorem addStep_steps (specs : List StepSpec) (db : Db) :
    (specs.foldl addStep db).steps = db.steps++specs.map newStep ∧
      (specs.foldl addStep db).run = db.run := by
  induction specs generalizing db with
  | nil => simp
  | cons spec _ ih =>
    obtain ⟨hsteps,hrun⟩ := ih (addStep db spec)
    rw [List.foldl_cons,hsteps,hrun]
    simp [addStep,Db.addTransition]

theorem startRun_steps (g : Graph) (input : Json.Fields) :
    (startRun g input).steps = g.published.map newStep := by
  rw [startRun,(addStep_steps _ _).1]
  rfl

theorem startRun_run (g : Graph) (input : Json.Fields) :
    (startRun g input).run.state = .running ∧ (startRun g input).run.input = input := by
  rw [startRun,(addStep_steps _ _).2]
  exact ⟨rfl,rfl⟩

theorem newStep_cases (spec : StepSpec) :
    (spec.dependsOn = [] ∧ (newStep spec).state = .ready) ∨
      (spec.dependsOn ≠ [] ∧ (newStep spec).state = .pending) := by
  by_cases h : spec.dependsOn = []
  · exact .inl ⟨h,if_pos h⟩
  · exact .inr ⟨h,if_neg h⟩

theorem newStep_open (spec : StepSpec) : (newStep spec).state.settled = false := by
  rcases newStep_cases spec with ⟨-,hs⟩ | ⟨-,hs⟩ <;> rw [hs] <;> rfl

theorem sound_start (g : Graph) : Sound g (g.published.map newStep) := by
  have hopen := newStep_open
  constructor
  · rw [List.map_map]
    exact List.map_id _
  · intro r hr hact
    obtain ⟨spec,-,rfl⟩ := List.mem_map.mp hr
    rcases newStep_cases spec with ⟨hd,-⟩ | ⟨-,hs⟩
    · change resolution _ spec = _
      rw [resolution,dependencyStates,hd]
      rfl
    · rw [hs] at hact
      cases hact
  · rintro r - ⟨c,hc,hs,-⟩
    obtain ⟨spec,-,rfl⟩ := List.mem_map.mp hc
    have := hopen spec
    rw [hs] at this
    cases this
  · intro r hr hs
    obtain ⟨spec,-,rfl⟩ := List.mem_map.mp hr
    have := hopen spec
    rw [hs] at this
    cases this
  · intro r hr
    obtain ⟨spec,-,rfl⟩ := List.mem_map.mp hr
    rcases newStep_cases spec with ⟨-,hs⟩ | ⟨-,hs⟩ <;> rw [hs] <;> simp [newStep]
  · intro r hr c _ o ho
    obtain ⟨_,-,rfl⟩ := List.mem_map.mp hr
    cases ho

theorem world_sound_start (g : Graph) (input : Json.Fields) : (start g input).Sound g input where
  rows := by
    rw [start,startRun_steps]
    exact sound_start g
  given := (startRun_run g input).2
  claims := by simp [start]
  executions := by simp [start]

theorem execute_condition (db : Db) {c : StepClaim} {cfg : ConditionConfig}
    (h : c.spec.config = .condition cfg) (answer : Answer) :
    execute db c answer =
      some ⟨c,conditionOutput cfg.toConditionFields
        (evaluateCondition cfg c.input (outputs (listSteps db.steps))),none,
        some (cfg.selected !evaluateCondition cfg c.input (outputs (listSteps db.steps)))⟩ := by
  unfold execute
  rw [h]

theorem execute_respond (db : Db) {c : StepClaim} (h : ∀ cfg, c.spec.config ≠ .condition cfg)
    (answer : Answer) :
    execute db c answer = (respond c.spec.config answer).map fun p => ⟨c,p.1,p.2,none⟩ := by
  unfold execute
  split
  · rename_i cfg hc
    exact absurd hc (h cfg)
  · rfl

theorem execute_some {db : Db} {c : StepClaim} {answer : Answer} {e : Execution}
    (h : execute db c answer = some e) : e.claim = c ∧ e.Faithful := by
  by_cases hcond : ∃ cfg, c.spec.config = .condition cfg
  · obtain ⟨cfg,hc⟩ := hcond
    rw [execute_condition db hc] at h
    obtain rfl := Option.some.inj h
    refine ⟨rfl,(excludes_conditionOutput hc _).symm,?_⟩
    intro d hd
    obtain rfl := StepConfig.condition.inj (hc.symm.trans hd)
    exact ⟨_,rfl⟩
  · have hn : ∀ cfg, c.spec.config ≠ .condition cfg := fun cfg hc => hcond ⟨cfg,hc⟩
    rw [execute_respond db hn] at h
    obtain ⟨p,-,rfl⟩ := Option.map_eq_some_iff.mp h
    exact ⟨rfl,(excludes_of_other hn p.1).symm,fun cfg hc => absurd hc (hn cfg)⟩

section

variable {g : Graph} {input : Json.Fields} {w : World}

theorem World.Sound.fenced_spec (hw : w.Sound g input) {c : StepClaim} (hc : c ∈ w.claims)
    {r : StepRow} (h : fencedRow w.db c = some r) : r.spec = c.spec := by
  obtain ⟨-,found,hkey,-⟩ := fencedRow_some h
  exact Table.mem_unique g.keyed (hw.rows.mem_steps found) (hw.claims c hc).1 hkey

theorem licensed_tells (hw : w.Sound g input) {a : Action} (lab : Label) (h : Licensed w a lab) :
    lab.Tells := by
  cases lab with
  | quiet | take => trivial
  | finish =>
    obtain ⟨j,e,-,he,hrow,rfl⟩ := h
    obtain ⟨hc,hf⟩ := hw.executions e (List.mem_of_getElem? he)
    rw [Label.Tells,hw.fenced_spec hc hrow]
    exact hf.2

/-- What an action leaves of the database: what was there, or what the operation returned. -/
@[elab_as_elim]
theorem step_db {P : Action → Db → Prop} (same : ∀ a, P a w.db)
    (claims : ∀ ownerId locked, P (.claim ownerId locked) (claim w.db ownerId locked).1)
    (finishes : ∀ j e db', w.executions[j]? = some e → finish w.db e = .ok db' → P (.finish j) db')
    (fails : ∀ i code retryable c again db', w.claims[i]? = some c →
      failStep w.db c code again = .ok db' → P (.fail i code retryable) db')
    (pauses : ∀ db', pauseRun w.db = .ok db' → P .pause db')
    (resumes : ∀ db', resumeRun w.db = .ok db' → P .resume db')
    (cancels : ∀ db', cancelRun w.db = .ok db' → P .cancel db') (a : Action) :
    P a (step w a).db := by
  have settles {x : Result Db} {a : Action} (h : ∀ db', x = .ok db' → P a db') :
      P a (settleWith x w).db := by
    cases x with
    | ok db' => exact h db' rfl
    | error => exact same a
  cases a with
  | claim ownerId locked => exact claims ownerId locked
  | execute =>
    simp only [step]
    split <;> exact same _
  | finish j =>
    simp only [step]
    split
    · exact same _
    · exact settles fun db' h => finishes j _ db' ‹_› h
  | fail i code retryable =>
    simp only [step]
    split
    · exact same _
    · exact settles fun db' h => fails i code retryable _ _ db' ‹_› h
  | pause => exact settles pauses
  | resume => exact settles resumes
  | cancel => exact settles cancels

theorem step_effect (hw : w.Sound g input) (a : Action) :
    Effect (Licensed w a) w.db (step w a).db := by
  refine step_db (P := fun a db => Effect (Licensed w a) w.db db) (fun _ => .refl _)
    (fun _ _ => claim_effect w.db (Nat.le_refl w.db.fresh) _ _) (fun j e db' he h => ?_)
    (fun _ _ _ _ _ _ _ h => failStep_effect trivial h) (fun _ h => pauseRun_effect h)
    (fun _ h => resumeRun_effect trivial h) (fun _ h => cancelRun_effect trivial h) a
  obtain ⟨hc,hf⟩ := hw.executions e (List.mem_of_getElem? he)
  exact finish_effect h (fun r hr => hw.fenced_spec hc hr) hf.1 trivial
    fun r hr => ⟨j,e,rfl,he,hr,rfl⟩

theorem settleWith_held (x : Result Db) (w : World) :
    (settleWith x w).claims = w.claims ∧ (settleWith x w).executions = w.executions := by
  unfold settleWith
  split <;> exact ⟨rfl,rfl⟩

section

variable (hw : w.Sound g input)

include hw

theorem sound_of_effect {a : Action} {w' : World} (e : Effect (Licensed w a) w.db w'.db)
    (hc : ∀ c ∈ w'.claims, c ∈ w.claims ∨
      c.spec ∈ g.steps ∧ c.input = input ∧ c.claimToken < w'.db.fresh)
    (he : ∀ x ∈ w'.executions, x.claim ∈ w'.claims ∧ x.Faithful) : w'.Sound g input where
  rows := e.moves.sound (licensed_tells hw) hw.rows
  given := e.input.trans hw.given
  claims c hm := by
    rcases hc c hm with hold | hnew
    · obtain ⟨hs,hi,ht⟩ := hw.claims c hold
      exact ⟨hs,hi,ht.trans_le e.fresh⟩
    · exact hnew
  executions := he

theorem sound_same {a : Action} {w' : World} (e : Effect (Licensed w a) w.db w'.db)
    (hc : w'.claims = w.claims) (he : w'.executions = w.executions) : w'.Sound g input := by
  refine sound_of_effect hw e ?_ ?_
  · rw [hc]
    exact fun c hm => .inl hm
  · rw [hc,he]
    exact hw.executions

theorem sound_claim (ownerId : ℕ) (locked : String → Bool) :
    (step w (.claim ownerId locked)).Sound g input := by
  have e := step_effect hw (.claim ownerId locked)
  rcases claim_cases w.db ownerId locked with hnone | ⟨row,found,-,-,hsome⟩
  · refine sound_same hw e ?_ rfl
    simp [step,hnone]
  · have hclaims : (step w (.claim ownerId locked)).claims =
        w.claims++[⟨row.spec,w.db.run.input,ownerId,w.db.fresh⟩] := by
      simp [step,hsome]
    have hfresh : (step w (.claim ownerId locked)).db.fresh = w.db.fresh+1 := by
      simp only [step,hsome]
      rfl
    refine sound_of_effect hw e ?_ ?_
    · intro c hc
      rw [hclaims,List.mem_append,List.mem_singleton] at hc
      rcases hc with hc | rfl
      · exact .inl hc
      · exact .inr ⟨hw.rows.mem_steps found,hw.given,by rw [hfresh]; exact Nat.lt_succ_self _⟩
    · intro x hx
      obtain ⟨hc,hs⟩ := hw.executions x hx
      refine ⟨?_,hs⟩
      rw [hclaims]
      exact List.mem_append_left _ hc

theorem sound_execute (i : ℕ) (answer : Answer) : (step w (.execute i answer)).Sound g input := by
  have e := step_effect hw (.execute i answer)
  simp only [step] at e ⊢
  split at e
  · exact hw
  · rename_i c hc
    refine sound_of_effect hw e (fun c hm => .inl hm) ?_
    intro x hx
    rcases List.mem_append.mp hx with hx | hx
    · exact hw.executions x hx
    · obtain ⟨rfl,hs⟩ := execute_some (Option.mem_toList.mp hx)
      exact ⟨List.mem_of_getElem? hc,hs⟩

theorem step_sound (a : Action) : (step w a).Sound g input := by
  have e := step_effect hw a
  cases a with
  | claim ownerId locked => exact sound_claim hw ownerId locked
  | execute i answer => exact sound_execute hw i answer
  | finish | fail =>
    simp only [step] at e ⊢
    split at e
    · exact hw
    · exact sound_same hw e (settleWith_held _ w).1 (settleWith_held _ w).2
  | pause | resume | cancel => exact sound_same hw e (settleWith_held _ w).1 (settleWith_held _ w).2

end

end

theorem reach_sound (g : Graph) (input : Json.Fields) (as : List Action) :
    (reach g input as).Sound g input :=
  Run.exec_invariant step (fun w => w.Sound g input) (fun _ a hw => step_sound hw a) as
    (start g input) (world_sound_start g input)

theorem reach_moves (g : Graph) (input : Json.Fields) (as bs : List Action) :
    Moves (fun _ => True) (reach g input as).db.steps (reach g input (as++bs)).db.steps := by
  rw [reach,reach,Run.exec_append]
  refine Run.exec_related step (fun w => w.Sound g input)
    (fun w w' => Moves (fun _ => True) w.db.steps w'.db.steps) (fun _ a hw => step_sound hw a)
    (fun _ => .refl) (fun _ _ _ h h' => h.trans h') ?_ bs _ (reach_sound g input as)
  intro w a hw
  refine Relation.ReflTransGen.mono ?_ _ _ (step_effect hw a).moves
  rintro _ _ ⟨lab,-,m⟩
  exact ⟨lab,trivial,m⟩

theorem enabled_dependencies {rows : List StepRow} {spec : StepSpec}
    (h : resolution rows spec = some .ready) :
    (∀ d ∈ spec.dependsOn, stateOf rows d = .completed ∨ stateOf rows d = .skipped) ∧
    (spec.dependencyMode = .all → ∀ d ∈ spec.dependsOn, stateOf rows d = .completed) ∧
    (spec.dependencyMode = .any → ∃ d ∈ spec.dependsOn, stateOf rows d = .completed) := by
  obtain ⟨hall,hany⟩ := resolve_ready h
  refine ⟨?_,fun hm d hd => hall hm _ (List.mem_map_of_mem hd),?_⟩
  · intro d hd
    simpa [StepState.settled] using settled_of_resolution h hd
  · intro hm
    have hne : dependencyStates rows spec ≠ [] := by
      have ha := spec.accepted
      simp only [StepFields.matchingType,bind_ok,require_ok] at ha
      obtain ⟨_,-,_,-,_,-,hlen⟩ := ha
      intro hnil
      rw [dependencyStates,List.map_eq_nil_iff] at hnil
      exact hlen ⟨hm,by simp [hnil]⟩
    obtain ⟨d,hd,he⟩ := List.mem_map.mp (hany hm hne)
    exact ⟨d,hd,he⟩

theorem Sound.selection {g : Graph} {rows : List StepRow} (h : Sound g rows) {c : StepRow}
    (hc : c ∈ rows) (hs : c.state = .completed) {cfg : ConditionConfig}
    (hcfg : c.spec.config = .condition cfg) :
    ∃ b, c.output = some (conditionOutput cfg.toConditionFields b) := by
  obtain ⟨o,ho⟩ := Option.isSome_iff_exists.mp ((h.told c hc).mpr hs)
  obtain ⟨b,rfl⟩ := h.decided c hc cfg hcfg o ho
  exact ⟨b,ho⟩

theorem Sound.excluded_before {g : Graph} {rows rows' : List StepRow} {P : Label → Prop}
    (h : Sound g rows) (h' : Sound g rows') (ms : Moves P rows rows') {r c' : StepRow}
    (hr : r ∈ rows) (hact : r.state.active) (hc' : c' ∈ rows')
    (hs : c'.state = .completed) {o : Json.Fields} (ho : c'.output = some o)
    (hx : r.key ∈ excludes c'.spec o) : Excluded rows r.key := by
  have hspec : c'.spec ∈ rows.map StepRow.spec := by
    rw [h.specs,← h'.specs]
    exact List.mem_map_of_mem hc'
  obtain ⟨c,hc,he⟩ := List.mem_map.mp hspec
  rw [← he] at hx
  have hd := h.excluded_depends hc hr hx
  have hsettled := settled_of_resolution (h.enabled r hr hact) hd
  rw [stateOf_mem h.keyed hc] at hsettled
  have hkept := ms.terminal_kept h.keyed hc (settled_terminal hsettled)
  obtain rfl := Table.mem_unique h'.keyed hkept hc' (key_eq he)
  exact ⟨c,hc,hs,o,ho,hx⟩

/-- A step that runs or has completed at one point of a run has its
dependencies settled there and ever after, as its mode asks for. A completed
condition has selected one of its branches, and no step of the other one runs
or has completed at any point of the run, before or after. -/
theorem steps_respect_graph (g : Graph) (input : Json.Fields) (as bs : List Action) :
    (∀ r ∈ (reach g input as).db.steps, r.state = .running ∨ r.state = .completed →
      (∀ d ∈ r.spec.dependsOn, stateOf (reach g input (as++bs)).db.steps d = .completed ∨
        stateOf (reach g input (as++bs)).db.steps d = .skipped) ∧
      (r.spec.dependencyMode = .all → ∀ d ∈ r.spec.dependsOn,
        stateOf (reach g input (as++bs)).db.steps d = .completed) ∧
      (r.spec.dependencyMode = .any → ∃ d ∈ r.spec.dependsOn,
        stateOf (reach g input (as++bs)).db.steps d = .completed)) ∧
    (∀ c ∈ (reach g input as).db.steps, c.state = .completed → ∀ cfg,
      c.spec.config = .condition cfg → ∃ b,
        c.output = some (conditionOutput cfg.toConditionFields b) ∧
        ∀ r ∈ (reach g input (as++bs)).db.steps, r.key ∈ cfg.selected (!b) →
          r.state ≠ .running ∧ r.state ≠ .completed) ∧
    (∀ c ∈ (reach g input (as++bs)).db.steps, c.state = .completed → ∀ cfg,
      c.spec.config = .condition cfg → ∃ b,
        c.output = some (conditionOutput cfg.toConditionFields b) ∧
        ∀ r ∈ (reach g input as).db.steps, r.key ∈ cfg.selected (!b) →
          r.state ≠ .running ∧ r.state ≠ .completed) := by
  have h := (reach_sound g input as).rows
  have h' := (reach_sound g input (as++bs)).rows
  have ms := reach_moves g input as bs
  have hrun : ∀ {s : StepState}, s = .skipped ∨ s = .cancelled → s ≠ .running ∧ s ≠ .completed := by
    rintro s (rfl | rfl) <;> simp
  refine ⟨?_,?_,?_⟩
  · intro r hr hs
    have hact : r.state.active := by rcases hs with hs | hs <;> rw [hs] <;> rfl
    exact enabled_dependencies ((ms.follows h.keyed).resolution h'.keyed (h.enabled r hr hact))
  · intro c hc hs cfg hcfg
    obtain ⟨b,hb⟩ := h.selection hc hs hcfg
    refine ⟨b,hb,?_⟩
    intro r hr hx
    rw [← excludes_conditionOutput hcfg] at hx
    have hkept := ms.terminal_kept h.keyed hc (by rw [hs]; rfl)
    exact hrun (h'.excluded r hr ⟨c,hkept,hs,_,hb,hx⟩)
  · intro c hc hs cfg hcfg
    obtain ⟨b,hb⟩ := h'.selection hc hs hcfg
    refine ⟨b,hb,?_⟩
    intro r hr hx
    rw [← excludes_conditionOutput hcfg] at hx
    by_contra hcon
    have hact : r.state.active := by
      rw [not_and_or,not_not,not_not] at hcon
      rcases hcon with hs | hs <;> rw [hs] <;> rfl
    exact hcon (hrun (h.excluded r hr (h.excluded_before h' ms hr hact hc hs hb hx)))

end NexusAi.Workflow
