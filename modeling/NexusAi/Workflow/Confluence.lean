import NexusAi.Workflow.Agreement

/-!
# Outcomes and the order of workers

Validation lets the path of a condition name any step, also one that the
condition does not wait for. If such a step is settled in one run when the
condition is executed and open in another, the runs may select different
branches. In runs in which every condition finds the steps that it reads
settled, or waiting for the condition itself, nothing depends on the order.
-/

namespace NexusAi.Workflow
open NexusAi.Checked

def live (db : Db) (c : StepClaim) : Bool :=
  db.steps.any fun r => r.key = c.spec.key ∧ r.state = .running ∧
    r.claimToken = some c.claimToken

def settledReads (g : Graph) (db : Db) (c : StepClaim) : Bool :=
  match c.spec.config with
  | .condition cfg => db.steps.all fun r =>
      !reads cfg.path r.key || r.state.settled || g.awaiting c.spec.key r.key
  | _ => true

/-- The answer to a step that is executed is the assigned one. -/
def assigned (answers : String → Answer) (w : World) : Action → Bool
  | .execute i answer =>
    match w.claims[i]? with
    | none => true
    | some c => !live w.db c || answer = answers c.spec.key
  | _ => true

def readsSettled (g : Graph) (w : World) : Action → Bool
  | .execute i _ =>
    match w.claims[i]? with
    | none => true
    | some c => !live w.db c || settledReads g w.db c
  | _ => true

def steady (g : Graph) (answers : String → Answer) (w : World) (a : Action) : Bool :=
  assigned answers w a && readsSettled g w a

def Held (rows : List StepRow) (key : String) (token : ℕ) : Prop :=
  ∃ r ∈ rows, r.key = key ∧ r.state = .running ∧ r.claimToken = some token

theorem live_iff {db : Db} {c : StepClaim} :
    live db c ↔ Held db.steps c.spec.key c.claimToken := by
  simp [live,Held]

theorem live_of_fenced {db : Db} {c : StepClaim} {r : StepRow} (h : fencedRow db c = some r) :
    live db c := by
  obtain ⟨-,hr,hkey,hstate,-,htoken⟩ := fencedRow_some h
  exact live_iff.mpr ⟨r,hr,hkey,hstate,htoken⟩

section Rows

variable {P : Label → Prop} {rows rows' : List StepRow}

theorem Moves.held (ms : Moves P rows rows') {key : String} {token : ℕ}
    (hP : ∀ t, P (.take t) → token < t) (h : Held rows' key token) : Held rows key token := by
  induction ms with
  | refl => exact h
  | tail _ hm ih =>
    obtain ⟨_,hlab,m⟩ := hm
    obtain ⟨r',hr',hkey,hstate,htoken⟩ := h
    obtain ⟨r,hr,-,ch⟩ := m.origin hr'
    rcases ch.of_running hstate with rfl | ⟨t,rfl,ht⟩
    · exact ih ⟨r',hr,hkey,hstate,htoken⟩
    · obtain rfl := Option.some.inj (htoken.symm.trans ht)
      exact absurd (hP _ hlab) (lt_irrefl _)

end Rows

structure World.Steady (g : Graph) (input : Json.Fields) (answers : String → Answer) (w : World) :
    Prop where
  sound : w.Sound g input
  executed : ∀ e ∈ w.executions, live w.db e.claim →
    Told g input answers w.db.steps e.claim.spec e.output
  recorded : Recorded g input answers w.db.steps

section Runs

variable {g : Graph} {input : Json.Fields} {answers : String → Answer} {w : World} {a : Action}

theorem licensed_founded (hw : w.Steady g input answers) {lab : Label}
    (h : Licensed w a lab) : lab.Founded g input answers w.db.steps := by
  cases lab with
  | take | quiet => trivial
  | finish =>
    obtain ⟨j,e,-,he,hrow,rfl⟩ := h
    have hm := List.mem_of_getElem? he
    rw [Label.Founded,hw.sound.fenced_spec (hw.sound.executions e hm).1 hrow]
    exact hw.executed e hm (live_of_fenced hrow)

theorem step_keeps (hw : w.Steady g input answers) (a : Action) {I : List StepRow → Prop}
    (hI : ∀ lab rows rows', Sound g rows → Sound g rows' → lab.Founded g input answers rows →
      Move lab rows rows' → I rows → I rows') (h : I w.db.steps) : I (step w a).db.steps := by
  have ms := (step_effect hw.sound a).moves
  have hs := hw.sound.rows
  suffices hall : ∀ rows, Moves (Licensed w a) w.db.steps rows → I rows from hall _ ms
  intro rows ms
  induction ms with
  | refl => exact h
  | tail hms hm ih =>
    obtain ⟨lab,hlab,m⟩ := hm
    have hrows := Moves.sound hms (licensed_tells hw.sound) hs
    have hl := (licensed_founded hw hlab).follows hs hrows (Moves.follows hms hs.keyed)
    exact hI lab _ _ hrows (sound_move hrows m (licensed_tells hw.sound lab hlab)) hl m ih

theorem mem_executions_step {e : Execution} (h : e ∈ (step w a).executions) :
    e ∈ w.executions ∨ ∃ i answer c, a = .execute i answer ∧ w.claims[i]? = some c ∧
      execute w.db c answer = some e ∧ (step w a).db = w.db := by
  cases a with
  | claim => exact .inl h
  | execute i answer =>
    simp only [step] at h ⊢
    split at h
    · exact .inl h
    · rename_i c hc
      rcases List.mem_append.mp h with h | h
      · exact .inl h
      · exact .inr ⟨i,answer,c,rfl,hc,Option.mem_toList.mp h,rfl⟩
  | finish | fail =>
    simp only [step] at h
    split at h
    · exact .inl h
    · rw [(settleWith_held _ w).2] at h
      exact .inl h
  | pause | resume | cancel =>
    simp only [step] at h
    rw [(settleWith_held _ w).2] at h
    exact .inl h

theorem told_of_execute (hw : w.Sound g input) {c : StepClaim} (hc : c ∈ w.claims)
    (hlive : live w.db c) (hreads : settledReads g w.db c) {e : Execution}
    (h : execute w.db c (answers c.spec.key) = some e) :
    Told g input answers w.db.steps e.claim.spec e.output := by
  have hs := hw.rows
  obtain ⟨r,hr,hkey,hstate,-⟩ := live_iff.mp hlive
  have hopen : (stateOf w.db.steps c.spec.key).settled = false := by
    rw [← hkey,stateOf_mem hs.keyed hr,hstate]
    rfl
  obtain ⟨rfl,-⟩ := execute_some h
  refine ⟨?_,?_,?_⟩
  · intro cfg hcfg r hr hread
    simp only [settledReads,hcfg,List.all_eq_true] at hreads
    simpa [hread] using hreads r hr
  · intro cfg hcfg
    rw [execute_condition w.db hcfg] at h
    have hsees : visible (Kahn.sorted g.order) (seen g e.claim.spec.key w.db.steps) =
        outputs (listSteps w.db.steps) := by
      rw [outputs_visible hs.keyed,hs.keys]
      exact visible_congr fun key _ => seen_open hs hopen key
    rw [hsees,← (hw.claims _ hc).2.1]
    exact (congrArg Execution.output (Option.some.inj h)).symm
  · intro hn
    rw [execute_respond w.db hn] at h
    obtain ⟨p,hp,he⟩ := Option.map_eq_some_iff.mp h
    rw [hp,← he]
    rfl

/-- A graph whose conditions read only their dependencies, or what awaits them. -/
def Graph.readsDependencies (g : Graph) : Bool :=
  g.steps.all fun s =>
    match s.config with
    | .condition cfg => g.keys.all fun key =>
        !reads cfg.path key || key ∈ s.dependsOn || g.awaiting s.key key
    | _ => true

theorem settledReads_of_dependencies (hg : g.readsDependencies) (hw : w.Sound g input)
    {c : StepClaim} (hc : c ∈ w.claims) (hlive : live w.db c) :
    settledReads g w.db c := by
  unfold settledReads
  split
  · rename_i hcfg
    have hs := hw.rows
    obtain ⟨p,hp,hkey,hstate,-⟩ := live_iff.mp hlive
    have hspec := (Table.mem_unique g.keyed (hs.mem_steps hp) (hw.claims c hc).1 hkey)
    have hready := hs.enabled p hp (by rw [hstate]; rfl)
    rw [hspec] at hready
    have hread := List.all_eq_true.mp hg c.spec (hw.claims c hc).1
    rw [hcfg] at hread
    apply List.all_eq_true.mpr
    intro r hr
    have hmem : r.key ∈ g.keys := List.mem_map_of_mem (hs.mem_steps hr)
    have hr' := List.all_eq_true.mp hread r.key hmem
    simp only [Bool.or_eq_true,decide_eq_true_eq] at hr' ⊢
    refine hr'.imp_left (Or.imp_right fun hd => ?_)
    rw [← stateOf_mem hs.keyed hr]
    exact settled_of_resolution hready hd
  · rfl

theorem step_steady (hw : w.Steady g input answers)
    (hok : steady g answers w a) : (step w a).Steady g input answers := by
  have hs' := step_sound hw.sound a
  have hf : Follows w.db.steps (step w a).db.steps :=
    (step_effect hw.sound a).moves.follows hw.sound.rows.keyed
  have hrec : Recorded g input answers (step w a).db.steps :=
    step_keeps hw a (fun _ _ _ hs hs' hl m h => recorded_move hs hs' m hl h) hw.recorded
  refine ⟨hs',?_,hrec⟩
  intro e he hlive
  rcases mem_executions_step he with hold | ⟨i,_,c,rfl,hc,hexec,hsame⟩
  · have hclaim := (hw.sound.claims _ (hw.sound.executions e hold).1).2.2
    have hbefore : live w.db e.claim := by
      rw [live_iff] at hlive ⊢
      exact (step_effect hw.sound a).moves.held (fun t ht => hclaim.trans_le ht) hlive
    exact (hw.executed e hold hbefore).follows hw.sound.rows hs'.rows hf
  · rw [hsame] at hlive ⊢
    have hec := (execute_some hexec).1
    rw [hec] at hlive
    simp only [steady,assigned,readsSettled,hc,hlive,Bool.not_true,Bool.false_or,Bool.and_eq_true,
      decide_eq_true_eq] at hok
    rw [hok.1] at hexec
    exact told_of_execute hw.sound (List.mem_of_getElem? hc) hlive hok.2 hexec

theorem steady_start (g : Graph) (input : Json.Fields) (answers : String → Answer) :
    (start g input).Steady g input answers where
  sound := world_sound_start g input
  executed := by simp [start]
  recorded := by
    intro r hr o ho
    rw [start,startRun_steps] at hr
    obtain ⟨_,-,rfl⟩ := List.mem_map.mp hr
    cases ho

variable {as : List Action}

theorem reach_steady
    (h : Run.Conforms step (fun w a => steady g answers w a) as (start g input)) :
    (reach g input as).Steady g input answers :=
  Run.exec_conforming step _ (fun w => w.Steady g input answers)
    (fun _ _ hok hw => step_steady hw hok) as (start g input) h (steady_start g input answers)

theorem reach_ended
    (h : Run.Conforms step (fun w a => steady g answers w a) as (start g input))
    (hdone : (reach g input as).db.run.state = .completed) :
    Ended g input answers (reach g input as).db.steps :=
  ⟨(reach_sound g input as).rows,((reach_tended g input as).finished hdone).1,
    (reach_steady h).recorded⟩

theorem reach_follows {ends : List StepRow}
    (h : Run.Conforms step (fun w a => steady g answers w a) as (start g input))
    (he : Ended g input answers ends) : Follows (reach g input as).db.steps ends := by
  have hstart : Follows (start g input).db.steps ends := by
    intro r hr hset
    rw [start,startRun_steps] at hr
    obtain ⟨spec,-,rfl⟩ := List.mem_map.mp hr
    rcases newStep_cases spec with ⟨-,hs⟩ | ⟨-,hs⟩ <;> rw [hs] at hset <;> cases hset
  exact (Run.exec_conforming step _
    (fun w => w.Steady g input answers ∧ Follows w.db.steps ends)
    (fun _ a hok hw => ⟨step_steady hw.1 hok,step_keeps hw.1 a
      (fun _ _ _ hs hs' hl m hf => follows_move hs hs' m hl he hf) hw.2⟩)
    as (start g input) h ⟨steady_start g input answers,hstart⟩).2

end Runs

/-- Where conditions read only their dependencies, the order of workers is of
no concern: the condition on what is settled holds by itself. -/
theorem steady_of_dependencies {g : Graph} (hg : g.readsDependencies) (input : Json.Fields)
    (answers : String → Answer) (as : List Action)
    (h : Run.Conforms step (fun w a => assigned answers w a) as (start g input)) :
    Run.Conforms step (fun w a => steady g answers w a) as (start g input) := by
  refine Run.conforms_mono step _ _ (fun w => w.Sound g input) (fun _ a hw => step_sound hw a) ?_
    as (start g input) (world_sound_start g input) h
  intro w a hw ha
  rw [steady,ha,Bool.true_and]
  cases a with
  | execute =>
    simp only [readsSettled]
    split
    · rfl
    · rename_i c hc
      cases hlive : live w.db c with
      | false => rfl
      | true => exact settledReads_of_dependencies hg hw (List.mem_of_getElem? hc) hlive
  | claim | finish | fail | pause | resume | cancel => rfl

def StepRow.outcome (r : StepRow) : String × StepState × Option Json.Fields :=
  (r.key,r.state,r.output)

theorem outcomes_of_follows {g : Graph} {rows ends : List StepRow} (hs : Sound g rows)
    (he : Sound g ends) (hset : ∀ r ∈ rows, r.state.settled) (hf : Follows rows ends) :
    rows.map StepRow.outcome = ends.map StepRow.outcome := by
  have hlookup : ∀ {rows : List StepRow}, Sound g rows → rows.map StepRow.outcome =
      (rows.map StepRow.spec).map fun s => (s.key,stateOf rows s.key,outputAt rows s.key) := by
    intro rows h
    rw [List.map_map]
    apply List.map_congr_left
    intro r hr
    change _ = (r.key,stateOf rows r.key,outputAt rows r.key)
    rw [stateOf_mem h.keyed hr,outputAt_mem h.keyed hr]
    rfl
  rw [hlookup hs,hlookup he,he.specs,← hs.specs,List.map_map,List.map_map]
  apply List.map_congr_left
  intro r hr
  obtain ⟨p,hp,hspec,hstate,hout⟩ := hf r hr (hset r hr)
  change (r.key,stateOf rows r.key,outputAt rows r.key) =
    (r.key,stateOf ends r.key,outputAt ends r.key)
  rw [stateOf_mem hs.keyed hr,outputAt_mem hs.keyed hr,← key_eq hspec,stateOf_mem he.keyed hp,
    outputAt_mem he.keyed hp,hstate,hout]

theorem outputs_outcome (rows : List StepRow) :
    outputs rows =
      (rows.map StepRow.outcome).filterMap fun o => o.2.2.map fun f => (o.1,.obj f) := by
  rw [List.filterMap_map]
  rfl

/-- Two runs that come to their ends, with the same answers and with
conditions that read what is settled, end alike. -/
theorem outcomes_agree (g : Graph) (input : Json.Fields) (answers : String → Answer)
    (as bs : List Action)
    (has : Run.Conforms step (fun w a => steady g answers w a) as (start g input))
    (hbs : Run.Conforms step (fun w a => steady g answers w a) bs (start g input))
    (ha : (reach g input as).db.run.state = .completed)
    (hb : (reach g input bs).db.run.state = .completed) :
    (reach g input as).db.steps.map StepRow.outcome =
        (reach g input bs).db.steps.map StepRow.outcome ∧
      (reach g input as).db.run.output = (reach g input bs).db.run.output := by
  have hea := reach_ended has ha
  have heb := reach_ended hbs hb
  have hsame := outcomes_of_follows hea.sound heb.sound hea.settled (reach_follows has heb)
  refine ⟨hsame,?_⟩
  rw [((reach_tended g input as).finished ha).2,((reach_tended g input bs).finished hb).2,
    outputs_outcome,outputs_outcome,hsame]

def once : RetryPolicy := ⟨1,[],by decide⟩

def stepA : StepSpec :=
  ⟨⟨"a",.noop,[],.all,.noop [],once⟩,by decide +kernel,by decide +kernel,by decide +kernel⟩

def stepB : StepSpec :=
  ⟨⟨"b",.noop,[],.all,.noop [],once⟩,by decide +kernel,by decide +kernel,by decide +kernel⟩

def stepN : StepSpec :=
  ⟨⟨"n",.noop,["c"],.all,.noop [],once⟩,by decide +kernel,by decide +kernel,by decide +kernel⟩

def stepY : StepSpec :=
  ⟨⟨"y",.noop,["c"],.all,.noop [],once⟩,by decide +kernel,by decide +kernel,by decide +kernel⟩

def existsA : ConditionConfig :=
  ⟨⟨"steps.a",.exists_,.null,["y"],["n"]⟩,by decide +kernel,by decide +kernel,by decide +kernel⟩

/-- Looks for the output of `a` without waiting for it. -/
def stepC : StepSpec :=
  ⟨⟨"c",.condition,[],.all,.condition existsA,once⟩,by decide +kernel,by decide +kernel,
    by decide +kernel⟩

def stepCAfterA : StepSpec :=
  ⟨⟨"c",.condition,["a"],.all,.condition existsA,once⟩,by decide +kernel,by decide +kernel,
    by decide +kernel⟩

def racing : Graph := ⟨[stepA,stepC,stepN,stepY],["a","c","n","y"],by decide +kernel⟩

def waiting : Graph :=
  ⟨[stepA,stepB,stepCAfterA,stepN,stepY],["a","b","c","n","y"],by decide +kernel⟩

def take (ownerId : ℕ) : Action := .claim ownerId fun _ => false

def aBeforeB : List Action :=
  [take 1,take 2,.execute 0 .nothing,.finish 0,.execute 1 .nothing,.finish 1,
    take 1,.execute 2 .nothing,.finish 2,take 1,.execute 3 .nothing,.finish 3]

def bBeforeA : List Action :=
  [take 1,take 2,.execute 1 .nothing,.finish 0,.pause,.execute 0 .nothing,.finish 1,.resume,
    take 1,.execute 2 .nothing,.finish 2,take 1,.execute 3 .nothing,.finish 3]

theorem waiting_outcomes_agree :
    (reach waiting [] aBeforeB).db.steps.map StepRow.outcome =
        (reach waiting [] bBeforeA).db.steps.map StepRow.outcome ∧
      (reach waiting [] aBeforeB).db.run.output = (reach waiting [] bBeforeA).db.run.output :=
  outcomes_agree waiting [] (fun _ => .nothing) aBeforeB bBeforeA (by decide +kernel)
    (by decide +kernel) (by decide +kernel) (by decide +kernel)

theorem waiting_steady : Run.Conforms step
    (fun w a => steady waiting (fun _ => .nothing) w a) bBeforeA (start waiting []) :=
  steady_of_dependencies (by decide +kernel) [] _ bBeforeA (by decide +kernel)

def aBeforeC : List Action :=
  [take 1,take 2,.execute 0 .nothing,.finish 0,.execute 1 .nothing,.finish 1,
    take 1,.execute 2 .nothing,.finish 2]

def cBeforeA : List Action :=
  [take 1,take 2,.execute 1 .nothing,.finish 0,.execute 0 .nothing,.finish 1,
    take 2,.execute 2 .nothing,.finish 2]

/-- Both runs give the same answers and come to their ends. -/
theorem racing_outcomes_differ :
    Run.Conforms step (fun w a => assigned (fun _ => .nothing) w a) aBeforeC
      (start racing []) ∧
    Run.Conforms step (fun w a => assigned (fun _ => .nothing) w a) cBeforeA
      (start racing []) ∧
    (reach racing [] aBeforeC).db.run.state = .completed ∧
    (reach racing [] cBeforeA).db.run.state = .completed ∧
    (reach racing [] aBeforeC).db.steps.map (fun r => (r.key,r.state)) =
      [("a",.completed),("c",.completed),("n",.skipped),("y",.completed)] ∧
    (reach racing [] cBeforeA).db.steps.map (fun r => (r.key,r.state)) =
      [("a",.completed),("c",.completed),("n",.completed),("y",.skipped)] := by
  decide +kernel

end NexusAi.Workflow
