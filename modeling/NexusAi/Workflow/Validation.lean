import NexusAi.Workflow.Entities

/-!
# Which graphs are accepted and what their conditions reach

`WellFormed` says what a workflow graph has to be in terms of its steps. Graph
validation accepts exactly these graphs, and the order that it returns is the
least one in which every step follows its dependencies. The path of a condition is
taken apart at its dots, and a step key may itself have dots, so the output of
such a step is out of reach. Numbers are compared in order only if both are
integers or both are decimals.
-/

namespace NexusAi.Workflow
open NexusAi.Checked

section

def keysOf (steps : List StepSpec) : List String := steps.map fun s => s.key

def DependsOn (steps : List StepSpec) (d k : String) : Prop :=
  ∃ s ∈ steps, s.key = k ∧ d ∈ s.dependsOn

structure WellFormed (steps : List StepSpec) : Prop where
  someStep : 1 ≤ steps.length
  bounded : steps.length ≤ 256
  unique : (keysOf steps).Nodup
  known : ∀ d k, DependsOn steps d k → d ∈ keysOf steps
  branches : ∀ s ∈ steps, ∀ c, s.config = .condition c → ∀ b ∈ c.thenSteps++c.elseSteps,
    DependsOn steps s.key b
  acyclic : ∀ k, ¬ Relation.TransGen (DependsOn steps) k k

/-- An arrangement of the steps in which every step follows its dependencies. -/
def Topological (steps : List StepSpec) (ks : List String) : Prop :=
  ks.Perm (keysOf steps) ∧
    ∀ as k bs, ks = as++k::bs → ∀ d, DependsOn steps d k → d ∈ as

variable {steps : List StepSpec}

section

variable (hn : (keysOf steps).Nodup)

include hn

theorem mem_dependencies {d k : String} : d ∈ dependencies steps k ↔ DependsOn steps d k := by
  unfold dependencies
  constructor
  · intro hd
    cases hs : specOf steps k with
    | none => simp [hs] at hd
    | some s =>
      rw [hs] at hd
      have hkey := Table.find_key hs
      exact ⟨s,Table.find_mem hs,hkey,hd⟩
  · rintro ⟨s,hs,rfl,_⟩
    rwa [specOf,Table.find_of_mem hn hs]

theorem acyclic_iff : Kahn.Acyclic (keysOf steps) (dependencies steps) ↔
      ∀ k, ¬ Relation.TransGen (DependsOn steps) k k := by
  have hrel : (fun d k => k ∈ keysOf steps ∧ d ∈ dependencies steps k) = DependsOn steps := by
    ext d k
    rw [mem_dependencies hn]
    constructor
    · exact And.right
    · intro h
      obtain ⟨s,hs,hk,-⟩ := id h
      exact ⟨hk ▸ List.mem_map_of_mem hs,h⟩
  rw [Kahn.Acyclic,hrel]

theorem topological_iff {ks : List String} : Topological steps ks ↔
      ks.Perm (keysOf steps) ∧ Kahn.Layered (dependencies steps) ks := by
  simp only [Topological,Kahn.Layered,mem_dependencies hn]

theorem checkStep_all : (∀ s ∈ steps, checkStep steps s = .ok ()) ↔
      (∀ d k, DependsOn steps d k → d ∈ keysOf steps) ∧
      ∀ s ∈ steps, ∀ c, s.config = .condition c → ∀ b ∈ c.thenSteps++c.elseSteps,
        DependsOn steps s.key b := by
  constructor
  · intro h
    constructor
    · rintro d k ⟨s,hs,-,hd⟩
      have hc := h s hs
      simp only [checkStep,bind_ok,require_ok] at hc
      obtain ⟨-,hm,-⟩ := hc
      rw [List.filter_eq_nil_iff] at hm
      simpa [keysOf] using hm d hd
    · intro s hs c hc b hb
      have hcs := h s hs
      simp only [checkStep,bind_ok,require_ok,hc,each_ok] at hcs
      obtain ⟨-,-,-,-,hall⟩ := hcs
      have hbranch := hall b hb
      rw [checkBranch,require_ok] at hbranch
      exact (mem_dependencies hn).mp hbranch
  · rintro ⟨hknown,hbranches⟩ s hs
    simp only [checkStep,bind_ok,require_ok]
    refine ⟨(),?_,?_⟩
    · rw [List.filter_eq_nil_iff]
      intro d hd
      simpa [keysOf] using hknown d s.key ⟨s,hs,rfl,hd⟩
    · split
      · rename_i c hc
        simp only [bind_ok,require_ok,each_ok]
        refine ⟨(),?_,?_⟩
        · rw [List.filter_eq_nil_iff]
          intro b hb
          obtain ⟨t,ht,hkey,-⟩ := hbranches s hs c hc b hb
          simpa using ⟨t,ht,hkey⟩
        · intro b hb
          rw [checkBranch,require_ok]
          exact (mem_dependencies hn).mpr (hbranches s hs c hc b hb)
      · rfl

end

theorem validate_ok {ks : List String} :
    validateWorkflowGraph steps = .ok ks ↔ WellFormed steps ∧
      ks = Kahn.order (keysOf steps) (dependencies steps) := by
  simp only [validateWorkflowGraph,bind_ok,require_ok,each_ok,pure_ok]
  constructor
  · rintro ⟨-,hne,-,hle,-,hn,-,hs,-,hl,rfl⟩
    have hfull : (Kahn.order (keysOf steps) (dependencies steps)).length =
        (keysOf steps).length := by simpa [keysOf] using hl
    obtain ⟨hknown,hbranches⟩ := (checkStep_all hn).mp hs
    refine ⟨⟨List.length_pos_of_ne_nil hne,hle,hn,hknown,hbranches,?_⟩,rfl⟩
    exact (acyclic_iff hn).mp (Kahn.order_acyclic hn hfull)
  · rintro ⟨hw,rfl⟩
    have hn := hw.unique
    refine ⟨(),List.ne_nil_of_length_pos hw.someStep,(),hw.bounded,(),hn,(),
      (checkStep_all hn).mpr ⟨hw.known,hw.branches⟩,(),?_,rfl⟩
    have hfull := Kahn.order_complete hn
      (fun k _ d hd => hw.known d k ((mem_dependencies hn).mp hd)) ((acyclic_iff hn).mpr hw.acyclic)
    simpa [keysOf] using hfull

/-- Validation returns exactly for the well-formed graphs, and what it returns is the
least topological arrangement of the steps. -/
theorem validation_exact (steps : List StepSpec) :
    ((∃ ks, validateWorkflowGraph steps = .ok ks) ↔ WellFormed steps) ∧
      ∀ ks, validateWorkflowGraph steps = .ok ks → Topological steps ks ∧
        ∀ ks', Topological steps ks' → ks = ks' ∨ Kahn.Precedes ks ks' := by
  constructor
  · constructor
    · rintro ⟨ks,h⟩
      exact (validate_ok.mp h).1
    · intro hw
      exact ⟨_,validate_ok.mpr ⟨hw,rfl⟩⟩
  · intro ks h
    obtain ⟨hw,rfl⟩ := validate_ok.mp h
    have hn := hw.unique
    have hfull := Kahn.order_complete hn
      (fun k _ d hd => hw.known d k ((mem_dependencies hn).mp hd)) ((acyclic_iff hn).mpr hw.acyclic)
    refine ⟨(topological_iff hn).mpr ⟨Kahn.order_perm hn hfull,(Kahn.order_sound _ hn).2.2⟩,?_⟩
    intro ks' h'
    obtain ⟨hperm,hl⟩ := (topological_iff hn).mp h'
    exact Kahn.order_least hn hfull hperm hl

end

def dotted (ps : List String) : String :=
  String.ofList (['.'].intercalate (ps.map String.toList))

/-- `[A-Za-z0-9_-]{1,64}` -/
def segment (p : String) : Bool :=
  (1 ≤ p.toList.length ∧ p.toList.length ≤ 64) &&
    p.toList.all fun d => d.isAlphanum || d == '_' || d == '-'

example : dotted ["steps","fetch","status"] = "steps.fetch.status" := by decide

theorem segment_plain {p : String} (h : segment p) : '.' ∉ p.toList := by
  intro hdot
  simp only [segment,Bool.and_eq_true,List.all_eq_true] at h
  have := h.2 '.' hdot
  revert this
  decide

theorem parts_dotted {ps : List String} (hne : ps ≠ []) (h : ∀ p ∈ ps, '.' ∉ p.toList) :
    parts (dotted ps) = ps := by
  rw [parts,dotted,String.toList_ofList,List.splitOn_intercalate]
  · simp
  · intro cs hcs
    obtain ⟨p,hp,rfl⟩ := List.mem_map.mp hcs
    exact h p hp
  · simpa using hne

/-- A chain of fields that leads to a value in the output of a step leads to it from the
context, and the path then counts as existing. -/
def OutputsReached (k : String) : Prop :=
  ∀ (input outputs out : Json.Fields) (r : List String) (v : Json),
    outputs.lookup k = some (.obj out) → r ≠ [] → (∀ p ∈ r, segment p) →
    (Json.obj out).resolve r = some v →
      (context input outputs).resolve (parts (dotted ("steps"::k::r))) = some v ∧
      ∀ c : ConditionConfig, c.path = dotted ("steps"::k::r) →
        (c.operator = .exists_ → evaluateCondition c input outputs) ∧
        (c.operator = .notExists → evaluateCondition c input outputs = false)

theorem exists_of_found {c : ConditionConfig} {input outputs : Json.Fields} {v : Json}
    (h : (context input outputs).resolve (parts c.path) = some v) :
    (c.operator = .exists_ → evaluateCondition c input outputs) ∧
      (c.operator = .notExists → evaluateCondition c input outputs = false) := by
  constructor <;> intro ho <;> simp [evaluateCondition,ho,h]

theorem parts_dotted_key {k : String} (h : '.' ∈ k.toList) (r : String) :
    ∃ p ps, p ≠ k ∧ parts (dotted ["steps",k,r]) = "steps"::p::ps := by
  obtain ⟨as,bs,hk,has⟩ := List.eq_append_cons_of_mem h
  have hchars : (dotted ["steps",k,r]).toList =
      "steps".toList++ '.'::(as++ '.'::(bs++ '.'::r.toList)) := by
    simp [dotted,hk,List.intercalate]
  refine ⟨String.ofList as,(bs++ '.'::r.toList).splitOn '.' |>.map String.ofList,?_,?_⟩
  · intro he
    rw [← he,String.toList_ofList] at h
    exact has h
  · rw [parts,hchars,List.splitOn_eq_splitOnP,List.splitOnP_append_cons _ _ (by simp),
      List.splitOnP_append_cons _ _ (by simp),List.splitOnP_eq_singleton,List.splitOnP_eq_singleton]
    · rfl
    · intro c hc
      simpa using fun he : c = '.' => has (he ▸ hc)
    · simp

/-- Every value in a step's output is reached exactly if the key of the step has no
dot. -/
theorem outputsReached_iff (k : String) (hk : stepKey k) :
    OutputsReached k ↔ '.' ∉ k.toList := by
  constructor
  · intro h hdot
    obtain ⟨p,_,hp,hparts⟩ := parts_dotted_key hdot "x"
    have hfound := (h [] [(k,.obj [("x",.null)])] [("x",.null)] ["x"] .null (by simp) (by simp)
      (by decide) (by decide)).1
    rw [hparts,resolve_steps] at hfound
    have hne : (p == k) = false := by simpa using hp
    simp [Json.resolve,List.lookup_cons,hne] at hfound
  · intro hdot input outputs out r v hk hr hsegments hv
    have hplain : ∀ p ∈ "steps"::k::r, '.' ∉ p.toList := by
      intro p hp
      rcases List.mem_cons.mp hp with rfl | hp
      · decide
      · rcases List.mem_cons.mp hp with rfl | hp
        · exact hdot
        · exact segment_plain (hsegments p hp)
    have hfound : (context input outputs).resolve (parts (dotted ("steps"::k::r))) = some v := by
      rw [parts_dotted (by simp) hplain,resolve_steps]
      simp only [Json.resolve,hk]
      exact hv
    refine ⟨hfound,?_⟩
    intro c hpath
    exact exists_of_found (by rw [hpath]; exact hfound)

theorem fetch_reached : stepKey "fetch" ∧ OutputsReached "fetch" :=
  ⟨by decide,(outputsReached_iff "fetch" (by decide)).mpr (by decide)⟩

/-- The output of the step `load.orders` is there, and the path to it is missing. -/
theorem loadOrders_missing :
    stepKey "load.orders" ∧ contextPath "steps.load.orders.count" ∧
      (Json.obj [("count",.int 3)]).resolve ["count"] = some (.int 3) ∧
      (context [] [("load.orders",.obj [("count",.int 3)])]).resolve
        (parts "steps.load.orders.count") = none :=
  ⟨by decide,by decide,by decide,by decide⟩

def quantity : Json → Option ℚ
  | .int n => some n
  | .float q => some q
  | _ => none

def SameKind : Json → Json → Prop
  | .int _, .int _ => True
  | .float _, .float _ => True
  | _, _ => False

/-- Two conditions that differ in nothing but their operators and branches. -/
structure Variants (op op' : ConditionOperator) (c c' : ConditionConfig) : Prop where
  first : c.operator = op
  second : c'.operator = op'
  path : c'.path = c.path
  value : c'.value = c.value

variable {c c' : ConditionConfig} {input outputs : Json.Fields} {a : Json}

theorem ordered_iff {a b : Json} {x y : ℚ} (hx : quantity a = some x) (hy : quantity b = some y) :
    ((ordered a b true ↔ y < x) ∧ (ordered a b false ↔ x < y)) ↔
      SameKind a b ∨ x = y := by
  have hmixed : ((false ↔ y < x) ∧ (false ↔ x < y)) ↔ False ∨ x = y := by
    simp only [Bool.false_eq_true,false_iff,not_lt,false_or]
    exact ⟨fun h => le_antisymm h.1 h.2,fun h => ⟨h.le,h.ge⟩⟩
  cases a <;> cases hx <;> cases b <;> cases hy
  · simp [ordered,SameKind]
  · exact hmixed
  · exact hmixed
  · simp [ordered,SameKind]

theorem complement_equals (h : Variants .equals .notEquals c c')
    (ha : (context input outputs).resolve (parts c.path) = some a) :
    evaluateCondition c' input outputs = !evaluateCondition c input outputs := by
  simp [evaluateCondition,h.first,h.second,h.path,h.value,ha]

theorem complement_in (h : Variants .in_ .notIn c c') {xs : List Json} (hxs : c.value = .arr xs)
    (ha : (context input outputs).resolve (parts c.path) = some a) :
    evaluateCondition c' input outputs = !evaluateCondition c input outputs := by
  simp [evaluateCondition,h.first,h.second,h.path,h.value,ha,hxs]

/-- Greater and less agree with the order of two numbers exactly if the numbers are of
one kind or equal. Equality and membership have exact complements. -/
theorem comparisons_iff (input outputs : Json.Fields) (a b : Json) (x y : ℚ)
    (hx : quantity a = some x) (hy : quantity b = some y) (g l : ConditionConfig)
    (hgl : Variants .greaterThan .lessThan g l) (hb : g.value = b)
    (ha : (context input outputs).resolve (parts g.path) = some a) :
    (((evaluateCondition g input outputs ↔ y < x) ∧
      (evaluateCondition l input outputs ↔ x < y)) ↔ SameKind a b ∨ x = y) ∧
    ∀ c c' : ConditionConfig, ((context input outputs).resolve (parts c.path)).isSome →
      (Variants .equals .notEquals c c' ∨
        Variants .in_ .notIn c c' ∧ ∃ xs, c.value = .arr xs) →
      evaluateCondition c' input outputs = !evaluateCondition c input outputs := by
  constructor
  · have hg : evaluateCondition g input outputs = ordered a b true := by
      simp [evaluateCondition,hgl.first,ha,hb]
    have hl : evaluateCondition l input outputs = ordered a b false := by
      simp [evaluateCondition,hgl.second,hgl.path,hgl.value,ha,hb]
    rw [hg,hl]
    exact ordered_iff hx hy
  · intro c c' hsome hc
    obtain ⟨v,hv⟩ := Option.isSome_iff_exists.mp hsome
    rcases hc with hc | ⟨hc,_,hxs⟩
    · exact complement_equals hc hv
    · exact complement_in hc hxs hv

theorem inputN_path : contextPath "input.n" := by decide

theorem inputN_branches : ∀ k ∈ ([] : List String)++[], stepKey k := by
  intro k hk
  cases hk

/-- A condition on the field `n` of the input, without branches. -/
def onInputN (operator : ConditionOperator) (value : Json)
    (h : ConditionFields.coherent ⟨"input.n",operator,value,[],[]⟩ = .ok ()) : ConditionConfig :=
  ⟨⟨"input.n",operator,value,[],[]⟩,inputN_path,inputN_branches,h⟩

theorem threeTwo_compared :
    quantity (.int 3) = some 3 ∧
      (evaluateCondition (onInputN .greaterThan (.int 2) rfl) [("n",.int 3)] [] ↔
        (2 : ℚ) < 3) :=
  ⟨rfl,(((comparisons_iff [("n",.int 3)] [] (.int 3) (.int 2) 3 2 rfl rfl
    (onInputN .greaterThan (.int 2) rfl) (onInputN .lessThan (.int 2) rfl) ⟨rfl,rfl,rfl,rfl⟩ rfl
    (by decide)).1).mpr (.inl trivial)).1⟩

/-- The integer 3 is neither greater nor less than the decimal 2.5. -/
theorem threeTwoAndHalf_apart :
    evaluateCondition (onInputN .greaterThan (.float (5/2)) rfl) [("n",.int 3)] [] = false ∧
      evaluateCondition (onInputN .lessThan (.float (5/2)) rfl) [("n",.int 3)] [] = false ∧
      (5/2 : ℚ) < 3 :=
  ⟨by decide,by decide,by norm_num⟩

end NexusAi.Workflow
