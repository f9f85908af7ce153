import Mathlib.Data.String.Basic
import NexusAi.Lib.Checked
import NexusAi.Lib.Json
import NexusAi.Lib.Kahn
import NexusAi.Lib.Table

/-!
# Workflow definitions and conditions

Step specifications and condition settings carry the checks of their request models, so
that an unchecked one cannot be built. A graph is a list of steps together with the
topological order that validation returns for it. `reads` tells which outputs the path of a
condition can see.
-/

namespace NexusAi.Workflow
open NexusAi.Checked

inductive WorkflowError where
  | invalidDefinition (detail : String)
  | invalidState (detail : String)
  | executionFenced
  | valueError (detail : String)
  deriving DecidableEq

abbrev Result (α : Type) := Except WorkflowError α

inductive RunState where
  | pending | running | paused | completed | failed | cancelled
  deriving DecidableEq

inductive StepState where
  | pending | ready | running | completed | failed | skipped | cancelled
  deriving DecidableEq

def RunState.value : RunState → String
  | .pending => "PENDING"
  | .running => "RUNNING"
  | .paused => "PAUSED"
  | .completed => "COMPLETED"
  | .failed => "FAILED"
  | .cancelled => "CANCELLED"

def RunState.targets : RunState → List RunState
  | .pending => [.running,.cancelled]
  | .running => [.paused,.completed,.failed,.cancelled]
  | .paused => [.running,.failed,.cancelled]
  | .completed => []
  | .failed => []
  | .cancelled => []

def requireWorkflowTransition (current target : RunState) : Result Unit :=
  require (target ∈ current.targets)
    (.invalidState ("workflow cannot transition from "++current.value++" to "++target.value))

inductive DependencyMode where
  | all | any
  deriving DecidableEq

def StepState.settled (s : StepState) : Bool := s = .completed ∨ s = .skipped

def resolvePendingStep (states : List StepState) (mode : DependencyMode) : Option StepState :=
  if states = [] then some .ready
  else if states.any (fun s => !s.settled) then none
  else match mode with
    | .all => if states.all (fun s => s == .completed) then some .ready else some .skipped
    | .any => if .completed ∈ states then some .ready else some .skipped

inductive StepType where
  | tool | agent | condition | noop
  deriving DecidableEq

inductive ConditionOperator where
  | equals | notEquals | exists_ | notExists | in_ | notIn | greaterThan | lessThan

/-- `^[a-z][a-z0-9_.-]{0,62}$` -/
def stepKey (s : String) : Bool :=
  match s.toList with
  | [] => false
  | c::cs => c.isLower && cs.length ≤ 62 &&
      cs.all fun d => d.isLower || d.isDigit || d == '_' || d == '.' || d == '-'

def parts (path : String) : List String := (path.toList.splitOn '.').map String.ofList

/-- `^(input|steps)(\.[A-Za-z0-9_-]{1,64}){0,15}$` -/
def contextPath (path : String) : Bool :=
  match parts path with
  | [] => false
  | root::rest => (root == "input" || root == "steps") && rest.length ≤ 15 &&
      rest.all fun p => (1 ≤ p.toList.length ∧ p.toList.length ≤ 64) &&
        p.toList.all fun d => d.isAlphanum || d == '_' || d == '-'

/-- `null` is a value that is not given. -/
structure ConditionFields where
  path : String
  operator : ConditionOperator
  value : Json
  (thenSteps elseSteps : List String)

def ConditionFields.coherent (c : ConditionFields) : Result Unit := do
  match c.operator with
  | .exists_ | .notExists =>
    require (c.value = .null) (.valueError "exists operators do not accept a value")
  | _ => require (c.value ≠ .null) (.valueError "this condition operator requires a value")
  require (∀ k ∈ c.thenSteps, k ∉ c.elseSteps) (.valueError "condition branches must be disjoint")

structure ConditionConfig extends ConditionFields where
  pathValid : contextPath path
  branchKeys : ∀ k ∈ thenSteps++elseSteps, stepKey k
  accepted : toConditionFields.coherent = .ok ()

inductive StepConfig where
  | tool (toolKey : String) (arguments : Json.Fields)
  | agent (agentId : ℕ) (prompt : String)
  | condition (c : ConditionConfig)
  | noop (output : Json.Fields)

def StepConfig.kind : StepConfig → StepType
  | .tool _ _ => .tool
  | .agent _ _ => .agent
  | .condition _ => .condition
  | .noop _ => .noop

structure RetryPolicy where
  maxAttempts : ℕ
  retryableCodes : List String
  attemptBounds : 1 ≤ maxAttempts ∧ maxAttempts ≤ 16

structure StepFields where
  key : String
  stepType : StepType
  dependsOn : List String
  dependencyMode : DependencyMode
  config : StepConfig
  retry : RetryPolicy

def StepFields.matchingType (f : StepFields) : Result Unit := do
  require (f.stepType = f.config.kind) (.valueError "step_type must match config.kind")
  require (f.key ∉ f.dependsOn) (.valueError "a step cannot depend on itself")
  require f.dependsOn.Nodup (.valueError "duplicate dependency")
  require (¬ (f.dependencyMode = .any ∧ f.dependsOn.length < 2))
    (.valueError "ANY dependency mode requires at least two dependencies")

structure StepSpec extends StepFields where
  keyValid : stepKey key
  dependencyKeys : ∀ k ∈ dependsOn, stepKey k
  accepted : toStepFields.matchingType = .ok ()

def quoted (key : String) : String := "'"++key++"'"

def listed (keys : List String) : String :=
  "["++", ".intercalate ((Kahn.sorted keys.dedup).map quoted)++"]"

def specOf (steps : List StepSpec) (key : String) : Option StepSpec :=
  Table.find (fun s => s.key) key steps

def dependencies (steps : List StepSpec) (key : String) : List String :=
  match specOf steps key with
  | some s => s.dependsOn
  | none => []

def checkBranch (steps : List StepSpec) (step : StepSpec) (branch : String) : Result Unit :=
  require (step.key ∈ dependencies steps branch)
    (.invalidDefinition ("condition branch "++quoted branch++" must depend on "++quoted step.key))

def checkStep (steps : List StepSpec) (step : StepSpec) : Result Unit := do
  let known := steps.map fun s => s.key
  let missing := step.dependsOn.filter fun k => k ∉ known
  require (missing = []) (.invalidDefinition
    ("step "++quoted step.key++" has unknown dependencies: "++listed missing))
  match step.config with
  | .condition c =>
    let branchMissing := (c.thenSteps++c.elseSteps).filter fun k => k ∉ known
    require (branchMissing = []) (.invalidDefinition
      ("condition "++quoted step.key++" has unknown branches: "++listed branchMissing))
    each (checkBranch steps step) (c.thenSteps++c.elseSteps)
  | _ => pure ()

def validateWorkflowGraph (steps : List StepSpec) : Result (List String) := do
  require (steps ≠ []) (.invalidDefinition "a workflow requires at least one step")
  require (steps.length ≤ 256) (.invalidDefinition "a workflow may contain at most 256 steps")
  let keys := steps.map fun s => s.key
  require keys.Nodup (.invalidDefinition "workflow step keys must be unique")
  each (checkStep steps) steps
  let ordered := Kahn.order keys (dependencies steps)
  require (ordered.length = steps.length) (.invalidDefinition "workflow graph contains a cycle")
  pure ordered

structure Graph where
  steps : List StepSpec
  order : List String
  accepted : validateWorkflowGraph steps = .ok order

namespace Graph

variable (g : Graph)

def keys : List String := g.steps.map fun s => s.key

theorem accepted_iff : g.steps ≠ [] ∧ g.keys.Nodup ∧
    (∀ s ∈ g.steps, checkStep g.steps s = .ok ()) ∧
    g.order = Kahn.order g.keys (dependencies g.steps) ∧ g.order.length = g.keys.length := by
  have h := g.accepted
  simp only [validateWorkflowGraph,bind_ok,require_ok,each_ok,pure_ok] at h
  obtain ⟨_,hne,_,-,_,hn,_,hs,_,hl,ho⟩ := h
  refine ⟨hne,hn,hs,ho.symm,?_⟩
  rw [← ho,hl,keys,List.length_map]

theorem keyed : Table.Keyed (fun s => s.key) g.steps := g.accepted_iff.2.1

variable {g} {s : StepSpec}

theorem dependencies_of_mem (hs : s ∈ g.steps) :
    dependencies g.steps s.key = s.dependsOn := by
  rw [dependencies,specOf,Table.find_of_mem g.keyed hs]

theorem dependency_known (hs : s ∈ g.steps) {d : String} (hd : d ∈ s.dependsOn) :
    d ∈ g.keys := by
  have h := g.accepted_iff.2.2.1 s hs
  simp only [checkStep,bind_ok,require_ok] at h
  obtain ⟨_,hm,-⟩ := h
  rw [List.filter_eq_nil_iff] at hm
  simpa [keys] using hm d hd

theorem branch_depends (hs : s ∈ g.steps) {c : ConditionConfig}
    (hc : s.config = .condition c) {b : String} (hb : b ∈ c.thenSteps++c.elseSteps) :
    s.key ∈ dependencies g.steps b := by
  have h := g.accepted_iff.2.2.1 s hs
  simp only [checkStep,bind_ok,require_ok,hc,each_ok] at h
  obtain ⟨_,-,_,-,h⟩ := h
  have := h b hb
  rwa [checkBranch,require_ok] at this

variable (g)

def rank (key : String) : ℕ := g.order.idxOf key

variable {g}

theorem rank_lt (hs : s ∈ g.steps) {d : String} (hd : d ∈ s.dependsOn) :
    g.rank d < g.rank s.key := by
  obtain ⟨-,hn,-,ho,hl⟩ := g.accepted_iff
  rw [rank,rank,ho]
  rw [ho] at hl
  refine Kahn.order_rank hn hl (List.mem_map_of_mem hs) ?_
  rw [dependencies_of_mem hs]
  exact hd

variable (g)

/-- The steps of the published version, in topological order. -/
def published : List StepSpec := g.order.filterMap (specOf g.steps)

theorem order_perm : g.order.Perm g.keys := by
  obtain ⟨-,hn,-,ho,hl⟩ := g.accepted_iff
  rw [ho] at hl ⊢
  exact Kahn.order_perm hn hl

variable {g}

theorem mem_published : s ∈ g.published ↔ s ∈ g.steps := by
  simp only [published,List.mem_filterMap,specOf]
  constructor
  · rintro ⟨k,-,hk⟩
    exact Table.find_mem hk
  · intro hs
    exact ⟨s.key,g.order_perm.mem_iff.mpr (List.mem_map_of_mem hs),Table.find_of_mem g.keyed hs⟩

variable (g)

theorem published_keys : g.published.map (fun s => s.key) = g.order := by
  rw [published,List.map_filterMap]
  conv_rhs => rw [← List.filterMap_some (l := g.order)]
  apply List.filterMap_congr
  intro k hk
  obtain ⟨s,hs,rfl⟩ := List.mem_map.mp (g.order_perm.mem_iff.mp hk)
  rw [specOf,Table.find_of_mem g.keyed hs]
  rfl

theorem published_keyed : Table.Keyed (fun s => s.key) g.published := by
  rw [Table.Keyed,published_keys]
  exact g.order_perm.nodup_iff.mpr g.keyed

end Graph

def ordered (left right : Json) (greater : Bool) : Bool :=
  match left, right with
  | .int a, .int b => if greater then decide (a > b) else decide (a < b)
  | .float a, .float b => if greater then decide (a > b) else decide (a < b)
  | .str a, .str b => if greater then decide (a > b) else decide (a < b)
  | _, _ => false

def context (workflowInput stepOutputs : Json.Fields) : Json :=
  .obj [("input",.obj workflowInput),("steps",.obj stepOutputs)]

def evaluateCondition (c : ConditionConfig) (workflowInput stepOutputs : Json.Fields) : Bool :=
  match c.operator, (context workflowInput stepOutputs).resolve (parts c.path) with
  | .exists_, value => value.isSome
  | .notExists, value => value.isNone
  | _, none => false
  | .equals, some value => value.looseEq c.value
  | .notEquals, some value => !value.looseEq c.value
  | .in_, some value =>
    match c.value with
    | .arr xs => xs.any fun x => value.looseEq x
    | _ => false
  | .notIn, some value =>
    match c.value with
    | .arr xs => !xs.any fun x => value.looseEq x
    | _ => false
  | .greaterThan, some value => ordered value c.value true
  | .lessThan, some value => ordered value c.value false

def reads (path key : String) : Bool :=
  match parts path with
  | [root] => root == "steps"
  | root::k::_ => root == "steps" && k == key
  | [] => false

theorem parts_ne_nil (path : String) : parts path ≠ [] := by
  simp [parts]

theorem resolve_steps (input xs : Json.Fields) (ps : List String) :
    (context input xs).resolve ("steps"::ps) = (Json.obj xs).resolve ps := by
  have hne : ("steps" == "input") = false := by decide
  simp [context,Json.resolve,List.lookup_cons,hne]

theorem resolve_congr (input : Json.Fields) {xs ys : Json.Fields} {root : String}
    {rest : List String} (hall : root = "steps" → rest = [] → xs = ys)
    (hone : root = "steps" → ∀ k ps, rest = k::ps → xs.lookup k = ys.lookup k) :
    (context input xs).resolve (root::rest) = (context input ys).resolve (root::rest) := by
  by_cases hs : root = "steps"
  · subst hs
    cases rest with
    | nil => rw [hall rfl rfl]
    | cons k ps =>
      have hk := hone rfl k ps rfl
      simp only [resolve_steps,Json.resolve,hk]
  · have hb : (root == "steps") = false := by simpa using hs
    simp only [context,Json.resolve,List.lookup_cons,List.lookup_nil,hb]

theorem evaluate_congr (c : ConditionConfig) (input : Json.Fields) {xs ys : Json.Fields}
    (hall : (∀ key, reads c.path key) → xs = ys)
    (hone : ∀ key, reads c.path key → xs.lookup key = ys.lookup key) :
    evaluateCondition c input xs = evaluateCondition c input ys := by
  obtain ⟨_,_,hparts⟩ := List.exists_cons_of_ne_nil (parts_ne_nil c.path)
  have h : (context input xs).resolve (parts c.path) =
      (context input ys).resolve (parts c.path) := by
    rw [hparts]
    apply resolve_congr
    · rintro rfl rfl
      exact hall fun key => by simp [reads,hparts]
    · rintro rfl k _ rfl
      exact hone k (by simp [reads,hparts])
  simp only [evaluateCondition,h]

end NexusAi.Workflow
