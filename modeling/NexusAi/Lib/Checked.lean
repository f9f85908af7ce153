import Mathlib.Tactic

/-!
# Guarded computations and transactions

A guard either lets a computation go on or ends it with its error. A
transaction that ends with an error leaves the store as it found it.
-/

namespace NexusAi.Checked

universe u
variable {ε S : Type*} {α β : Type u}

def require (p : Prop) [Decidable p] (e : ε) : Except ε Unit :=
  if p then .ok () else .error e

def present (x : Option α) (e : ε) : Except ε α :=
  match x with
  | some a => .ok a
  | none => .error e

/-- Check the elements one after the other up to the first error. -/
def each (f : β → Except ε Unit) : List β → Except ε Unit
  | [] => .ok ()
  | b::bs => do
    f b
    each f bs

def commit (x : Except ε (S × α)) (s : S) : S :=
  match x with
  | .ok p => p.1
  | .error _ => s

@[simp] theorem require_ok {p : Prop} [Decidable p] {e : ε} {u : Unit} :
    require p e = .ok u ↔ p := by
  unfold require
  split_ifs <;> simp_all

@[simp] theorem present_ok {x : Option α} {e : ε} {a : α} :
    present x e = .ok a ↔ x = some a := by
  cases x <;> simp [present]

@[simp] theorem bind_ok {x : Except ε α} {f : α → Except ε β} {b : β} :
    (x >>= f) = .ok b ↔ ∃ a, x = .ok a ∧ f a = .ok b := by
  cases x with
  | error | ok => simp [bind,Except.bind]

@[simp] theorem pure_ok {a b : α} : (pure a : Except ε α) = .ok b ↔ a = b := by
  simp [pure,Except.pure]

@[simp] theorem each_ok {f : β → Except ε Unit} {bs : List β} {u : Unit} :
    each f bs = .ok u ↔ ∀ b ∈ bs, f b = .ok () := by
  induction bs with
  | nil => simp [each]
  | cons _ _ ih =>
    simp only [each,bind_ok,ih,List.forall_mem_cons]
    constructor
    · rintro ⟨⟨⟩,hb,hbs⟩
      exact ⟨hb,hbs⟩
    · rintro ⟨hb,hbs⟩
      exact ⟨(),hb,hbs⟩

theorem commit_cases (x : Except ε (S × α)) (s : S) :
    (∃ p, x = .ok p ∧ commit x s = p.1) ∨ commit x s = s := by
  cases x with
  | error => exact .inr rfl
  | ok p => exact .inl ⟨p,rfl,rfl⟩

end NexusAi.Checked
