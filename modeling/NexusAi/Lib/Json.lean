import Mathlib.Tactic
import Mathlib.Data.Rat.Defs

/-!
# JSON values as Python holds them

Objects keep the order in which their fields were written. `same` is identity
of documents; `looseEq` is the host language's `==`, which compares numbers by
value across `bool`, `int` and `float` and objects without regard to order.
-/

namespace NexusAi

inductive Json where
  | null
  | bool (b : Bool)
  | int (n : ℤ)
  | float (q : ℚ)
  | str (s : String)
  | arr (xs : List Json)
  | obj (fields : List (String × Json))

namespace Json

abbrev Fields := List (String × Json)

mutual

def same : Json → Json → Bool
  | .null, .null => true
  | .bool a, .bool b => a == b
  | .int a, .int b => a == b
  | .float a, .float b => a == b
  | .str a, .str b => a == b
  | .arr xs, .arr ys => sameAll xs ys
  | .obj xs, .obj ys => sameFields xs ys
  | _, _ => false

def sameAll : List Json → List Json → Bool
  | [], [] => true
  | x::xs, y::ys => same x y && sameAll xs ys
  | _, _ => false

def sameFields : Fields → Fields → Bool
  | [], [] => true
  | (k,x)::xs, (l,y)::ys => k == l && same x y && sameFields xs ys
  | _, _ => false

end

mutual

theorem same_iff : (a b : Json) → (same a b ↔ a = b)
  | .null, b => by cases b <;> simp [same]
  | .bool _, b => by cases b <;> simp [same]
  | .int _, b => by cases b <;> simp [same]
  | .float _, b => by cases b <;> simp [same]
  | .str _, b => by cases b <;> simp [same]
  | .arr xs, b => by
    cases b with
    | arr ys => simpa [same] using sameAll_iff xs ys
    | _ => simp [same]
  | .obj xs, b => by
    cases b with
    | obj ys => simpa [same] using sameFields_iff xs ys
    | _ => simp [same]

theorem sameAll_iff : (xs ys : List Json) → (sameAll xs ys ↔ xs = ys)
  | [], ys => by cases ys <;> simp [sameAll]
  | x::xs, [] => by simp [sameAll]
  | x::xs, y::ys => by simp [sameAll,same_iff x y,sameAll_iff xs ys]

theorem sameFields_iff : (xs ys : Fields) → (sameFields xs ys ↔ xs = ys)
  | [], ys => by cases ys <;> simp [sameFields]
  | (k,x)::xs, [] => by simp [sameFields]
  | (k,x)::xs, (l,y)::ys => by
    simp [sameFields,same_iff x y,sameFields_iff xs ys]

end

instance : DecidableEq Json := fun a b => decidable_of_iff _ (same_iff a b)

/-- The value of a number; `True` and `False` are the numbers 1 and 0. -/
def number : Json → Option ℚ
  | .bool b => some (if b then 1 else 0)
  | .int n => some n
  | .float q => some q
  | _ => none

mutual

def looseEq : Json → Json → Bool
  | .null, .null => true
  | .str a, .str b => a == b
  | .arr xs, .arr ys => looseAll xs ys
  | .obj xs, .obj ys => xs.length == ys.length && looseFields xs ys
  | a, b => a.number.isSome && a.number == b.number

def looseAll : List Json → List Json → Bool
  | [], [] => true
  | x::xs, y::ys => looseEq x y && looseAll xs ys
  | _, _ => false

def looseFields : Fields → Fields → Bool
  | [], _ => true
  | (k,x)::xs, ys =>
    (match ys.lookup k with
      | some y => looseEq x y
      | none => false) && looseFields xs ys

end

/-- Walk from field to field; `none` is a missing field or a value that has
no fields. -/
def resolve : Json → List String → Option Json
  | v, [] => some v
  | .obj fields, p::ps =>
    match fields.lookup p with
    | some v => resolve v ps
    | none => none
  | _, _::_ => none

end Json
end NexusAi
