import Mathlib.Data.List.Basic

/-!
# Text without the blanks at its ends
-/

namespace NexusAi.Texts

abbrev Text := List Char

/-- The characters that `str.strip` takes for blanks. -/
def isSpace (c : Char) : Bool :=
  c.toNat ∈ [0x85,0xa0,0x1680,0x2028,0x2029,0x202f,0x205f,0x3000] ∨
    9 ≤ c.toNat ∧ c.toNat ≤ 13 ∨ 0x1c ≤ c.toNat ∧ c.toNat ≤ 0x20 ∨
    0x2000 ≤ c.toNat ∧ c.toNat ≤ 0x200a

def stripOf (p : Char → Bool) (text : String) : String :=
  String.ofList (((text.toList.dropWhile p).reverse.dropWhile p).reverse)

def strip (text : Text) : Text :=
  ((text.dropWhile isSpace).reverse.dropWhile isSpace).reverse

theorem strip_eq {t : Text} (h : ∀ c ∈ t, isSpace c = false) : strip t = t := by
  have hdrop : ∀ u : Text, (∀ c ∈ u, isSpace c = false) → u.dropWhile isSpace = u := by
    intro u hu
    cases u with
    | nil => rfl
    | cons c => rw [List.dropWhile_cons,hu c (by simp),if_neg Bool.false_ne_true]
  rw [strip,hdrop t h,hdrop _ (by simpa using h),List.reverse_reverse]

end NexusAi.Texts
