import Mathlib.Tactic
import Mathlib.Data.Nat.Count

/-!
# Counts that change at one place

How many of the first numbers have a property, when the property is lost or won by a
single one of them.
-/

namespace NexusAi.Counting

variable {p q : ℕ → Prop} [DecidablePred p] [DecidablePred q]

theorem count_congr {n : ℕ} (h : ∀ k < n, p k ↔ q k) : Nat.count p n = Nat.count q n := by
  induction n with
  | zero => rfl
  | succ n ih =>
    rw [Nat.count_succ,Nat.count_succ,ih fun k hk => h k (by omega)]
    simp only [h n (Nat.lt_succ_self n)]

theorem count_lost {n d : ℕ} (hd : d < n) (hp : p d) (hq : ¬ q d)
    (h : ∀ k, k ≠ d → (p k ↔ q k)) : Nat.count p n = Nat.count q n+1 := by
  induction n with
  | zero => omega
  | succ n ih =>
    rw [Nat.count_succ,Nat.count_succ]
    by_cases hn : n = d
    · subst hn
      rw [if_pos hp,if_neg hq,add_zero,count_congr fun k hk => h k (by omega)]
    · rw [ih (by omega)]
      simp only [h n hn]
      omega

theorem count_or {n : ℕ} (h : ∀ k, p k → ¬ q k) :
    Nat.count (fun k => p k ∨ q k) n = Nat.count p n+Nat.count q n := by
  induction n with
  | zero => rfl
  | succ n ih =>
    simp only [Nat.count_succ,ih]
    by_cases hp : p n
    · have hq := h n hp
      simp only [hp,hq,or_false,if_true,if_false]
      omega
    · by_cases hq : q n
      · simp only [hp,hq,or_true,if_true,if_false]
        omega
      · simp only [hp,hq,or_false,if_false,add_zero]

end NexusAi.Counting
