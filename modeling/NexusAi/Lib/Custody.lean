import Mathlib.Tactic

/-!
# Who holds what

Parties, named by numbers, hold keys or locks. In custody no key is held twice. A lock is
given to a party when every lock that others hold on the resource, and the one that is
asked for, is shared.
-/

namespace NexusAi.RowLocks

inductive Mode
  | shared | exclusive
  deriving DecidableEq

variable {R : Type*}

def Exclusion (held : ℕ → List (R × Mode)) : Prop :=
  ∀ i j r m n, i ≠ j → (r,m) ∈ held i → (r,n) ∈ held j → m = .shared ∧ n = .shared

def Free (held : ℕ → List (R × Mode)) (i : ℕ) (r : R) (m : Mode) : Prop :=
  ∀ j n, j ≠ i → (r,n) ∈ held j → m = .shared ∧ n = .shared

variable {held held' : ℕ → List (R × Mode)} {i : ℕ} {r : R} {m : Mode}

theorem Exclusion.acquire (h : Exclusion held) (hfree : Free held i r m)
    (hi : ∀ k ∈ held' i, k = (r,m) ∨ k ∈ held i) (hother : ∀ j, j ≠ i → held' j = held j) :
    Exclusion held' := by
  intro a b s k l hab ha hb
  by_cases hai : a = i
  · subst hai
    rw [hother b (Ne.symm hab)] at hb
    rcases hi _ ha with heq | ha
    · cases heq
      exact hfree b l (Ne.symm hab) hb
    · exact h a b s k l hab ha hb
  · rw [hother a hai] at ha
    by_cases hbi : b = i
    · subst hbi
      rcases hi _ hb with heq | hb
      · cases heq
        exact (hfree a k hai ha).symm
      · exact h a b s k l hab ha hb
    · rw [hother b hbi] at hb
      exact h a b s k l hab ha hb

theorem Exclusion.release (h : Exclusion held) (hsub : ∀ j, ∀ k ∈ held' j, k ∈ held j) :
    Exclusion held' := by
  intro a b s k l hab ha hb
  exact h a b s k l hab (hsub a _ ha) (hsub b _ hb)

theorem Exclusion.alone (h : Exclusion held) (hi : (r,.exclusive) ∈ held i) {j : ℕ}
    (hj : (r,m) ∈ held j) : i = j := by
  by_contra hij
  cases (h i j r .exclusive m hij hi hj).1

end NexusAi.RowLocks

namespace NexusAi.Custody

variable {K : Type*}

structure Sole (held : ℕ → List K) : Prop where
  once : ∀ i, (held i).Nodup
  alone : ∀ i j k, k ∈ held i → k ∈ held j → i = j

variable {held held' : ℕ → List K} {i : ℕ}

theorem sole_empty : Sole (fun _ => ([] : List K)) := by
  constructor
  · intro i
    exact List.nodup_nil
  · intro i j k hk
    cases hk

theorem Sole.change (h : Sole held) (hother : ∀ j, j ≠ i → held' j = held j)
    (honce : (held' i).Nodup)
    (hfree : ∀ k ∈ held' i, k ∈ held i ∨ ∀ j, k ∉ held j) : Sole held' := by
  have howner : ∀ {j k}, j ≠ i → k ∈ held' j → k ∉ held' i := by
    intro j k hj hk hki
    rw [hother j hj] at hk
    rcases hfree k hki with hold | hnone
    · exact hj (h.alone j i k hk hold)
    · exact hnone j hk
  constructor
  · intro j
    by_cases hj : j = i
    · rw [hj]
      exact honce
    · rw [hother j hj]
      exact h.once j
  · intro j l k hk hl
    by_cases hj : j = i <;> by_cases hli : l = i
    · rw [hj,hli]
    · rw [hj] at hk
      exact absurd hk (howner hli hl)
    · rw [hli] at hl
      exact absurd hl (howner hj hk)
    · rw [hother j hj] at hk
      rw [hother l hli] at hl
      exact h.alone j l k hk hl

end NexusAi.Custody
