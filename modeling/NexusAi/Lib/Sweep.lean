import Mathlib.Tactic

/-!
# Sweeps until nothing changes

A sweep visits a list of places in order; a visit changes the state or leaves
it. Sweeps are repeated as long as one of them changed anything. When every
change lowers a measure, a bounded number of rounds ends in a state that no
visit changes.
-/

namespace NexusAi.Sweep

variable {S K : Type*} (visit : S → K → Option S)

def mark (p : S × Bool) (k : K) : S × Bool :=
  match visit p.1 k with
  | none => p
  | some s => (s,true)

def sweep (ks : List K) (s : S) : S × Bool := ks.foldl (mark visit) (s,false)

def saturate (ks : List K) : ℕ → S → S
  | 0, s => s
  | n+1, s =>
    match sweep visit ks s with
    | (t,true) => saturate ks n t
    | (t,false) => t

def Stable (ks : List K) (s : S) : Prop := ∀ k ∈ ks, visit s k = none

section Related

variable {visit} {R : S → S → Prop}

section

variable (hrefl : ∀ s, R s s) (htrans : ∀ s t u, R s t → R t u → R s u)
  (hvisit : ∀ s k t, visit s k = some t → R s t) (ks : List K)

include hrefl htrans hvisit ks

theorem marks_related (p : S × Bool) : R p.1 (ks.foldl (mark visit) p).1 := by
  induction ks generalizing p with
  | nil => exact hrefl _
  | cons k _ ih =>
    refine htrans _ _ _ ?_ (ih (mark visit p k))
    unfold mark
    split
    · exact hrefl _
    · rename_i hs
      exact hvisit _ _ _ hs

theorem saturate_related (n : ℕ) (s : S) : R s (saturate visit ks n s) := by
  induction n generalizing s with
  | zero => exact hrefl _
  | succ _ ih =>
    have hsweep := marks_related hrefl htrans hvisit ks (s,false)
    unfold saturate
    split
    · rename_i t ht
      rw [← sweep,ht] at hsweep
      exact htrans _ _ _ hsweep (ih t)
    · rename_i ht
      rw [← sweep,ht] at hsweep
      exact hsweep

end

end Related

section Measured

variable {visit} {μ : S → ℕ}

theorem marks_unchanged (ks : List K) (p : S × Bool)
    (h : (ks.foldl (mark visit) p).2 = false) :
    p.2 = false ∧ (ks.foldl (mark visit) p).1 = p.1 ∧ Stable visit ks p.1 := by
  induction ks generalizing p with
  | nil => exact ⟨h,rfl,by simp [Stable]⟩
  | cons k _ ih =>
    obtain ⟨hmark,heq,hstable⟩ := ih (mark visit p k) h
    rw [List.foldl_cons,heq]
    unfold mark at hmark hstable ⊢
    split at hmark
    · rename_i hk
      simp only [hk] at hstable ⊢
      refine ⟨hmark,trivial,?_⟩
      intro k' hk'
      rcases List.mem_cons.mp hk' with rfl | hk'
      · exact hk
      · exact hstable k' hk'
    · cases hmark

theorem marks_lower (hμ : ∀ s k t, visit s k = some t → μ t < μ s) (ks : List K) (p : S × Bool) :
    (ks.foldl (mark visit) p).1 = p.1 ∧ (ks.foldl (mark visit) p).2 = p.2 ∨
      μ (ks.foldl (mark visit) p).1 < μ p.1 := by
  induction ks generalizing p with
  | nil => exact .inl ⟨rfl,rfl⟩
  | cons k _ ih =>
    rw [List.foldl_cons]
    have hrest := ih (mark visit p k)
    unfold mark at hrest ⊢
    split at hrest
    · exact hrest
    · rename_i hs
      have hlt := hμ _ _ _ hs
      rcases hrest with ⟨he,-⟩ | hrest
      · rw [he]
        exact .inr hlt
      · exact .inr (hrest.trans hlt)

theorem saturate_stable (hμ : ∀ s k t, visit s k = some t → μ t < μ s) (ks : List K) {n : ℕ} {s : S}
    (hn : μ s < n) : Stable visit ks (saturate visit ks n s) := by
  induction n generalizing s with
  | zero => exact absurd hn (Nat.not_lt_zero _)
  | succ _ ih =>
    unfold saturate
    split
    · rename_i t ht
      have hlower := marks_lower hμ ks (s,false)
      rw [← sweep,ht] at hlower
      rcases hlower with ⟨-,hmark⟩ | hlt
      · cases hmark
      · exact ih (hlt.trans_le (Nat.lt_succ_iff.mp hn))
    · rename_i t ht
      have hunmarked : (ks.foldl (mark visit) (s,false)).2 = false := by rw [← sweep,ht]
      obtain ⟨-,he,hstable⟩ := marks_unchanged ks (s,false) hunmarked
      rw [← sweep,ht] at he
      obtain rfl : t = s := he
      exact hstable

end Measured

end NexusAi.Sweep
