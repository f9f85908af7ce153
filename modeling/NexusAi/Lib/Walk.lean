import NexusAi.Lib.Checked

/-!
# Walks in one order filtered by another

A walk advances from place to place and resolves each place to a stop with a
rank. The search after a given rank passes over the stops that do not exceed
it, for a bounded number of steps. Restarting the search from every stop it
returns emits exactly the records of the grid: the stops whose rank exceeds
every earlier one.
-/

namespace NexusAi

structure Walk (ε L S V : Type) where
  advance : L → Except ε L
  resolve : L → Except ε S
  place : S → L
  rank : S → V
  exhausted : ε
  place_resolve : ∀ l s, resolve l = .ok s → place s = l

namespace Walk
open NexusAi.Checked

variable {ε L S V : Type}

section Grid

variable (w : Walk ε L S V)

def reach : ℕ → L → Except ε L
  | 0, l => .ok l
  | n+1, l => do
    let l ← w.advance l
    reach n l

/-- The grid point with index `n` is `l` and resolves to the stop `t`. -/
def At (s : S) (n : ℕ) (l : L) (t : S) : Prop :=
  w.reach n (w.place s) = .ok l ∧ w.resolve l = .ok t

variable {w}

theorem reach_add (m k : ℕ) (l : L) :
    w.reach (m+k) l = w.reach m l >>= w.reach k := by
  induction m generalizing l with
  | zero => simp [reach,bind,Except.bind]
  | succ _ ih =>
    rw [Nat.succ_add,reach,reach]
    cases w.advance l with
    | error => rfl
    | ok l' => exact ih l'

variable {n : ℕ} {l l' : L} {s t : S}

theorem reach_le {m : ℕ} (h : w.reach n l = .ok l') (hm : m ≤ n) :
    ∃ k, w.reach m l = .ok k ∧ w.reach (n-m) k = .ok l' := by
  rw [← Nat.add_sub_cancel' hm,reach_add] at h
  exact bind_ok.mp h

theorem At.det {u : S} {k : L} (h : w.At s n l t) (h' : w.At s n k u) : l = k ∧ t = u := by
  have hl := h.1.symm.trans h'.1
  simp only [Except.ok.injEq] at hl
  subst hl
  have ht := h.2.symm.trans h'.2
  simp only [Except.ok.injEq] at ht
  exact ⟨rfl,ht⟩

theorem At.place (h : w.At s n l t) : w.place t = l :=
  w.place_resolve l t h.2

theorem At.step {k : ℕ} (h : w.At s n l t) (hr : w.reach k (w.place t) = .ok l') :
    w.reach (n+k) (w.place s) = .ok l' := by
  rw [reach_add,h.1,← h.place]
  exact hr

theorem At.between {u : S} {k : ℕ} (h : w.At s n l t) (h' : w.At s (n+k) l' u) :
    w.reach k (w.place t) = .ok l' := by
  have hr := h'.1
  rw [reach_add,h.1] at hr
  rw [h.place]
  exact hr

end Grid

variable [LinearOrder V] (w : Walk ε L S V)

def search (after : V) : ℕ → L → Except ε S
  | 0, _ => .error w.exhausted
  | n+1, l => do
    let l ← w.advance l
    let s ← w.resolve l
    if after < w.rank s then pure s else search after n l

def emitted (fuel : ℕ) (s : S) : ℕ → Except ε S
  | 0 => .ok s
  | k+1 => do
    let t ← emitted fuel s k
    w.search (w.rank t) fuel (w.place t)

def Record (s : S) (n : ℕ) (t : S) : Prop :=
  (∃ l, w.At s n l t) ∧ ∀ m < n, ∀ l u, w.At s m l u → w.rank u < w.rank t

/-- Every grid point up to index `n` resolves. -/
def Resolved (s : S) (n : ℕ) : Prop := ∀ m ≤ n, ∃ l t, w.At s m l t

/-- Grid points at least `fuel` steps apart have their ranks in order. -/
def Settles (s : S) (fuel : ℕ) : Prop :=
  ∀ m d l t l' t', fuel ≤ d → w.At s m l t → w.At s (m+d) l' t' → w.rank t < w.rank t'

variable {w} {n fuel : ℕ} {t s : S}

theorem search_ok {after : V} {l : L} :
    w.search after n l = .ok t ↔ ∃ k < n, (∃ l', w.reach (k+1) l = .ok l' ∧ w.resolve l' = .ok t) ∧
      after < w.rank t ∧ ∀ j < k, ∃ l' u, w.reach (j+1) l = .ok l' ∧ w.resolve l' = .ok u ∧
        ¬ after < w.rank u := by
  induction n generalizing l with
  | zero => simp [search]
  | succ _ ih =>
    simp only [search,bind_ok]
    constructor
    · rintro ⟨l1,h1,t1,ht1,h⟩
      split_ifs at h with hlt
      · rw [pure_ok] at h
        subst h
        exact ⟨0,by omega,⟨l1,by simp [reach,h1],ht1⟩,hlt,by omega⟩
      · obtain ⟨k,_,⟨l',hl',ht⟩,hgt,hj⟩ := ih.mp h
        refine ⟨k+1,by omega,⟨l',?_,ht⟩,hgt,?_⟩
        · rw [reach,h1]
          exact hl'
        · intro j hjk
          cases j with
          | zero => exact ⟨l1,t1,by simp [reach,h1],ht1,hlt⟩
          | succ j =>
            obtain ⟨l2,u,hr,hu⟩ := hj j (by omega)
            refine ⟨l2,u,?_,hu⟩
            rw [reach,h1]
            exact hr
    · rintro ⟨k,_,⟨l',hl',ht⟩,hgt,hj⟩
      rw [reach,bind_ok] at hl'
      obtain ⟨l1,h1,hl'⟩ := hl'
      cases k with
      | zero =>
        simp only [reach,Except.ok.injEq] at hl'
        subst hl'
        exact ⟨l1,h1,t,ht,by simp [hgt]⟩
      | succ k =>
        obtain ⟨l2,u,hr,hu,hn⟩ := hj 0 (by omega)
        simp only [reach,h1,bind,Except.bind,Except.ok.injEq] at hr
        subst hr
        refine ⟨l1,h1,u,hu,?_⟩
        rw [if_neg hn]
        refine ih.mpr ⟨k,by omega,⟨l',hl',ht⟩,hgt,?_⟩
        intro j hjk
        obtain ⟨l2,v,hr,hv⟩ := hj (j+1) (by omega)
        rw [reach,h1] at hr
        exact ⟨l2,v,hr,hv⟩

theorem emitted_record {k : ℕ} (hs : w.resolve (w.place s) = .ok s)
    (h : w.emitted fuel s k = .ok t) : ∃ n, w.Record s n t := by
  induction k generalizing t with
  | zero =>
    simp only [emitted,Except.ok.injEq] at h
    subst h
    exact ⟨0,⟨w.place s,rfl,hs⟩,by omega⟩
  | succ _ ih =>
    rw [emitted,bind_ok] at h
    obtain ⟨u,hu,h⟩ := h
    obtain ⟨n,⟨l,hn⟩,hrec⟩ := ih hu
    obtain ⟨j,-,⟨l',hl',ht⟩,hgt,hj⟩ := search_ok.mp h
    refine ⟨n+(j+1),⟨l',hn.step hl',ht⟩,?_⟩
    intro m hm lm v hv
    rcases lt_trichotomy m n with hlt | rfl | hlt
    · exact (hrec m hlt lm v hv).trans hgt
    · obtain ⟨-,rfl⟩ := hv.det hn
      exact hgt
    · obtain ⟨d,rfl⟩ : ∃ d, m = n+(d+1) := ⟨m-n-1,by omega⟩
      obtain ⟨_,_,hr,hv',hle⟩ := hj d (by omega)
      obtain ⟨-,rfl⟩ := hv.det ⟨hn.step hr,hv'⟩
      exact (not_lt.mp hle).trans_lt hgt

/-- From a stop of smaller rank the search reaches a stop no further than the
record, so that restarting it arrives there. -/
theorem emitted_of_record (hrec : w.Record s n t) (hres : w.Resolved s n)
    (hset : w.Settles s fuel) {m k : ℕ} {l : L} {u : S} (hm : m ≤ n) (hu : w.At s m l u)
    (hk : w.emitted fuel s k = .ok u) : ∃ k', w.emitted fuel s k' = .ok t := by
  obtain ⟨⟨ln,hn⟩,hlt⟩ := hrec
  induction hd : n-m using Nat.strong_induction_on generalizing m k l u with
  | _ _ ih =>
    rcases Nat.eq_or_lt_of_le hm with rfl | hmn
    · obtain ⟨-,rfl⟩ := hu.det hn
      exact ⟨k,hk⟩
    · have hex : ∃ j, m+(j+1) ≤ n ∧ ∃ l' v, w.At s (m+(j+1)) l' v ∧ w.rank u < w.rank v := by
        refine ⟨n-m-1,by omega,ln,t,?_,hlt m hmn l u hu⟩
        rw [show m+(n-m-1+1) = n by omega]
        exact hn
      classical
      obtain ⟨hjn,l',v,hv,hgt⟩ := Nat.find_spec hex
      have hmin := fun i (hi : i < Nat.find hex) => Nat.find_min hex hi
      have hjf : Nat.find hex < fuel := by
        by_contra hge
        rw [not_lt] at hge
        cases hf : fuel with
        | zero =>
          subst hf
          exact absurd (hset m 0 l u l u le_rfl hu hu) (lt_irrefl _)
        | succ f =>
          obtain ⟨l2,v2,h2⟩ := hres (m+(f+1)) (by omega)
          exact hmin f (by omega) ⟨by omega,l2,v2,h2,hset m (f+1) l u l2 v2 (by omega) hu h2⟩
      have hnext : w.emitted fuel s (k+1) = .ok v := by
        rw [emitted,hk]
        refine search_ok.mpr ⟨Nat.find hex,hjf,⟨l',hu.between hv,hv.2⟩,hgt,?_⟩
        intro i hi
        obtain ⟨l2,v2,h2⟩ := hres (m+(i+1)) (by omega)
        exact ⟨l2,v2,hu.between h2,h2.2,fun hc => hmin i hi ⟨by omega,l2,v2,h2,hc⟩⟩
      exact ih (n-(m+(Nat.find hex+1))) (by omega) hjn hv hnext rfl

theorem record_emitted (hs : w.resolve (w.place s) = .ok s) (hrec : w.Record s n t)
    (hres : w.Resolved s n) (hset : w.Settles s fuel) : ∃ k, w.emitted fuel s k = .ok t :=
  emitted_of_record hrec hres hset (Nat.zero_le n) (k := 0) ⟨rfl,hs⟩ rfl

theorem emitted_rank_lt {k d : ℕ} {u : S} (h : w.emitted fuel s k = .ok t)
    (h' : w.emitted fuel s (k+(d+1)) = .ok u) : w.rank t < w.rank u := by
  induction d generalizing u with
  | zero =>
    rw [emitted,h] at h'
    obtain ⟨_,_,_,hgt,_⟩ := search_ok.mp h'
    exact hgt
  | succ d ih =>
    rw [show k+(d+1+1) = k+(d+1)+1 by omega,emitted,bind_ok] at h'
    obtain ⟨v,hv,h'⟩ := h'
    obtain ⟨_,_,_,hgt,_⟩ := search_ok.mp h'
    exact (ih hv).trans hgt

end Walk
end NexusAi
