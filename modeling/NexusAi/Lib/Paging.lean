import Mathlib.Data.List.Sort
import Mathlib.Tactic

/-!
# Listing rows page by page

A client asks for the rows whose key is below that of the last row it has seen,
until a page is empty. The pages follow an order of their own. They make up the
whole listing exactly if the keys below that of each page's last row are those
of the rows that come after it.
-/

namespace NexusAi.Paging

variable {R K : Type*} [LinearOrder K] (key : R → K)

def below (after : Option K) (rows : List R) : List R :=
  rows.filter fun r => after.all fun a => key r < a

def collect (query : Option K → List R) : ℕ → Option K → List R
  | 0, _ => []
  | fuel+1, after => match (query after).getLast? with
    | none => []
    | some b => query after++collect query fuel (some (key b))

/-- A row at which a page of `n` rows ends. -/
def PageEnd (n : ℕ) (rows : List R) (b : R) : Prop :=
  ∃ A C, rows = A++b::C ∧ (n ∣ A.length+1 ∨ C = [])

def Fits (before : R → R → Prop) (n : ℕ) (rows : List R) : Prop :=
  ∀ b, PageEnd n rows b → ∀ r ∈ rows, key r < key b ↔ before b r

variable {key} {before : R → R → Prop} {n : ℕ} {rows A C : List R} {b : R}

theorem below_below {after : Option K} (hb : b ∈ below key after rows) :
    below key (some (key b)) rows = (below key after rows).filter fun r => key r < key b := by
  unfold below at hb ⊢
  rw [List.filter_filter]
  apply List.filter_congr
  intro r _
  have hlow := (List.mem_filter.mp hb).2
  cases after with
  | none => simp
  | some c =>
    have hbc : key b < c := by simpa using hlow
    by_cases hr : key r < key b
    · simp [hr,hr.trans hbc]
    · simp [hr]

omit [LinearOrder K] in
theorem pageEnd_iff (hA : A.length < n) (hend : A.length+1 = n ∨ C = []) (c : R) :
    PageEnd n (A++b::C) c ↔ c = b ∨ PageEnd n C c := by
  constructor
  · rintro ⟨_,C',heq,hc⟩
    rcases List.append_eq_append_iff.mp heq with ⟨X,rfl,hX⟩ | ⟨X,rfl,hX⟩
    · cases X with
      | nil => exact .inl (List.cons.inj hX).1.symm
      | cons _ X =>
        obtain ⟨rfl,rfl⟩ := List.cons.inj hX
        refine .inr ⟨X,C',rfl,hc.imp_left fun hdvd => ?_⟩
        have hn := hend.resolve_right (by simp)
        have hlen : (A++b::X).length+1 = n+(X.length+1) := by
          simp only [List.length_append,List.length_cons]
          omega
        rw [hlen] at hdvd
        exact (Nat.dvd_add_right dvd_rfl).mp hdvd
    · cases X with
      | nil => exact .inl (List.cons.inj hX).1
      | cons =>
        obtain ⟨rfl,rfl⟩ := List.cons.inj hX
        rcases hc with hdvd | hnil
        · have := Nat.le_of_dvd (Nat.succ_pos _) hdvd
          simp only [List.length_append,List.length_cons] at hA
          omega
        · exact absurd hnil (by simp)
  · rintro (rfl | ⟨X,C',rfl,hc⟩)
    · exact ⟨A,C,rfl,hend.imp_left fun hn => dvd_of_eq hn.symm⟩
    · refine ⟨A++b::X,C',by simp,hc.imp_left fun hdvd => ?_⟩
      have hn := hend.resolve_right (by simp)
      have hlen : (A++b::X).length+1 = n+(X.length+1) := by
        simp only [List.length_append,List.length_cons]
        omega
      exact hlen ▸ Dvd.dvd.add dvd_rfl hdvd

omit [LinearOrder K] in
theorem first_page (hb : (rows.take n).getLast? = some b) :
    ∃ A C, rows = A++b::C ∧ rows.take n = A++[b] ∧ A.length < n ∧ (A.length+1 = n ∨ C = []) := by
  obtain ⟨A,hA⟩ := List.getLast?_eq_some_iff.mp hb
  have hlen := congrArg List.length hA
  simp only [List.length_take,List.length_append,List.length_singleton] at hlen
  refine ⟨A,rows.drop n,?_,hA,by omega,?_⟩
  · rw [List.append_cons,← hA,List.take_append_drop]
  · rw [List.drop_eq_nil_iff]
    omega

variable (hasymm : ∀ r s, before r s → ¬ before s r)
include hasymm

section

variable (hsorted : (A++b::C).Pairwise before)

include hsorted

theorem filter_iff : (A++b::C).filter (fun r => key r < key b) = C ↔
      ∀ r ∈ A++b::C, key r < key b ↔ before b r := by
  obtain ⟨-,hC,hAC⟩ := List.pairwise_append.mp hsorted
  have hbC := (List.pairwise_cons.mp hC).1
  constructor
  · intro h r hr
    constructor
    · intro hlt
      apply hbC
      rw [← h]
      exact List.mem_filter.mpr ⟨hr,by simpa using hlt⟩
    · intro hbr
      have hmem : r ∈ C := by
        rcases List.mem_append.mp hr with hr | hr
        · exact absurd hbr (hasymm _ _ (hAC r hr b List.mem_cons_self))
        · rcases List.mem_cons.mp hr with rfl | hr
          · exact absurd hbr (hasymm _ _ hbr)
          · exact hr
      rw [← h] at hmem
      simpa using (List.mem_filter.mp hmem).2
  · intro h
    have hfront : (A++[b]).filter (fun r => key r < key b) = [] := by
      rw [List.filter_eq_nil_iff]
      intro r hr hlt
      have hr' : r ∈ A++b::C := List.append_cons A b C ▸ List.mem_append_left C hr
      have hbr := (h r hr').mp (by simpa using hlt)
      rcases List.mem_append.mp hr with hr | hr
      · exact hasymm _ _ hbr (hAC r hr b List.mem_cons_self)
      · cases List.mem_singleton.mp hr
        exact hasymm _ _ hbr hbr
    have hback : C.filter (fun r => key r < key b) = C := by
      rw [List.filter_eq_self]
      intro r hr
      simpa using (h r (by simp [hr])).mpr (hbC r hr)
    rw [List.append_cons,List.filter_append,hfront,hback,List.nil_append]

theorem filter_eq_rest {p : R → Bool} (hsub : ∀ r ∈ C, r ∈ (A++b::C).filter p)
    (hhead : C.head? = ((A++b::C).filter p).head?) : (A++b::C).filter p = C := by
  rw [List.append_cons,List.filter_append] at hhead ⊢
  have hfront : (A++[b]).filter p = [] := by
    by_contra hne
    obtain ⟨x,_,hx⟩ := List.exists_cons_of_ne_nil hne
    have hxA : x ∈ A++[b] := List.mem_of_mem_filter (hx ▸ List.mem_cons_self)
    have hxC : x ∈ C := List.mem_of_mem_head? (by rw [hhead,hx]; rfl)
    rw [List.append_cons] at hsorted
    have hxx := (List.pairwise_append.mp hsorted).2.2 x hxA x hxC
    exact hasymm _ _ hxx hxx
  have hback : C.filter p = C :=
    List.filter_eq_self.mpr fun r hr => (List.mem_filter.mp (hsub r hr)).2
  rw [hfront,hback,List.nil_append]

theorem fits_iff (hA : A.length < n) (hend : A.length+1 = n ∨ C = []) :
    Fits key before n (A++b::C) ↔
      (∀ r ∈ A++b::C, key r < key b ↔ before b r) ∧ Fits key before n C := by
  have hbC := (List.pairwise_cons.mp (List.pairwise_append.mp hsorted).2.1).1
  constructor
  · intro h
    refine ⟨h b ((pageEnd_iff hA hend b).mpr (.inl rfl)),fun c hc r hr => ?_⟩
    exact h c ((pageEnd_iff hA hend c).mpr (.inr hc)) r (by simp [hr])
  · rintro ⟨hb,hC⟩ c hc r hr
    rcases (pageEnd_iff hA hend c).mp hc with rfl | hc
    · exact hb r hr
    · by_cases hrC : r ∈ C
      · exact hC c hc r hrC
      · have hcC : c ∈ C := by
          obtain ⟨X,Y,rfl,-⟩ := hc
          simp
        -- a row of the first page is above all ends of the others
        have hrA : r ∈ A++[b] := by
          rw [List.append_cons] at hr
          exact (List.mem_append.mp hr).resolve_right hrC
        rw [List.append_cons] at hsorted
        have hrc := (List.pairwise_append.mp hsorted).2.2 r hrA c hcC
        have hcb := (hb c (by simp [hcC])).mpr (hbC c hcC)
        have hbr : ¬ key r < key b := by
          rw [hb r hr]
          intro hbr
          rcases List.mem_append.mp hrA with hrA | hrA
          · exact hasymm _ _ hbr ((List.pairwise_append.mp
              (List.pairwise_append.mp hsorted).1).2.2 r hrA b (by simp))
          · cases List.mem_singleton.mp hrA
            exact hasymm _ _ hbr hbr
        exact iff_of_false (fun h => hbr (h.trans hcb)) (hasymm _ _ hrc)

end

section

variable {query : Option K → List R}
  (hquery : ∀ after, query after = (below key after rows).take n) (hn : 1 ≤ n)
include hquery

omit hasymm in
theorem collect_subset (fuel : ℕ) (after : Option K) :
    ∀ r ∈ collect key query fuel after, r ∈ below key after rows := by
  induction fuel generalizing after with
  | zero => exact fun r hr => absurd hr List.not_mem_nil
  | succ _ ih =>
    intro r hr
    rw [collect] at hr
    split at hr
    · exact absurd hr List.not_mem_nil
    · rename_i hb
      rw [hquery] at hr hb
      rcases List.mem_append.mp hr with hr | hr
      · exact List.mem_of_mem_take hr
      · have hlow := ih _ r hr
        rw [below_below (List.mem_of_mem_take (List.mem_of_getLast? hb))] at hlow
        exact List.mem_of_mem_filter hlow

include hn

omit hasymm in
theorem collect_head (fuel : ℕ) (after : Option K) :
    (collect key query (fuel+1) after).head? = (below key after rows).head? := by
  rw [collect,hquery]
  split
  · rename_i hnone
    rw [List.getLast?_eq_none_iff,List.take_eq_nil_iff] at hnone
    rw [hnone.resolve_left (by omega)]
  · rename_i hb
    have hne : (below key after rows).take n ≠ [] := by
      intro hnil
      rw [hnil] at hb
      cases hb
    rw [List.head?_append_of_ne_nil _ hne,List.head?_take,if_neg (by omega)]

theorem collect_iff (hsorted : rows.Pairwise before) (fuel : ℕ) (after : Option K)
    (hfuel : (below key after rows).length < fuel) :
    collect key query fuel after = below key after rows ↔
      Fits key before n (below key after rows) := by
  induction fuel generalizing after with
  | zero => exact absurd hfuel (Nat.not_lt_zero _)
  | succ fuel ih =>
    have hG : (below key after rows).Pairwise before := hsorted.filter _
    rw [collect,hquery]
    split
    · rename_i hnone
      rw [List.getLast?_eq_none_iff,List.take_eq_nil_iff] at hnone
      rw [hnone.resolve_left (by omega)]
      refine iff_of_true rfl fun c hc => ?_
      obtain ⟨A,C,hnil,-⟩ := hc
      exact absurd hnil (by simp)
    · rename_i b hb
      have hbG := List.mem_of_mem_take (List.mem_of_getLast? hb)
      have hH := below_below hbG
      obtain ⟨A,C,hsplit,hpage,hA,hend⟩ := first_page hb
      rw [hpage]
      rw [hsplit] at hG hH hfuel ⊢
      rw [fits_iff hasymm hG hA hend,← filter_iff hasymm hG,List.append_cons A b C,
        List.append_right_inj,← List.append_cons,← hH]
      have hshort : (below key (some (key b)) rows).length < fuel := by
        rw [hH]
        have hlt : ((A++b::C).filter fun r => key r < key b).length <
            (A++b::C).length :=
          List.length_filter_lt_length_iff_exists.mpr ⟨b,by simp,by simp⟩
        omega
      constructor
      · intro hrest
        have hrestC : below key (some (key b)) rows = C := by
          obtain ⟨fuel,rfl⟩ : ∃ m, fuel = m+1 := ⟨fuel-1,by omega⟩
          have hsub := collect_subset hquery (fuel+1) (some (key b))
          have hhead := collect_head hquery hn fuel (some (key b))
          rw [hrest,hH] at hsub hhead
          exact hH.trans (filter_eq_rest hasymm hG hsub hhead)
        exact ⟨hrestC,hrestC ▸ (ih _ hshort).mp (hrest.trans hrestC.symm)⟩
      · rintro ⟨hrestC,hfits⟩
        exact ((ih _ hshort).mpr (hrestC ▸ hfits)).trans hrestC

end

end NexusAi.Paging
