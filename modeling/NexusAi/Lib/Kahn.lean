import Mathlib.Tactic
import Mathlib.Data.List.Sort

/-!
# Topological ordering by counting open dependencies

Keys without open dependencies wait in a sorted queue. Taking one releases its
children, and a child joins the queue when its count reaches zero. A key whose
dependencies lie on a cycle is never released, so the keys are ordered
completely exactly if no key depends on itself through others. The least key in
the queue is taken first, which makes the order the least one there is.
-/

namespace NexusAi.Kahn

structure State (α : Type*) where
  indegree : α → ℤ
  (ready ordered : List α)

variable {α : Type*} [LinearOrder α]

def sorted (ks : List α) : List α := ks.insertionSort (· ≤ ·)

section Algorithm

variable (keys : List α) (deps : α → List α)

/-- The keys that name `key` as a dependency, once for each time they do. -/
def children (key : α) : List α := keys.flatMap fun k => List.replicate ((deps k).count key) k

def start : State α where
  indegree k := (deps k).length
  ready := sorted (keys.filter fun k => (deps k).length = 0)
  ordered := []

def release (s : State α) (child : α) : State α where
  indegree := Function.update s.indegree child (s.indegree child-1)
  ready := if s.indegree child-1 = 0 then sorted (s.ready++[child]) else s.ready
  ordered := s.ordered

def visit (s : State α) (key : α) (rest : List α) : State α :=
  (sorted (children keys deps key)).foldl release ⟨s.indegree,rest,s.ordered++[key]⟩

def loop : ℕ → State α → State α
  | 0, s => s
  | n+1, s =>
    match s.ready with
    | [] => s
    | key::rest => loop n (visit keys deps s key rest)

/-- No key is taken twice, so as many rounds as there are keys are enough. -/
def order : List α := (loop keys deps keys.length (start keys deps)).ordered

end Algorithm

def Layered (deps : α → List α) (ks : List α) : Prop :=
  ∀ as k bs, ks = as++k::bs → ∀ d ∈ deps k, d ∈ as

/-- What holds while the children in `pending` are still to be released. -/
structure Sound (keys : List α) (deps : α → List α) (s : State α) (pending : List α) : Prop where
  degree : ∀ k ∈ keys,
    s.indegree k = (deps k).countP (fun d => d ∉ s.ordered)+pending.count k
  ready : ∀ k ∈ s.ready, k ∈ keys ∧ s.indegree k = 0 ∧ k ∉ s.ordered
  readyNodup : s.ready.Nodup
  taken : ∀ k ∈ s.ordered, k ∈ keys ∧ s.indegree k = 0
  takenNodup : s.ordered.Nodup
  layered : Layered deps s.ordered

variable {keys : List α} {deps : α → List α} {ks pending : List α} {k key child : α} {s : State α}

theorem mem_sorted : k ∈ sorted ks ↔ k ∈ ks :=
  List.mem_insertionSort _

theorem perm_sorted (ks : List α) : (sorted ks).Perm ks := List.perm_insertionSort _ ks

omit [LinearOrder α] in
theorem layered_snoc (h : Layered deps ks) (hk : ∀ d ∈ deps key, d ∈ ks) :
    Layered deps (ks++[key]) := by
  intro as k bs he
  rcases List.eq_nil_or_concat bs with rfl | ⟨bs,b,rfl⟩
  · obtain ⟨rfl,he⟩ := List.append_inj' he rfl
    obtain rfl : key = k := by simpa using he
    exact hk
  · rw [List.concat_eq_append,← List.cons_append,← List.append_assoc] at he
    exact h as k bs (List.append_inj' he rfl).1

theorem count_children (hkeys : keys.Nodup) (key : α) (hk : k ∈ keys) :
    (children keys deps key).count k = (deps k).count key := by
  unfold children
  induction keys with
  | nil => cases hk
  | cons x keys ih =>
    rw [List.nodup_cons] at hkeys
    rw [List.flatMap_cons,List.count_append,List.count_replicate]
    rcases List.mem_cons.mp hk with rfl | hk
    · have hout : (keys.flatMap fun x => List.replicate ((deps x).count key) x).count k = 0 := by
        apply List.count_eq_zero.mpr
        simp only [List.mem_flatMap,List.mem_replicate,not_exists,not_and]
        rintro x hx - rfl
        exact hkeys.1 hx
      simp [hout]
    · have hne : ¬ x = k := fun he => hkeys.1 (he ▸ hk)
      simp [hne,ih hkeys.2 hk]

theorem mem_children (h : k ∈ children keys deps key) : k ∈ keys := by
  simp only [children,List.mem_flatMap,List.mem_replicate] at h
  obtain ⟨x,hx,-,rfl⟩ := h
  exact hx

theorem sound_start (deps : α → List α) (hkeys : keys.Nodup) :
    Sound keys deps (start keys deps) [] := by
  constructor
  · intro k _
    simp [start]
  · intro k hk
    have hm := List.mem_filter.mp (mem_sorted.mp hk)
    refine ⟨hm.1,?_,by simp [start]⟩
    simpa [start] using hm.2
  · exact (perm_sorted _).nodup_iff.mpr (hkeys.filter _)
  · simp [start]
  · exact List.nodup_nil
  · intro as k bs he
    simp [start] at he

theorem indegree_release (s : State α) (child k : α) :
    (release s child).indegree k = if k = child then s.indegree child-1 else s.indegree k :=
  Function.update_apply ..

theorem ready_release (h : k ∈ (release s child).ready) :
    k ∈ s.ready ∨ k = child ∧ s.indegree child-1 = 0 := by
  simp only [release] at h
  split_ifs at h with h0
  · rw [mem_sorted,List.mem_append,List.mem_singleton] at h
    exact h.imp_right fun he => ⟨he,h0⟩
  · exact .inl h

theorem waiting_child (h : Sound keys deps s (child::pending)) (hc : child ∈ keys) :
    child ∉ s.ready ∧ child ∉ s.ordered := by
  have hdeg := h.degree child hc
  rw [List.count_cons_self] at hdeg
  push_cast at hdeg
  constructor
  · intro hr
    have := (h.ready child hr).2.1
    omega
  · intro ht
    have := (h.taken child ht).2
    omega

theorem sound_release (h : Sound keys deps s (child::pending)) (hc : child ∈ keys) :
    Sound keys deps (release s child) pending := by
  obtain ⟨hready,htaken⟩ := waiting_child h hc
  have hdegree := indegree_release s child
  have hordered : (release s child).ordered = s.ordered := rfl
  constructor
  · intro k hk
    rw [hdegree,hordered]
    have hd := h.degree k hk
    by_cases he : k = child
    · subst he
      rw [List.count_cons_self] at hd
      push_cast at hd
      rw [if_pos rfl]
      omega
    · rw [List.count_cons_of_ne (Ne.symm he)] at hd
      rw [if_neg he]
      exact hd
  · intro k hk
    rw [hdegree]
    rcases ready_release hk with hk | ⟨rfl,h0⟩
    · have hne : k ≠ child := fun he => hready (he ▸ hk)
      rw [if_neg hne]
      exact h.ready k hk
    · rw [if_pos rfl]
      exact ⟨hc,h0,htaken⟩
  · simp only [release]
    split_ifs
    · refine (perm_sorted _).nodup_iff.mpr (h.readyNodup.append (List.nodup_singleton _) ?_)
      exact List.disjoint_singleton.mpr hready
    · exact h.readyNodup
  · intro k hk
    have hne : k ≠ child := fun he => htaken (he ▸ hk)
    rw [hdegree,if_neg hne]
    exact h.taken k hk
  · exact h.takenNodup
  · exact h.layered

theorem sound_releases (h : Sound keys deps s pending) (hc : ∀ c ∈ pending, c ∈ keys) :
    Sound keys deps (pending.foldl release s) [] := by
  induction pending generalizing s with
  | nil => exact h
  | cons c _ ih =>
    exact ih (sound_release h (hc c (by simp))) (fun d hd => hc d (by simp [hd]))

theorem countP_snoc (ds ks : List α) (hk : key ∉ ks) : ds.countP (fun d => d ∉ ks) =
      ds.countP (fun d => d ∉ ks++[key])+ds.count key := by
  induction ds with
  | nil => rfl
  | cons d _ ih =>
    simp only [List.countP_cons,List.count_cons,ih]
    by_cases hd : d = key
    · subst hd
      simp [hk]
      omega
    · by_cases hm : d ∈ ks <;> simp [hd,hm]
      omega

theorem Sound.zero_iff (h : Sound keys deps s []) (hk : k ∈ keys) :
    s.indegree k = 0 ↔ ∀ d ∈ deps k, d ∈ s.ordered := by
  rw [h.degree k hk]
  simp [List.countP_eq_zero]

theorem sound_visit (hkeys : keys.Nodup) {rest : List α} (h : Sound keys deps s [])
    (hready : s.ready = key::rest) : Sound keys deps (visit keys deps s key rest) [] := by
  obtain ⟨hkey,hzero,hout⟩ := h.ready key (by simp [hready])
  have hnodup := h.readyNodup
  rw [hready,List.nodup_cons] at hnodup
  apply sound_releases
  · constructor
    · intro k hk
      have hcount := (perm_sorted (children keys deps key)).count_eq k
      rw [count_children hkeys key hk] at hcount
      rw [hcount]
      have hd := h.degree k hk
      rw [countP_snoc _ _ hout] at hd
      simpa using hd
    · intro k hk
      obtain ⟨hm,hz,ho⟩ := h.ready k (by simp [hready,hk])
      refine ⟨hm,hz,?_⟩
      simp only [List.mem_append,List.mem_singleton,not_or]
      exact ⟨ho,fun he => hnodup.1 (he ▸ hk)⟩
    · exact hnodup.2
    · intro k hk
      rcases List.mem_append.mp hk with hk | hk
      · exact h.taken k hk
      · rw [List.mem_singleton.mp hk]
        exact ⟨hkey,hzero⟩
    · exact h.takenNodup.append (List.nodup_singleton _) (List.disjoint_singleton.mpr hout)
    · exact layered_snoc h.layered ((h.zero_iff hkey).mp hzero)
  · exact fun c hc => mem_children (mem_sorted.mp hc)

theorem sound_loop (hkeys : keys.Nodup) (n : ℕ) (h : Sound keys deps s []) :
    Sound keys deps (loop keys deps n s) [] := by
  induction n generalizing s with
  | zero => exact h
  | succ _ ih =>
    unfold loop
    split
    · exact h
    · rename_i hready
      exact ih (sound_visit hkeys h hready)

theorem order_sound (deps : α → List α) (hkeys : keys.Nodup) :
    (order keys deps).Nodup ∧ order keys deps ⊆ keys ∧ Layered deps (order keys deps) := by
  have h := sound_loop hkeys keys.length (sound_start deps hkeys)
  exact ⟨h.takenNodup,fun k hk => (h.taken k hk).1,h.layered⟩

theorem order_perm (hkeys : keys.Nodup) (h : (order keys deps).length = keys.length) :
    (order keys deps).Perm keys := by
  obtain ⟨hnodup,hsub,-⟩ := order_sound deps hkeys
  exact (hnodup.subperm hsub).perm_of_length_le h.ge

theorem order_rank (hkeys : keys.Nodup) (h : (order keys deps).length = keys.length) {d : α}
    (hk : k ∈ keys) (hd : d ∈ deps k) : (order keys deps).idxOf d < (order keys deps).idxOf k := by
  obtain ⟨hnodup,-,hlayered⟩ := order_sound deps hkeys
  obtain ⟨as,bs,he⟩ := List.append_of_mem ((order_perm hkeys h).mem_iff.mpr hk)
  have hda := hlayered as k bs he d hd
  rw [he] at hnodup ⊢
  have hka : k ∉ as := fun hka => List.disjoint_of_nodup_append hnodup hka (by simp)
  rw [List.idxOf_append_of_mem hda,List.idxOf_append_of_notMem hka,List.idxOf_cons_self]
  exact (List.idxOf_lt_length_of_mem hda).trans_le (Nat.le_add_right _ _)

def Acyclic (keys : List α) (deps : α → List α) : Prop :=
  ∀ k, ¬ Relation.TransGen (fun d k => k ∈ keys ∧ d ∈ deps k) k k

theorem order_acyclic (hkeys : keys.Nodup) (h : (order keys deps).length = keys.length) :
    Acyclic keys deps := by
  have hrank : ∀ d k, Relation.TransGen (fun d k => k ∈ keys ∧ d ∈ deps k) d k →
      (order keys deps).idxOf d < (order keys deps).idxOf k := by
    intro d k hdk
    induction hdk with
    | single hd => exact order_rank hkeys h hd.1 hd.2
    | tail _ hd ih => exact ih.trans (order_rank hkeys h hd.1 hd.2)
  exact fun k hk => lt_irrefl _ (hrank k k hk)

/-- At the first place where they differ, the first list has the smaller entry. -/
def Precedes (ks ks' : List α) : Prop :=
  ∃ as a bs b bs', ks = as++a::bs ∧ ks' = as++b::bs' ∧ a < b

/-- Every open key waits in the sorted queue, and no layered arrangement of the keys
begins below what was taken. -/
structure Greedy (keys : List α) (deps : α → List α) (s : State α) : Prop where
  waits : ∀ k ∈ keys, s.indegree k = 0 → k ∉ s.ordered → k ∈ s.ready
  queue : s.ready.Pairwise (· ≤ ·)
  least : ∀ ks, ks.Perm keys → Layered deps ks → s.ordered <+: ks ∨ Precedes s.ordered ks

theorem greedy_start : Greedy keys deps (start keys deps) := by
  constructor
  · intro k hk hzero _
    apply mem_sorted.mpr
    simp only [List.mem_filter,decide_eq_true_eq]
    exact ⟨hk,by simpa [start] using hzero⟩
  · exact List.pairwise_insertionSort _ _
  · exact fun ks _ _ => .inl (List.nil_prefix)

theorem greedy_release (child : α) (h : Greedy keys deps s) :
    Greedy keys deps (release s child) := by
  constructor
  · intro k hk hzero hout
    rw [indegree_release] at hzero
    simp only [release]
    by_cases hc : k = child
    · rw [if_pos hc] at hzero
      rw [if_pos hzero]
      exact mem_sorted.mpr (by simp [hc])
    · rw [if_neg hc] at hzero
      have hm := h.waits k hk hzero hout
      split_ifs
      · exact mem_sorted.mpr (List.mem_append_left _ hm)
      · exact hm
  · simp only [release]
    split_ifs
    · exact List.pairwise_insertionSort _ _
    · exact h.queue
  · exact h.least

theorem greedy_releases (cs : List α) (h : Greedy keys deps s) :
    Greedy keys deps (cs.foldl release s) := by
  induction cs generalizing s with
  | nil => exact h
  | cons c _ ih => exact ih (greedy_release c h)

theorem greedy_visit (hkeys : keys.Nodup) {rest : List α} (h : Sound keys deps s [])
    (hg : Greedy keys deps s) (hready : s.ready = key::rest) :
    Greedy keys deps (visit keys deps s key rest) := by
  obtain ⟨hkey,-,hout⟩ := h.ready key (by simp [hready])
  have hqueue := hg.queue
  rw [hready,List.pairwise_cons] at hqueue
  apply greedy_releases
  constructor
  · intro k hk hzero hfree
    simp only [List.mem_append,List.mem_singleton,not_or] at hfree
    have hm := hg.waits k hk hzero hfree.1
    rw [hready,List.mem_cons] at hm
    exact hm.resolve_left hfree.2
  · exact hqueue.2
  · intro ks hperm hl
    rcases hg.least ks hperm hl with ⟨later,rfl⟩ | ⟨as,a,bs,b,bs',he,hks,hab⟩
    · -- the arrangement agrees so far: its next key is open, so it is not below the least one
      cases later with
      | nil =>
        rw [List.append_nil] at hperm
        exact absurd (hperm.mem_iff.mpr hkey) hout
      | cons b later =>
        have hb : b ∈ keys := hperm.mem_iff.mp (by simp)
        have hzero := (h.zero_iff hb).mpr (hl s.ordered b later rfl)
        have hfree : b ∉ s.ordered := fun hm =>
          List.disjoint_of_nodup_append (hperm.nodup_iff.mpr hkeys) hm (by simp)
        have hm := hg.waits b hb hzero hfree
        rw [hready,List.mem_cons] at hm
        rcases hm with rfl | hm
        · exact .inl ⟨later,by simp⟩
        · rcases (hqueue.1 b hm).eq_or_lt with rfl | hlt
          · exact .inl ⟨later,by simp⟩
          · exact .inr ⟨s.ordered,key,[],b,later,rfl,rfl,hlt⟩
    · exact .inr ⟨as,a,bs++[key],b,bs',by simp [he],hks,hab⟩

theorem ordered_visit (s : State α) (key : α) (rest : List α) :
    (visit keys deps s key rest).ordered = s.ordered++[key] := by
  have hkept : ∀ (cs : List α) (s : State α), (cs.foldl release s).ordered = s.ordered := by
    intro cs
    induction cs with
    | nil => exact fun _ => rfl
    | cons c _ ih => exact fun s => ih (release s c)
  exact hkept _ _

theorem greedy_loop (hkeys : keys.Nodup) (n : ℕ) (h : Sound keys deps s [])
    (hg : Greedy keys deps s) : Greedy keys deps (loop keys deps n s) ∧
      ((loop keys deps n s).ready = [] ∨
        (loop keys deps n s).ordered.length = s.ordered.length+n) := by
  induction n generalizing s with
  | zero => exact ⟨hg,.inr rfl⟩
  | succ _ ih =>
    unfold loop
    split
    · rename_i hready
      exact ⟨hg,.inl hready⟩
    · rename_i hready
      obtain ⟨hg',hend⟩ := ih (sound_visit hkeys h hready) (greedy_visit hkeys h hg hready)
      refine ⟨hg',hend.imp_right ?_⟩
      rw [ordered_visit,List.length_append,List.length_singleton]
      omega

theorem taken_of_acyclic (h : Sound keys deps s []) (hg : Greedy keys deps s)
    (hempty : s.ready = []) (hknown : ∀ k ∈ keys, deps k ⊆ keys) (hac : Acyclic keys deps) :
    keys ⊆ s.ordered := by
  let below (a b : {k // k ∈ keys}) : Prop :=
    Relation.TransGen (fun d k => k ∈ keys ∧ d ∈ deps k) a.1 b.1
  have : Finite {k // k ∈ keys} := keys.finite_toSet.to_subtype
  have : IsTrans _ below := ⟨fun _ _ _ hab hbc => hab.trans hbc⟩
  have : Std.Irrefl below := ⟨fun a => hac a.1⟩
  have hwf := Finite.wellFounded_of_trans_of_irrefl below
  have hall : ∀ a : {k // k ∈ keys}, a.1 ∈ s.ordered := by
    intro a
    induction a using hwf.induction with
    | _ a ih =>
      by_contra hout
      have hzero := (h.zero_iff a.2).mpr fun d hd => ih ⟨d,hknown a.1 a.2 hd⟩ (.single ⟨a.2,hd⟩)
      have hm := hg.waits a.1 a.2 hzero hout
      rw [hempty] at hm
      cases hm
  exact fun k hk => hall ⟨k,hk⟩

theorem order_complete (hkeys : keys.Nodup) (hknown : ∀ k ∈ keys, deps k ⊆ keys)
    (hac : Acyclic keys deps) : (order keys deps).length = keys.length := by
  have hs := sound_loop hkeys keys.length (sound_start deps hkeys)
  obtain ⟨hg,hend⟩ := greedy_loop hkeys keys.length (sound_start deps hkeys) greedy_start
  rcases hend with hempty | hlen
  · have hall := taken_of_acyclic hs hg hempty hknown hac
    have hsub : order keys deps ⊆ keys := fun k hk => (hs.taken k hk).1
    exact le_antisymm (hs.takenNodup.subperm hsub).length_le (hkeys.subperm hall).length_le
  · rw [order,hlen]
    simp [start]

theorem order_least (hkeys : keys.Nodup) (h : (order keys deps).length = keys.length)
    (hperm : ks.Perm keys) (hl : Layered deps ks) :
    order keys deps = ks ∨ Precedes (order keys deps) ks := by
  obtain ⟨hg,-⟩ := greedy_loop hkeys keys.length (sound_start deps hkeys) greedy_start
  exact (hg.least ks hperm hl).imp_left fun hp => hp.eq_of_length (h.trans hperm.length_eq.symm)

end NexusAi.Kahn
