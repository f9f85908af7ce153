import Mathlib.Tactic

/-!
# Tables: rows under a key

A table is a list of rows. Selecting by key reads the first match; an update
by key rewrites every row that carries it and leaves the rest, and their
order, alone.
-/

namespace NexusAi.Table

variable {R K : Type*} [DecidableEq K] (key : R → K)

def find (k : K) (rows : List R) : Option R := rows.find? (fun r => key r = k)

def modify (k : K) (f : R → R) (rows : List R) : List R :=
  rows.map (fun r => if key r = k then f r else r)

def put (row : R) (rows : List R) : List R := modify key (key row) (fun _ => row) rows

def edit (ks : List K) (f : R → R) (rows : List R) : List R :=
  rows.map (fun r => if key r ∈ ks then f r else r)

def Keyed (rows : List R) : Prop := (rows.map key).Nodup

variable {key} {k : K} {rows : List R} {r s row : R} {B : Type*} {g : R → B} {ks : List K}

theorem find_mem (h : find key k rows = some r) : r ∈ rows :=
  List.mem_of_find?_eq_some h

theorem find_key (h : find key k rows = some r) : key r = k := by
  simpa using List.find?_some h

theorem find_none (h : find key k rows = none) (r : R) (hr : r ∈ rows) : key r ≠ k := by
  simpa using List.find?_eq_none.mp h r hr

omit [DecidableEq K] in
theorem mem_unique (hk : Keyed key rows) (hr : r ∈ rows) (hs : s ∈ rows) (h : key r = key s) :
    r = s :=
  List.inj_on_of_nodup_map hk hr hs h

omit [DecidableEq K] in
theorem length_le_one (hk : Keyed key rows) (h : ∀ r ∈ rows, ∀ s ∈ rows, r = s) :
    rows.length ≤ 1 := by
  match rows, hk, h with
  | [], _, _ => simp
  | [r], _, _ => simp
  | r::s::rest, hk, h =>
    have he := h r (by simp) s (by simp)
    simp [Keyed,he] at hk

theorem find_of_mem (hk : Keyed key rows) (hr : r ∈ rows) : find key (key r) rows = some r := by
  cases h : find key (key r) rows with
  | none => exact absurd rfl (find_none h r hr)
  | some => rw [mem_unique hk hr (find_mem h) (find_key h).symm]

theorem filter_key (hk : Keyed key rows) (hr : r ∈ rows) :
    rows.filter (fun s => key s = key r) = [r] := by
  induction rows with
  | nil => cases hr
  | cons s rows ih =>
    simp only [Keyed,List.map_cons,List.nodup_cons] at hk
    rcases List.mem_cons.mp hr with rfl | hr
    · have hrest : rows.filter (fun s => key s = key r) = [] := by
        apply List.filter_eq_nil_iff.mpr
        intro t ht hc
        exact hk.1 (of_decide_eq_true hc ▸ List.mem_map_of_mem ht)
      simp [hrest]
    · have hne : key s ≠ key r := fun he => hk.1 (he ▸ List.mem_map_of_mem hr)
      simp only [hne,decide_false,Bool.false_eq_true,not_false_eq_true,List.filter_cons_of_neg]
      exact ih hk.2 hr

variable {f : R → R}

theorem mem_edit : s ∈ edit key ks f rows ↔
      (∃ r ∈ rows, key r ∈ ks ∧ f r = s) ∨ (s ∈ rows ∧ key s ∉ ks) := by
  simp only [edit,List.mem_map]
  constructor
  · rintro ⟨r,hr,rfl⟩
    by_cases h : key r ∈ ks
    · exact .inl ⟨r,hr,h,by simp [h]⟩
    · exact .inr ⟨by simpa [h] using hr,by simp [h]⟩
  · rintro (⟨r,hr,h,rfl⟩ | ⟨hs,h⟩)
    · exact ⟨r,hr,by simp [h]⟩
    · exact ⟨s,hs,by simp [h]⟩

theorem map_edit (h : ∀ r ∈ rows, key r ∈ ks → g (f r) = g r) :
    (edit key ks f rows).map g = rows.map g := by
  simp only [edit,List.map_map]
  apply List.map_congr_left
  intro r hr
  by_cases hk : key r ∈ ks
  · simp [hk,h r hr hk]
  · simp [hk]

theorem find_edit_of {p : R → Bool} (hp : ∀ r, key r ∈ ks → p (f r) = p r) (rows : List R) :
    (edit key ks f rows).find? p =
      (rows.find? p).map (fun r => if key r ∈ ks then f r else r) := by
  rw [edit,List.find?_map]
  congr 2
  funext r
  by_cases hk : key r ∈ ks
  · simp [hk,hp r hk]
  · simp [hk]

theorem find_edit (hf : ∀ r, key r ∈ ks → key (f r) = key r) (k : K) (rows : List R) :
    find key k (edit key ks f rows) =
      (find key k rows).map (fun r => if k ∈ ks then f r else r) := by
  rw [find,find_edit_of fun r hr => by rw [hf r hr]]
  exact Option.map_congr fun r hr => by rw [find_key hr]

theorem modify_eq_edit (k : K) (f : R → R) (rows : List R) :
    modify key k f rows = edit key [k] f rows := by
  simp only [modify,edit,List.mem_singleton]

theorem mem_modify : s ∈ modify key k f rows ↔
      (∃ r ∈ rows, key r = k ∧ f r = s) ∨ (s ∈ rows ∧ key s ≠ k) := by
  rw [modify_eq_edit,mem_edit]
  simp only [List.mem_singleton]

theorem mem_put : s ∈ put key row rows ↔
      ((∃ r ∈ rows, key r = key row) ∧ s = row) ∨ (s ∈ rows ∧ key s ≠ key row) := by
  rw [put,mem_modify]
  constructor
  · rintro (⟨r,hr,h,rfl⟩ | h)
    · exact .inl ⟨⟨r,hr,h⟩,rfl⟩
    · exact .inr h
  · rintro (⟨⟨r,hr,h⟩,rfl⟩ | h)
    · exact .inl ⟨r,hr,h,rfl⟩
    · exact .inr h

theorem map_modify (hf : ∀ r ∈ rows, key r = k → g (f r) = g r) :
    (modify key k f rows).map g = rows.map g := by
  rw [modify_eq_edit]
  exact map_edit fun r hr hk => hf r hr (List.mem_singleton.mp hk)

theorem keys_put (row : R) (rows : List R) : (put key row rows).map key = rows.map key :=
  map_modify fun _ _ h => h.symm

theorem keyed_put (h : Keyed key rows) : Keyed key (put key row rows) := by
  rw [Keyed,keys_put]
  exact h

omit [DecidableEq K] in
theorem keyed_map (h : Keyed key rows) (hf : ∀ r, key (f r) = key r) : Keyed key (rows.map f) := by
  rw [Keyed,List.map_map]
  exact (List.map_congr_left fun r _ => hf r).symm ▸ h

theorem find_put (k : K) (row : R) (rows : List R) :
    find key k (put key row rows) =
      if key row = k then (find key k rows).map (fun _ => row) else find key k rows := by
  rw [put,modify_eq_edit,find_edit fun r hr => (List.mem_singleton.mp hr).symm]
  simp only [List.mem_singleton,eq_comm]
  split_ifs
  · rfl
  · exact Option.map_id'

theorem find_append (k : K) (row : R) (rows : List R) :
    find key k (rows++[row]) = (find key k rows).or (if key row = k then some row else none) := by
  by_cases h : key row = k <;> simp [find,List.find?_append,h]

theorem filter_put {p : R → Bool} (h : ∀ r ∈ rows, key r = key row → p r = p row) :
    (put key row rows).filter p = put key row (rows.filter p) := by
  induction rows with
  | nil => rfl
  | cons r _ ih =>
    have hrows := ih (fun s hs => h s (List.mem_cons_of_mem r hs))
    simp only [put,modify,List.map_cons] at hrows ⊢
    by_cases hr : key r = key row
    · have hp := h r (List.mem_cons_self ..) hr
      by_cases hrow : p row
      · simp only [hr,if_true,List.filter_cons,hrow,hp,List.map_cons,hrows]
      · simp only [hr,if_true,List.filter_cons,hrow,hp,hrows,Bool.false_eq_true,if_false]
    · by_cases hp : p r
      · simp only [hr,if_false,List.filter_cons,hp,if_true,List.map_cons,hrows]
      · simp only [hr,if_false,List.filter_cons,hp,hrows,Bool.false_eq_true]

theorem put_eq_self (h : ∀ r ∈ rows, key r = key row → row = r) : put key row rows = rows := by
  have hid := map_edit (g := id) fun r hr hk => h r hr (List.mem_singleton.mp hk)
  rwa [List.map_id,List.map_id,← modify_eq_edit] at hid

theorem put_absent (h : ∀ r ∈ rows, key r ≠ key row) : put key row rows = rows :=
  put_eq_self fun r hr he => absurd he (h r hr)

theorem put_self (hk : Keyed key rows) (h : row ∈ rows) : put key row rows = rows :=
  put_eq_self fun _ hr he => mem_unique hk h hr he.symm

theorem map_put {f : R → B} (h : ∀ r ∈ rows, key r = key row → f r = f row) :
    (put key row rows).map f = rows.map f :=
  map_modify fun r hr he => (h r hr he).symm

theorem forall_edit {P : R → Prop} (h : ∀ r ∈ rows, P r)
    (hf : ∀ r ∈ rows, key r ∈ ks → P r → P (f r)) : ∀ r ∈ edit key ks f rows, P r := by
  intro s hs
  rcases mem_edit.mp hs with ⟨r,hr,hk,rfl⟩ | ⟨hs,-⟩
  · exact hf r hr hk (h r hr)
  · exact h s hs

theorem unique_edit (hf : ∀ r ∈ rows, key r ∈ ks → g (f r) = g r) (h : Keyed g rows) :
    Keyed g (edit key ks f rows) := by
  rw [Keyed,map_edit hf]
  exact h

theorem keyed_edit (hf : ∀ r, key r ∈ ks → key (f r) = key r) (h : Keyed key rows) :
    Keyed key (edit key ks f rows) :=
  unique_edit (fun r _ hk => hf r hk) h

omit [DecidableEq K] in
theorem mem_concat (h : s ∈ rows++[row]) : s ∈ rows ∨ s = row :=
  (List.mem_append.mp h).imp_right List.mem_singleton.mp

omit [DecidableEq K] in
theorem keyed_append (h : Keyed key rows) (hnew : ∀ r ∈ rows, key r ≠ key row) :
    Keyed key (rows++[row]) := by
  rw [Keyed,List.map_append,List.nodup_append]
  refine ⟨h,by simp,?_⟩
  intro a ha b hb
  obtain ⟨r,hr,rfl⟩ := List.mem_map.mp ha
  simp only [List.map_cons,List.map_nil,List.mem_singleton] at hb
  exact hb ▸ hnew r hr

variable (key) in
/-- Insert a row, or change the one that stands under its key. -/
def upsert (row : R) (f : R → R) (rows : List R) : List R :=
  if find key (key row) rows = none then rows++[row] else edit key [key row] f rows

theorem find_upsert (hf : ∀ r, key r = key row → key (f r) = key r) (k : K)
    (rows : List R) : find key k (upsert key row f rows) =
      if k = key row then some (((find key k rows).map f).getD row) else find key k rows := by
  have hf' : ∀ r, key r ∈ [key row] → key (f r) = key r := fun r hr => hf r (by simpa using hr)
  unfold upsert
  by_cases hk : k = key row
  · subst hk
    rw [if_pos rfl]
    split_ifs with h
    · simp [find_append,h]
    · obtain ⟨r,hr⟩ := Option.ne_none_iff_exists'.mp h
      simp [find_edit hf',hr]
  · have hk' : key row ≠ k := fun h => hk h.symm
    rw [if_neg hk]
    split_ifs with h
    · simp [find_append,hk']
    · simp [find_edit hf',hk]

end NexusAi.Table
