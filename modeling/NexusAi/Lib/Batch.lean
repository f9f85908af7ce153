import Mathlib.Tactic

/-!
# Batches

A batch is a list of items that are worked through in order. Next to it stands
the list of the outcomes so far.
-/

namespace NexusAi.Batch

variable {A B : Type*}

/-- Every item that has an outcome stands in the relation to it. -/
def Each (P : A → B → Prop) (items : List A) (done : List B) : Prop :=
  ∀ (n : ℕ) a b, items[n]? = some a → done[n]? = some b → P a b

variable {P Q : A → B → Prop} {items : List A} {done : List B}

theorem each_nil : Each P items [] := by
  intro n a b _ hb
  cases hb

theorem Each.mono (h : Each P items done) (hPQ : ∀ a b, P a b → Q a b) : Each Q items done :=
  fun n a b ha hb => hPQ a b (h n a b ha hb)

variable {batches : List A} {a : A} {j : ℕ}

theorem concat_cases {b : A} (h : (batches++[a])[j]? = some b) :
    j = batches.length ∧ b = a ∨ batches[j]? = some b := by
  rcases Nat.lt_trichotomy j batches.length with hlt | rfl | _
  · rw [List.getElem?_append_left hlt] at h
    exact .inr h
  · rw [List.getElem?_concat_length] at h
    exact .inl ⟨rfl,(Option.some.inj h).symm⟩
  · have hlen := (List.getElem?_eq_some_iff.mp h).1
    rw [List.length_append,List.length_singleton] at hlen
    omega

theorem Each.concat (h : Each P items done) {b : B} (ha : items[done.length]? = some a)
    (hab : P a b) : Each P items (done++[b]) := by
  intro n a' b' ha' hb'
  rcases concat_cases hb' with ⟨rfl,rfl⟩ | hb'
  · rw [ha] at ha'
    rw [← Option.some.inj ha']
    exact hab
  · exact h n a' b' ha' hb'

theorem Each.of_mem (h : Each P items done) (hlength : done.length = items.length)
    (ha : a ∈ items) : ∃ b ∈ done, P a b := by
  obtain ⟨n,hn⟩ := List.getElem?_of_mem ha
  have hlt : n < done.length := hlength ▸ (List.getElem?_eq_some_iff.mp hn).1
  exact ⟨done.get ⟨n,hlt⟩,List.get_mem done ⟨n,hlt⟩,h n a _ hn (List.getElem?_eq_getElem hlt)⟩

variable {i : ℕ} {f : A → A}

theorem modify_cases {b : A} (h : (batches.modify i f)[j]? = some b) :
    (∃ a, batches[j]? = some a ∧ i = j ∧ b = f a) ∨ i ≠ j ∧ batches[j]? = some b := by
  rw [List.getElem?_modify] at h
  obtain ⟨a,ha,rfl⟩ := Option.map_eq_some_iff.mp h
  by_cases hij : i = j
  · exact .inl ⟨a,ha,hij,by rw [if_pos hij]⟩
  · exact .inr ⟨hij,by rw [if_neg hij]; exact ha⟩

/-- What was at the modified place is known. -/
theorem modified {b : A} (hi : batches[i]? = some a)
    (h : (batches.modify i f)[j]? = some b) : j = i ∧ b = f a ∨ i ≠ j ∧ batches[j]? = some b := by
  rcases modify_cases h with ⟨c,hc,rfl,rfl⟩ | h
  · rw [hi] at hc
    cases hc
    exact .inl ⟨rfl,rfl⟩
  · exact .inr h

theorem modify_at (hi : batches[i]? = some a) (f : A → A) (j : ℕ) :
    (batches.modify i f)[j]? = if j = i then some (f a) else batches[j]? := by
  rw [List.getElem?_modify]
  by_cases hj : j = i
  · rw [if_pos hj,hj,hi]
    simp
  · rw [if_neg hj]
    simp [Ne.symm hj]

theorem forall_concat {P : ℕ → A → Prop} (hnew : P batches.length a)
    (h : ∀ j b, batches[j]? = some b → P j b) : ∀ j b, (batches++[a])[j]? = some b → P j b := by
  intro j b hb
  rcases concat_cases hb with ⟨rfl,rfl⟩ | hb
  · exact hnew
  · exact h j b hb

theorem forall_modify {P : ℕ → A → Prop} (hi : batches[i]? = some a)
    (hnew : P i (f a)) (h : ∀ j b, batches[j]? = some b → P j b) :
    ∀ j b, (batches.modify i f)[j]? = some b → P j b := by
  intro j b hb
  rcases modified hi hb with ⟨rfl,rfl⟩ | ⟨-,hb⟩
  · exact hnew
  · exact h j b hb

theorem modify_concat (batches : List A) (a : A) (f : A → A) :
    (batches++[a]).modify batches.length f = batches++[f a] := by
  induction batches with
  | nil => rfl
  | cons _ _ ih =>
    rw [List.cons_append,List.length_cons,List.modify_succ_cons,ih,List.cons_append]

theorem mem_modify {b : A} (hj : batches[j]? = some a) (hb : b ∈ batches.modify j f) :
    b = f a ∨ b ∈ batches := by
  obtain ⟨k,hk⟩ := List.getElem?_of_mem hb
  rcases modified hj hk with ⟨-,hb⟩ | ⟨-,hc⟩
  · exact .inl hb
  · exact .inr (List.mem_of_getElem? hc)

theorem forall_mem_modify {P : A → Prop} (hj : batches[j]? = some a) (hnew : P (f a))
    (h : ∀ b ∈ batches, P b) : ∀ b ∈ batches.modify j f, P b := by
  intro b hb
  rcases mem_modify hj hb with rfl | hold
  · exact hnew
  · exact h b hold

end NexusAi.Batch
