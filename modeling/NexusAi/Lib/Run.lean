import Mathlib.Tactic

/-!
# Runs of a state machine with total steps

A step that is refused leaves the state where it was, so a run is a fold over
the attempted actions and every prefix of a run is a run. Invariants are
proved for one step and lifted here, once, together with the variant in which
each step first has to meet a condition on the state it finds.
-/

namespace NexusAi.Run

variable {S A : Type*} (step : S → A → S)

def exec : List A → S → S
  | [], s => s
  | a::as, s => exec as (step s a)

/-- Every step of the run meets `ok` in the state it is taken from. -/
def Conforms (ok : S → A → Prop) : List A → S → Prop
  | [], _ => True
  | a::as, s => ok s a ∧ Conforms ok as (step s a)

instance decidableConforms (ok : S → A → Prop) [∀ s a, Decidable (ok s a)] :
    (as : List A) → (s : S) → Decidable (Conforms step ok as s)
  | [], _ => isTrue trivial
  | a::as, s =>
    haveI := decidableConforms ok as (step s a)
    inferInstanceAs (Decidable (ok s a ∧ Conforms step ok as (step s a)))

theorem exec_append (as bs : List A) (s : S) :
    exec step (as++bs) s = exec step bs (exec step as s) := by
  induction as generalizing s with
  | nil => rfl
  | cons _ _ ih => exact ih _

theorem conforms_mono (ok ok' : S → A → Prop) (inv : S → Prop)
    (hstep : ∀ s a, inv s → inv (step s a)) (himp : ∀ s a, inv s → ok s a → ok' s a)
    (as : List A) (s : S) (hs : inv s) (h : Conforms step ok as s) : Conforms step ok' as s := by
  induction as generalizing s with
  | nil => trivial
  | cons a _ ih => exact ⟨himp s a hs h.1,ih _ (hstep s a hs) h.2⟩

theorem conforms_append (ok : S → A → Prop) (as bs : List A) (s : S) :
    Conforms step ok (as++bs) s ↔ Conforms step ok as s ∧ Conforms step ok bs (exec step as s) := by
  induction as generalizing s with
  | nil => simp [Conforms,exec]
  | cons _ _ ih => simp [Conforms,exec,ih,and_assoc]

theorem conforms_of_forall (ok : A → Prop) (as : List A) (s : S) (h : ∀ a ∈ as, ok a) :
    Conforms step (fun _ a => ok a) as s := by
  induction as generalizing s with
  | nil => trivial
  | cons a _ ih =>
    exact ⟨h a List.mem_cons_self,ih _ fun b hb => h b (List.mem_cons_of_mem a hb)⟩

theorem conforms_and (ok ok' : S → A → Prop) (as : List A) (s : S) (h : Conforms step ok as s)
    (h' : Conforms step ok' as s) : Conforms step (fun s a => ok s a ∧ ok' s a) as s := by
  induction as generalizing s with
  | nil => trivial
  | cons _ _ ih => exact ⟨⟨h.1,h'.1⟩,ih _ h.2 h'.2⟩

theorem exec_conforming (ok : S → A → Prop) (inv : S → Prop)
    (hstep : ∀ s a, ok s a → inv s → inv (step s a))
    (as : List A) (s : S) (hok : Conforms step ok as s) (hs : inv s) :
    inv (exec step as s) := by
  induction as generalizing s with
  | nil => exact hs
  | cons a _ ih => exact ih _ hok.2 (hstep s a hok.1 hs)

theorem exec_invariant (inv : S → Prop) (hstep : ∀ s a, inv s → inv (step s a))
    (as : List A) (s : S) (hs : inv s) : inv (exec step as s) := by
  induction as generalizing s with
  | nil => exact hs
  | cons a _ ih => exact ih _ (hstep s a hs)

theorem exec_related (inv : S → Prop) (R : S → S → Prop)
    (hstep : ∀ s a, inv s → inv (step s a)) (hrefl : ∀ s, R s s)
    (htrans : ∀ s t u, R s t → R t u → R s u) (hR : ∀ s a, inv s → R s (step s a))
    (as : List A) (s : S) (hs : inv s) : R s (exec step as s) := by
  induction as generalizing s with
  | nil => exact hrefl s
  | cons a _ ih => exact htrans _ _ _ (hR s a hs) (ih _ (hstep s a hs))

end NexusAi.Run
