import NexusAi.Lib.Zones

/-!
# Waiting for a reading of the clock

Readings are inside or outside of some period. Whoever waits at a reading inside
of it, for the reading at which it ends, wants to wait exactly as long as the
clock shows readings inside. `Undisturbed` says what the changes of the zone have
to be for that: none that was made already repeats the end, none that is still
ahead sets the clock back to before the period, and the end is not skipped.
-/

namespace NexusAi.Zones
open NexusAi.Calendar

/-- Waiting from the instant `i` for the reading `l` ends at the first instant outside. -/
structure ExactWait (inside : ℤ → Prop) (l b : ℤ) (cs : List Change) (i : ℤ) : Prop where
  later : i ≤ earliest b cs l
  ends : ¬ inside (wall b cs (earliest b cs l))
  through : ∀ u, i ≤ u → u < earliest b cs l → inside (wall b cs u)

/-- The readings from the instant `i` on are inside up to the one at the instant `t`: those
that the offset shows to the next change, and those that each change goes on with. -/
def Leaves (inside : ℤ → Prop) (t : ℤ) : ℤ → ℤ → List Change → Prop
  | i, b, [] => ¬ inside (t+shift b) ∧ ∀ x, i+shift b ≤ x → x < t+shift b → inside x
  | i, b, c::cs =>
    if t < c.instant then ¬ inside (t+shift b) ∧ ∀ x, i+shift b ≤ x → x < t+shift b → inside x
    else (∀ x, i+shift b ≤ x → x < c.instant+shift b → inside x) ∧
      Leaves inside t c.instant c.offset cs

/-- The changes that are ahead of the period from `s` to `l`. Where the end is skipped,
the clock has to stay inside after the change for as long as the end lay past it. -/
def Ahead (inside : ℤ → Prop) (s l : ℤ) : ℤ → List Change → Prop
  | _, [] => True
  | b, c::cs =>
    if l < c.instant+shift b then True
    else if l < c.instant+shift c.offset then
      Leaves inside (l-shift b) c.instant c.offset cs
    else s ≤ c.instant+shift c.offset ∧ Ahead inside s l c.offset cs

/-- The same with the changes that were made by the instant `i`. -/
def Undisturbed (inside : ℤ → Prop) (s l i : ℤ) : ℤ → List Change → Prop
  | _, [] => True
  | b, c::cs =>
    if c.instant ≤ i then c.instant+shift b ≤ l ∧ Undisturbed inside s l i c.offset cs
    else Ahead inside s l b (c::cs)

/-- A period of readings: the readings from `s` on and before `l` are inside, the ones
next to them are not. -/
structure Period (inside : ℤ → Prop) (s l : ℤ) : Prop where
  within : ∀ x, s ≤ x → x < l → inside x
  before : ¬ inside (s-1)
  after : ¬ inside l

variable {inside : ℤ → Prop} {s l : ℤ} {b j w : ℤ} {cs : List Change}

theorem spaced_next {c : Change} (hsp : Spaced w b (c::cs)) (c' : Change) (rest : List Change)
    (h : cs = c'::rest) : c.instant ≤ c'.instant := by
  subst h
  have hw := hsp.2.1
  simp only [shift] at *
  omega

theorem top_le_iff {c : Change} : c.instant+shift (max b c.offset) ≤ l ↔
    c.instant+shift b ≤ l ∧ c.instant+shift c.offset ≤ l := by
  simp only [shift]
  omega

theorem shifted_iff (i t : ℤ) : (∀ x, i+shift b ≤ x → x < t+shift b → inside x) ↔
    ∀ u, i ≤ u → u < t → inside (u+shift b) := by
  constructor
  · exact fun h u hi ht => h _ (by linarith) (by linarith)
  · intro h x hi ht
    simpa using h (x-shift b) (by linarith) (by linarith)

theorem leaves_iff {t i : ℤ} (hsp : Spaced w b cs) (hi : ∀ c rest, cs = c::rest → i ≤ c.instant) :
    Leaves inside t i b cs ↔
      ¬ inside (wall b cs t) ∧ ∀ u, i ≤ u → u < t → inside (wall b cs u) := by
  induction cs generalizing w b i with
  | nil => exact and_congr_right fun _ => shifted_iff i t
  | cons c cs ih =>
    simp only [Leaves,shifted_iff]
    split_ifs with hlast
    · rw [wall_cons_of_lt hlast.not_ge]
      refine and_congr_right fun _ => forall₃_congr fun u _ hu => ?_
      rw [wall_cons_of_lt (hu.trans hlast).not_ge]
    · rw [ih hsp.2 (spaced_next hsp),wall_cons_of_le (not_lt.mp hlast)]
      constructor
      · rintro ⟨hbefore,hends,hthrough⟩
        refine ⟨hends,fun u hu hut => ?_⟩
        by_cases hc : c.instant ≤ u
        · rw [wall_cons_of_le hc]
          exact hthrough u hc hut
        · rw [wall_cons_of_lt hc]
          exact hbefore u hu (not_le.mp hc)
      · rintro ⟨hends,hthrough⟩
        refine ⟨fun u hu hc => ?_,hends,fun u hc hut => ?_⟩
        · rw [← wall_cons_of_lt hc.not_ge]
          exact hthrough u hu (hc.trans_le (not_lt.mp hlast))
        · rw [← wall_cons_of_le hc]
          exact hthrough u ((hi c cs rfl).trans hc) hut

theorem exactWait_direct (hp : Period inside s l) (hearliest : earliest b cs l = l-shift b)
    (hwall : ∀ u, j ≤ u → u ≤ l-shift b → wall b cs u = u+shift b) (hs : s ≤ j+shift b)
    (hl : j+shift b ≤ l) : ExactWait inside l b cs j := by
  have hj : j ≤ l-shift b := by linarith
  constructor
  · rwa [hearliest]
  · rw [hearliest,hwall _ hj le_rfl,sub_add_cancel]
    exact hp.after
  · intro u hju hu
    rw [hearliest] at hu
    rw [hwall u hju hu.le]
    exact hp.within _ (by linarith) (by linarith)

theorem not_exactWait_back (hp : Period inside s l) {i : ℤ} (hsp : Spaced w b cs)
    (hi : i+shift b < s) (hw : s ≤ w) (hsl : s ≤ l) : ¬ ExactWait inside l b cs i := by
  intro h
  have hu : (s-shift b-1)+shift b < w := by linarith
  have hend : s-shift b ≤ earliest b cs l := earliest_after hsp (by linarith) (by linarith)
  have hin := h.through (s-shift b-1) (by omega) (by omega)
  rw [wall_before hsp hu] at hin
  apply hp.before
  convert hin using 1
  ring

theorem exactWait_cons {c : Change} (hsp : Spaced w b (c::cs))
    (htop : c.instant+shift (max b c.offset) ≤ l)
    (hbefore : ∀ u, j ≤ u → u < c.instant → inside (wall b (c::cs) u)) :
    ExactWait inside l b (c::cs) j ↔ ExactWait inside l c.offset cs (max j c.instant) := by
  have hearliest : earliest b (c::cs) l = earliest c.offset cs l := earliest_cons_of_le htop
  have hpast := earliest_past_window hsp htop
  constructor
  · intro h
    have hlater := h.later
    have hends := h.ends
    rw [hearliest] at hlater
    rw [hearliest,wall_cons_of_le hpast] at hends
    refine ⟨max_le hlater hpast,hends,?_⟩
    intro u hu hlt
    rw [max_le_iff] at hu
    have hin := h.through u hu.1 (by rwa [hearliest])
    rwa [wall_cons_of_le hu.2] at hin
  · intro h
    have hlater := h.later
    have hends := h.ends
    rw [max_le_iff] at hlater
    rw [← wall_cons_of_le hpast,← hearliest] at hends
    refine ⟨hearliest ▸ hlater.1,hends,?_⟩
    intro u hju hlt
    rw [hearliest] at hlt
    by_cases hcu : c.instant ≤ u
    · rw [wall_cons_of_le hcu]
      exact h.through u (max_le hju hcu) hlt
    · exact hbefore u hju (not_le.mp hcu)

theorem ahead_iff (hp : Period inside s l) (hsp : Spaced w b cs)
    (hj : ∀ c rest, cs = c::rest → j ≤ c.instant) (hs : s ≤ j+shift b) (hl : j+shift b ≤ l) :
    ExactWait inside l b cs j ↔ Ahead inside s l b cs := by
  induction cs generalizing w b j with
  | nil =>
    simp only [Ahead,iff_true]
    exact exactWait_direct hp rfl (fun u _ _ => rfl) hs hl
  | cons c cs ih =>
    have hjc := hj c cs rfl
    have hbefore : ∀ u, j ≤ u → u < c.instant → c.instant+shift b ≤ l →
        inside (wall b (c::cs) u) := by
      intro u hju hu hlate
      rw [wall_cons_of_lt (not_le.mpr hu)]
      exact hp.within _ (by linarith) (by linarith)
    simp only [Ahead]
    split_ifs with hfirst hskip
    · -- the end comes before the change
      simp only [iff_true]
      refine exactWait_direct hp
        (earliest_cons_of_lt fun h => (top_le_iff.mp h).1.not_gt hfirst) ?_ hs hl
      intro u _ hu
      exact wall_cons_of_lt (by linarith)
    · -- the change skips the end
      have hearliest : earliest b (c::cs) l = l-shift b :=
        earliest_cons_of_lt fun h => (top_le_iff.mp h).2.not_gt hskip
      have hc : c.instant ≤ l-shift b := by linarith
      rw [leaves_iff hsp.2 (spaced_next hsp)]
      constructor
      · intro h
        have hends := h.ends
        rw [hearliest,wall_cons_of_le hc] at hends
        refine ⟨hends,?_⟩
        intro u hcu hu
        have hin := h.through u (hjc.trans hcu) (by rwa [hearliest])
        rwa [wall_cons_of_le hcu] at hin
      · rintro ⟨_,hthrough⟩
        constructor
        · rw [hearliest]
          exact hjc.trans hc
        · rwa [hearliest,wall_cons_of_le hc]
        · intro u hju hu
          rw [hearliest] at hu
          by_cases hcu : c.instant ≤ u
          · rw [wall_cons_of_le hcu]
            exact hthrough u hcu hu
          · exact hbefore u hju (not_le.mp hcu) (not_lt.mp hfirst)
    · -- the wait goes on after the change
      have htop := top_le_iff.mpr ⟨not_lt.mp hfirst,not_lt.mp hskip⟩
      rw [exactWait_cons hsp htop fun u hju hu => hbefore u hju hu (not_lt.mp hfirst),
        max_eq_right hjc]
      by_cases hback : s ≤ c.instant+shift c.offset
      · rw [ih hsp.2 (spaced_next hsp) hback (not_lt.mp hskip)]
        exact ⟨fun h => ⟨hback,h⟩,And.right⟩
      · have hno := not_exactWait_back hp hsp.2 (i := c.instant) (not_le.mp hback)
          (by simp only [shift] at *; omega) (by linarith)
        exact ⟨fun h => absurd h hno,fun h => absurd h.1 hback⟩

theorem exactWait_iff (hp : Period inside s l) {i : ℤ} (hsp : Spaced w b cs)
    (hs : s ≤ wall b cs i) (hl : wall b cs i ≤ l) :
    ExactWait inside l b cs i ↔ Undisturbed inside s l i b cs := by
  induction cs generalizing w b with
  | nil => exact ahead_iff hp hsp (fun c rest h => by cases h) hs hl
  | cons c cs ih =>
    simp only [Undisturbed]
    split_ifs with hci
    · rw [wall_cons_of_le hci] at hs hl
      have hfloor := wall_floor hsp.2 i
      by_cases hW : c.instant+shift b ≤ l
      · have htop : c.instant+shift (max b c.offset) ≤ l := by
          simp only [shift] at *
          omega
        have hbefore : ∀ u, i ≤ u → u < c.instant → inside (wall b (c::cs) u) :=
          fun u hiu hu => absurd hu (not_lt.mpr (hci.trans hiu))
        rw [exactWait_cons hsp htop hbefore,max_eq_left hci,ih hsp.2 hs hl]
        exact ⟨fun h => ⟨hW,h⟩,And.right⟩
      · -- the end was shown before the change
        constructor
        · intro h
          have hlater := h.later
          rw [earliest_cons_of_lt fun h => hW (top_le_iff.mp h).1] at hlater
          linarith
        · exact fun h => absurd h.1 hW
    · rw [wall_cons_of_lt hci] at hs hl
      apply ahead_iff hp hsp _ hs hl
      rintro _ _ ⟨rfl,rfl⟩
      exact (not_le.mp hci).le

end NexusAi.Zones
