import NexusAi.Lib.Calendar

/-!
# Zones: a UTC offset with finitely many changes

`utcOffset` is the offset in force at an instant and `foldOffset` the one that
a wall-clock reading is given when, of two candidates, the earlier instant is
meant: a change takes effect on readings only once its whole window, skipped or
repeated, is over. A reading inside a skipped window keeps the old offset and
so denotes an instant whose own reading lies after the window.

A zone requires that the windows of different changes do not overlap, that
offsets stay below a day and that no change falls on the first or last days
that the calendar can represent. Every zone of the tz database does.
-/

namespace NexusAi.Zones
open NexusAi.Calendar

def shift (o : ℤ) : ℤ := 1000000*o

structure Change where
  (instant offset : ℤ)

def utcOffset : ℤ → List Change → ℤ → ℤ
  | b, [], _ => b
  | b, c::cs, u => if c.instant ≤ u then utcOffset c.offset cs u else b

def foldOffset : ℤ → List Change → ℤ → ℤ
  | b, [], _ => b
  | b, c::cs, l =>
    if c.instant+shift (max b c.offset) ≤ l then foldOffset c.offset cs l else b

def wall (b : ℤ) (cs : List Change) (u : ℤ) : ℤ := u+shift (utcOffset b cs u)

def earliest (b : ℤ) (cs : List Change) (l : ℤ) : ℤ := l-shift (foldOffset b cs l)

def InGap : ℤ → List Change → ℤ → Prop
  | _, [], _ => False
  | b, c::cs, l =>
    (c.instant+shift b ≤ l ∧ l < c.instant+shift c.offset) ∨ InGap c.offset cs l

/-- The instant lies in the second pass of readings that a change repeats. -/
def Repeats : ℤ → List Change → ℤ → Prop
  | _, [], _ => False
  | b, c::cs, u =>
    (c.instant ≤ u ∧ u < c.instant+shift (b-c.offset)) ∨ Repeats c.offset cs u

/-- From reading `w` on, each window begins after the one before it ended. -/
def Spaced : ℤ → ℤ → List Change → Prop
  | _, _, [] => True
  | w, b, c::cs => w ≤ c.instant+shift (min b c.offset) ∧
      Spaced (c.instant+shift (max b c.offset)) c.offset cs

def Bounded (b : ℤ) (cs : List Change) : Prop :=
  |b| < 86400 ∧ ∀ c ∈ cs, |c.offset| < 86400

def Interior (cs : List Change) : Prop :=
  ∀ c ∈ cs, 3*day ≤ c.instant ∧ c.instant+3*day ≤ maxDays*day

theorem spaced_nil (b : ℤ) : ∃ w, Spaced w b [] := ⟨0,trivial⟩

theorem bounded_zero : Bounded 0 [] := ⟨by simp,by simp⟩

theorem interior_nil : Interior [] := by simp [Interior]

variable {b u l w : ℤ} {c : Change} {cs : List Change}

theorem bounded_tail (h : Bounded b (c::cs)) : Bounded c.offset cs :=
  ⟨h.2 c (by simp),fun d hd => h.2 d (by simp [hd])⟩

theorem wall_cons_of_le (h : c.instant ≤ u) : wall b (c::cs) u = wall c.offset cs u := by
  simp [wall,utcOffset,h]

theorem wall_cons_of_lt (h : ¬ c.instant ≤ u) : wall b (c::cs) u = u+shift b := by
  simp [wall,utcOffset,h]

theorem earliest_cons_of_le (h : c.instant+shift (max b c.offset) ≤ l) :
    earliest b (c::cs) l = earliest c.offset cs l := by
  simp [earliest,foldOffset,h]

theorem earliest_cons_of_lt (h : ¬ c.instant+shift (max b c.offset) ≤ l) :
    earliest b (c::cs) l = l-shift b := by
  simp [earliest,foldOffset,h]

theorem earliest_wall_of_lt (h : ¬ c.instant ≤ u) :
    earliest b (c::cs) (wall b (c::cs) u) = u := by
  have hl : ¬ c.instant+shift (max b c.offset) ≤ u+shift b := by
    simp only [shift] at *
    omega
  rw [wall_cons_of_lt h,earliest_cons_of_lt hl,add_sub_cancel_right]

theorem foldOffset_bounded (h : Bounded b cs) : |foldOffset b cs l| < 86400 := by
  induction cs generalizing b with
  | nil => exact h.1
  | cons _ _ ih =>
    simp only [foldOffset]
    split_ifs
    · exact ih (bounded_tail h)
    · exact h.1

theorem earliest_after {i : ℤ} (h : Spaced w b cs) (hi : i+shift b ≤ w) (hl : i+shift b ≤ l) :
    i ≤ earliest b cs l := by
  induction cs generalizing w b i with
  | nil =>
    simp only [earliest,foldOffset]
    linarith
  | cons c cs ih =>
    by_cases hc : c.instant+shift (max b c.offset) ≤ l
    · rw [earliest_cons_of_le hc]
      have hm : c.instant ≤ earliest c.offset cs l := by
        apply ih h.2 <;> simp only [shift] at * <;> omega
      have hle : i ≤ c.instant := by
        have := h.1
        simp only [shift] at *
        omega
      exact hle.trans hm
    · rw [earliest_cons_of_lt hc]
      linarith

theorem earliest_past_window (h : Spaced w b (c::cs)) (hc : c.instant+shift (max b c.offset) ≤ l) :
    c.instant ≤ earliest c.offset cs l := by
  apply earliest_after h.2 <;> simp only [shift] at * <;> omega

section

variable (h : Spaced w b cs)

include h

theorem wall_floor (u : ℤ) : min w (u+shift b) ≤ wall b cs u := by
  induction cs generalizing w b with
  | nil => simp [wall,utcOffset]
  | cons c _ ih =>
    by_cases hc : c.instant ≤ u
    · rw [wall_cons_of_le hc]
      have hr := ih h.2
      have hw := h.1
      simp only [shift] at *
      omega
    · rw [wall_cons_of_lt hc]
      exact min_le_right _ _

theorem gap_floor (hg : InGap b cs l) : w ≤ l := by
  induction cs generalizing w b with
  | nil => exact hg.elim
  | cons _ _ ih =>
    have hw := h.1
    rcases hg with _ | hg
    · simp only [shift] at *
      omega
    · have := ih h.2 hg
      simp only [shift] at *
      omega

theorem gap_not_wall (hg : InGap b cs l) (u : ℤ) : wall b cs u ≠ l := by
  induction cs generalizing w b with
  | nil => exact hg.elim
  | cons c _ ih =>
    by_cases hc : c.instant ≤ u
    · rw [wall_cons_of_le hc]
      have hf := wall_floor h.2 u
      rcases hg with _ | hg
      · simp only [shift] at *
        omega
      · exact ih h.2 hg
    · rw [wall_cons_of_lt hc]
      rcases hg with _ | hg
      · simp only [shift] at *
        omega
      · have hb := gap_floor h.2 hg
        simp only [shift] at *
        omega

theorem wall_earliest (l : ℤ) : wall b cs (earliest b cs l) = l ∨ InGap b cs l := by
  induction cs generalizing w b with
  | nil => simp [wall,earliest,utcOffset,foldOffset]
  | cons c _ ih =>
    by_cases hc : c.instant+shift (max b c.offset) ≤ l
    · rw [earliest_cons_of_le hc,wall_cons_of_le (earliest_past_window h hc)]
      exact (ih h.2).imp_right .inr
    · rw [earliest_cons_of_lt hc]
      by_cases hi : c.instant ≤ l-shift b
      · refine .inr (.inl ⟨by linarith,?_⟩)
        simp only [shift] at *
        omega
      · rw [wall_cons_of_lt hi]
        exact .inl (by ring)

theorem earliest_lt {l' : ℤ} (hl : ¬ InGap b cs l) (hlt : l < l') :
    earliest b cs l < earliest b cs l' := by
  induction cs generalizing w b with
  | nil =>
    simp only [earliest,foldOffset]
    linarith
  | cons c _ ih =>
    by_cases hc : c.instant+shift (max b c.offset) ≤ l
    · rw [earliest_cons_of_le hc,earliest_cons_of_le (by linarith)]
      exact ih h.2 (fun g => hl (.inr g))
    · rw [earliest_cons_of_lt hc]
      by_cases hc' : c.instant+shift (max b c.offset) ≤ l'
      · have hi := earliest_past_window h hc'
        rw [earliest_cons_of_le hc']
        by_contra hn
        apply hl
        refine .inl ⟨by linarith,?_⟩
        simp only [shift] at *
        omega
      · rw [earliest_cons_of_lt hc']
        linarith

theorem earliest_le : earliest b cs (wall b cs u) ≤ u := by
  induction cs generalizing w b with
  | nil => simp [wall,earliest,utcOffset,foldOffset]
  | cons c cs ih =>
    by_cases hi : c.instant ≤ u
    · rw [wall_cons_of_le hi]
      by_cases hc : c.instant+shift (max b c.offset) ≤ wall c.offset cs u
      · rw [earliest_cons_of_le hc]
        exact ih h.2
      · rw [earliest_cons_of_lt hc]
        have hf := wall_floor h.2 u
        simp only [shift] at *
        omega
    · exact (earliest_wall_of_lt hi).le

theorem earliest_nonneg_of_le {l' : ℤ} (hi : Interior cs) (hl : 0 ≤ earliest b cs l)
    (hle : l ≤ l') : 0 ≤ earliest b cs l' := by
  induction cs generalizing w b with
  | nil =>
    simp only [earliest,foldOffset] at *
    linarith
  | cons c =>
    by_cases hc : c.instant+shift (max b c.offset) ≤ l'
    · have hp := earliest_past_window h hc
      have hd := (hi c (by simp)).1
      rw [earliest_cons_of_le hc]
      simp only [day] at hd
      linarith
    · have hn : ¬ c.instant+shift (max b c.offset) ≤ l := fun g => hc (g.trans hle)
      rw [earliest_cons_of_lt hn] at hl
      rw [earliest_cons_of_lt hc]
      linarith

theorem gap_earliest (hb : Bounded b cs) (hg : InGap b cs l) :
    ∃ c ∈ cs, c.instant ≤ earliest b cs l ∧ earliest b cs l < c.instant+2*day := by
  induction cs generalizing w b with
  | nil => exact hg.elim
  | cons c _ ih =>
    rcases hg with _ | hg
    · refine ⟨c,by simp,?_⟩
      have h0 := abs_lt.mp hb.1
      have h1 := abs_lt.mp (hb.2 c (by simp))
      have hc : ¬ c.instant+shift (max b c.offset) ≤ l := by
        simp only [shift] at *
        omega
      rw [earliest_cons_of_lt hc]
      simp only [shift,day] at *
      omega
    · obtain ⟨d,hd,hr⟩ := ih h.2 (bounded_tail hb) hg
      refine ⟨d,by simp [hd],?_⟩
      rw [earliest_cons_of_le (gap_floor h.2 hg)]
      exact hr

end

theorem utcOffset_bounded (h : Bounded b cs) : |utcOffset b cs u| < 86400 := by
  induction cs generalizing b with
  | nil => exact h.1
  | cons _ _ ih =>
    simp only [utcOffset]
    split_ifs
    · exact ih (bounded_tail h)
    · exact h.1

theorem wall_before (h : Spaced w b cs) (hu : u+shift b < w) : wall b cs u = u+shift b := by
  cases cs with
  | nil => rfl
  | cons =>
    have hw := h.1
    apply wall_cons_of_lt
    simp only [shift] at *
    omega

theorem repeats_after {i : ℤ} (h : Spaced w b cs) (hi : i+shift b ≤ w) (hr : Repeats b cs u) :
    i ≤ u := by
  induction cs generalizing w b i with
  | nil => exact hr.elim
  | cons c _ ih =>
    have hw := h.1
    have hic : i ≤ c.instant := by
      simp only [shift] at *
      omega
    rcases hr with hr | hr
    · exact hic.trans hr.1
    · have hcu : c.instant ≤ u := by
        apply ih h.2 _ hr
        simp only [shift] at *
        omega
      exact hic.trans hcu

/-- Reading an instant and taking the earlier instant of what it shows leads back to
it except in the second pass of a repeated window. -/
theorem earliest_wall_iff (h : Spaced w b cs) :
    earliest b cs (wall b cs u) = u ↔ ¬ Repeats b cs u := by
  induction cs generalizing w b with
  | nil => simp [wall,earliest,utcOffset,foldOffset,Repeats]
  | cons c cs ih =>
    have hnext : c.instant+shift c.offset ≤ c.instant+shift (max b c.offset) := by
      simp only [shift]
      omega
    by_cases hc : c.instant ≤ u
    · rw [wall_cons_of_le hc]
      by_cases hl : c.instant+shift (max b c.offset) ≤ wall c.offset cs u
      · have hfirst : ¬ u < c.instant+shift (b-c.offset) := by
          intro hu
          rw [wall_before h.2 (by simp only [shift] at *; omega)] at hl
          simp only [shift] at *
          omega
        rw [earliest_cons_of_le hl,ih h.2,Repeats]
        tauto
      · have hf := wall_floor h.2 u
        have hwall : wall c.offset cs u = u+shift c.offset := wall_before h.2 (by omega)
        rw [earliest_cons_of_lt hl]
        rw [hwall] at hl ⊢
        have hu : u < c.instant+shift (b-c.offset) := by
          simp only [shift] at *
          omega
        apply iff_of_false
        · simp only [shift] at *
          omega
        · exact not_not_intro (.inl ⟨hc,hu⟩)
    · apply iff_of_true (earliest_wall_of_lt hc)
      rintro (hr | hr)
      · exact hc hr.1
      · exact hc (repeats_after h.2 hnext hr)

theorem repeats_near (hb : Bounded b cs) (hr : Repeats b cs u) :
    ∃ c ∈ cs, c.instant ≤ u ∧ u < c.instant+2*day := by
  induction cs generalizing b with
  | nil => exact hr.elim
  | cons c _ ih =>
    rcases hr with hr | hr
    · have h0 := abs_lt.mp hb.1
      have h1 := abs_lt.mp (hb.2 c (by simp))
      refine ⟨c,by simp,hr.1,?_⟩
      simp only [shift,day] at *
      omega
    · obtain ⟨d,hd,hnear⟩ := ih (bounded_tail hb) hr
      exact ⟨d,by simp [hd],hnear⟩

/-- The instant of a shown reading stays representable: where it is not the
instant that was read, it lies close to a change. -/
theorem earliest_nonneg (h : Spaced w b cs) (hb : Bounded b cs) (hi : Interior cs) (hu : 0 ≤ u) :
    0 ≤ earliest b cs (wall b cs u) := by
  by_cases hr : Repeats b cs u
  · obtain ⟨c,hc,hcu,-⟩ := repeats_near hb hr
    have hday := (hi c hc).1
    have hoffset := abs_lt.mp (utcOffset_bounded hb (u := u))
    have hfold := abs_lt.mp (foldOffset_bounded hb (l := wall b cs u))
    simp only [earliest,wall,shift,day] at *
    omega
  · rwa [(earliest_wall_iff h).mpr hr]

structure Zone where
  initial : ℤ
  changes : List Change
  spaced : ∃ w, Spaced w initial changes
  bounded : Bounded initial changes
  interior : Interior changes

namespace Zone

variable (z : Zone)

def offsetAt (u : ℤ) : ℤ := Zones.utcOffset z.initial z.changes u
def wall (u : ℤ) : ℤ := Zones.wall z.initial z.changes u
def foldOffset (l : ℤ) : ℤ := Zones.foldOffset z.initial z.changes l
def earliest (l : ℤ) : ℤ := Zones.earliest z.initial z.changes l
def InGap (l : ℤ) : Prop := Zones.InGap z.initial z.changes l
def Repeats (u : ℤ) : Prop := Zones.Repeats z.initial z.changes u

/-- The reading is shown at some instant that the calendar can represent. -/
def Shows (l : ℤ) : Prop := ∃ u, Representable u ∧ z.wall u = l

theorem wall_def (u : ℤ) : z.wall u = u+shift (z.offsetAt u) := rfl

theorem earliest_def (l : ℤ) : z.earliest l = l-shift (z.foldOffset l) := rfl

variable {l : ℤ}

theorem wall_earliest_of_not_gap (h : ¬ z.InGap l) : z.wall (z.earliest l) = l := by
  obtain ⟨w,hs⟩ := z.spaced
  exact (Zones.wall_earliest hs l).resolve_right h

theorem wall_ne_of_gap (h : z.InGap l) (u : ℤ) : z.wall u ≠ l := by
  obtain ⟨w,hs⟩ := z.spaced
  exact gap_not_wall hs h u

theorem earliest_strict {l l' : ℤ} (h : ¬ z.InGap l) (hlt : l < l') :
    z.earliest l < z.earliest l' := by
  obtain ⟨w,hs⟩ := z.spaced
  exact earliest_lt hs h hlt

theorem earliest_wall_le (u : ℤ) : z.earliest (z.wall u) ≤ u := by
  obtain ⟨w,hs⟩ := z.spaced
  exact earliest_le hs

theorem shows_not_gap (h : z.Shows l) : ¬ z.InGap l := by
  obtain ⟨u,_,hu⟩ := h
  exact fun g => z.wall_ne_of_gap g u hu

theorem shows_representable (h : z.Shows l) : Representable (z.earliest l) := by
  obtain ⟨u,hu,rfl⟩ := h
  obtain ⟨w,hs⟩ := z.spaced
  exact ⟨earliest_nonneg hs z.bounded z.interior hu.1,
    (z.earliest_wall_le u).trans_lt hu.2⟩

theorem earliest_nonneg_mono {l l' : ℤ} (h : 0 ≤ z.earliest l) (hle : l ≤ l') :
    0 ≤ z.earliest l' := by
  obtain ⟨w,hs⟩ := z.spaced
  exact earliest_nonneg_of_le hs z.interior h hle

theorem gap_representable (h : z.InGap l) :
    Representable (z.earliest l) ∧ Representable (z.wall (z.earliest l)) := by
  obtain ⟨w,hs⟩ := z.spaced
  obtain ⟨c,hc,_,_⟩ := gap_earliest hs z.bounded h
  have hi := z.interior c hc
  have ho := abs_lt.mp (utcOffset_bounded (u := z.earliest l) z.bounded)
  have hw := z.wall_def (z.earliest l)
  simp only [Representable,offsetAt,earliest,shift,day,maxDays] at *
  omega

theorem foldOffset_lt (l l' : ℤ) : shift (z.foldOffset l-z.foldOffset l') < 2*day := by
  have h := abs_lt.mp (foldOffset_bounded (l := l) z.bounded)
  have h' := abs_lt.mp (foldOffset_bounded (l := l') z.bounded)
  simp only [foldOffset,shift,day] at *
  omega

theorem earliest_wall_eq_iff (u : ℤ) : z.earliest (z.wall u) = u ↔ ¬ z.Repeats u := by
  obtain ⟨w,hs⟩ := z.spaced
  exact earliest_wall_iff hs

theorem repeats_representable {u : ℤ} (h : z.Repeats u) :
    Representable u ∧ Representable (z.wall u) := by
  obtain ⟨c,hc,_,_⟩ := repeats_near z.bounded h
  have hi := z.interior c hc
  have ho := abs_lt.mp (utcOffset_bounded (u := u) z.bounded)
  have hw := z.wall_def u
  simp only [Representable,offsetAt,shift,day,maxDays] at *
  omega

end Zone

def Zone.utc : Zone := ⟨0,[],spaced_nil 0,bounded_zero,interior_nil⟩

def autumnChange : Change := ⟨(⟨2026,11,1⟩ : Date).number*day+6*hour,-18000⟩

theorem autumn_spaced : ∃ w, Spaced w (-14400) [autumnChange] :=
  ⟨0,by simp only [Spaced,and_true]; decide⟩

theorem autumn_bounded : Bounded (-14400) [autumnChange] := by
  simp [Bounded,autumnChange]

theorem autumn_interior : Interior [autumnChange] := by
  simp only [Interior,List.forall_mem_singleton]
  decide

def newYorkAutumn : Zone := ⟨-14400,[autumnChange],autumn_spaced,autumn_bounded,autumn_interior⟩

/-- Half past six UTC on 1 November 2026, the second 01:30 of the day. -/
def secondHalfPastOne : ℤ := (⟨2026,11,1⟩ : Date).number*day+6*hour+30*minute

end NexusAi.Zones
