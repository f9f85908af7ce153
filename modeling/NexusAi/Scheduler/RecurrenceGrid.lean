import NexusAi.Scheduler.Recurrence

/-!
# The slots of a recurrence against its wall-clock grid

`slotAt` follows `nextSlot` from the first slot on and `gridAt` follows
`advance` alone. A slot is emitted exactly if its instant exceeds the instants
of all earlier grid points, so a reading inside a skipped window can displace
a later reading that exists: its own instant is that of a reading as far past
the window as it lies past the window's beginning.
-/

namespace NexusAi.Scheduler
open NexusAi.Checked NexusAi.Calendar NexusAi.Zones

section

variable (startAt : ℤ) (z : Zone) (r : RecurrenceSpec)

def slotAt : ℕ → Result TemporalSlot
  | 0 => firstSlot startAt z (some r)
  | k+1 => do
    let s ← slotAt k
    nextSlot s.intendedLocalTime s.scheduledFor z r

def gridAt : ℕ → Result ℤ
  | 0 => do
    let s ← firstSlot startAt z (some r)
    pure s.intendedLocalTime
  | n+1 => do
    let l ← gridAt n
    advance l r

/-- Every grid reading that the zone shows is emitted once, at its earlier
instant, and only readings in a skipped window are marked nonexistent. -/
def KeepsEveryReading : Prop :=
  (∀ n l, gridAt startAt z r n = .ok l → z.Shows l →
    ∃ k s, slotAt startAt z r k = .ok s ∧ s.intendedLocalTime = l ∧ s.nonexistent = false ∧
      s.scheduledFor = z.earliest l ∧
      ∀ k' s', slotAt startAt z r k' = .ok s' → s'.intendedLocalTime = l → k' = k) ∧
  ∀ k s, slotAt startAt z r k = .ok s → s.nonexistent → z.InGap s.intendedLocalTime

/-- The offset gained since a skipped grid reading is less than the wall-clock
distance to any later grid reading that the zone shows. -/
def SkippedReadingsClear : Prop :=
  ∀ m n l l', m < n → gridAt startAt z r m = .ok l → gridAt startAt z r n = .ok l' →
    z.InGap l → z.Shows l' → shift (z.foldOffset l'-z.foldOffset l) < l'-l

end

variable {startAt : ℤ} {z : Zone} {r : RecurrenceSpec} {s : TemporalSlot} {k : ℕ} {l : ℤ}

theorem slotAt_emitted (h : firstSlot startAt z (some r) = .ok s) (k : ℕ) :
    slotAt startAt z r k = (slotWalk z r).emitted maxSearchSteps s k := by
  induction k with
  | zero => exact h
  | succ _ ih =>
    rw [slotAt,ih]
    rfl

theorem gridAt_reach (h : firstSlot startAt z (some r) = .ok s) (n : ℕ) :
    gridAt startAt z r n = (slotWalk z r).reach n s.intendedLocalTime := by
  induction n with
  | zero =>
    rw [gridAt,h]
    rfl
  | succ n ih =>
    rw [gridAt,ih,Walk.reach_add]
    cases (slotWalk z r).reach n s.intendedLocalTime with
    | error => rfl
    | ok l =>
      change advance l r = (advance l r >>= fun l' => .ok l')
      cases advance l r <;> rfl

theorem slotAt_first (h : slotAt startAt z r k = .ok s) :
    ∃ s0, firstSlot startAt z (some r) = .ok s0 := by
  induction k generalizing s with
  | zero => exact ⟨s,h⟩
  | succ _ ih =>
    simp only [slotAt,bind_ok] at h
    obtain ⟨t,ht,-⟩ := h
    exact ih ht

theorem gridAt_first {n : ℕ} (h : gridAt startAt z r n = .ok l) :
    ∃ s0, firstSlot startAt z (some r) = .ok s0 := by
  induction n generalizing l with
  | zero =>
    simp only [gridAt,bind_ok] at h
    exact ⟨_,h.choose_spec.1⟩
  | succ _ ih =>
    simp only [gridAt,bind_ok] at h
    obtain ⟨k,hk,-⟩ := h
    exact ih hk

variable {m n : ℕ}

theorem gridAt_le (h : gridAt startAt z r n = .ok l) (hm : m ≤ n) :
    ∃ k, gridAt startAt z r m = .ok k ∧ k+(n-m : ℕ)*minute ≤ l := by
  obtain ⟨s,hs⟩ := gridAt_first h
  rw [gridAt_reach hs] at h
  obtain ⟨k,hk,hr⟩ := Walk.reach_le h hm
  rw [gridAt_reach hs]
  exact ⟨k,hk,reach_add_le hr⟩

theorem gridAt_lt {l' : ℤ} (h : gridAt startAt z r m = .ok l)
    (h' : gridAt startAt z r n = .ok l') (hmn : m < n) : l < l' := by
  obtain ⟨k,hk,hle⟩ := gridAt_le h' hmn.le
  rw [h,Except.ok.injEq] at hk
  subst hk
  simp only [minute] at hle
  have : (1:ℤ) ≤ (n-m : ℕ) := by omega
  linarith

theorem gridAt_injective (h : gridAt startAt z r m = .ok l)
    (h' : gridAt startAt z r n = .ok l) : m = n := by
  rcases lt_trichotomy m n with hlt | heq | hlt
  · exact absurd (gridAt_lt h h' hlt) (lt_irrefl l)
  · exact heq
  · exact absurd (gridAt_lt h' h hlt) (lt_irrefl l)

theorem at_iff {t : TemporalSlot} (h : firstSlot startAt z (some r) = .ok s) {n : ℕ} :
    (slotWalk z r).At s n l t ↔ gridAt startAt z r n = .ok l ∧ resolveLocal l z = .ok t := by
  rw [gridAt_reach h]
  rfl

/-- Offsets differ by less than two days, so grid points that far apart are in
UTC order and the search horizon is never the obstacle. -/
theorem slotWalk_settles (h : firstSlot startAt z (some r) = .ok s) :
    (slotWalk z r).Settles s maxSearchSteps := by
  intro m d l t l' t' hd hl hl'
  rw [at_iff h] at hl hl'
  obtain ⟨hg,ht⟩ := hl
  obtain ⟨hg',ht'⟩ := hl'
  obtain ⟨-,-,rfl⟩ := resolveLocal_ok.mp ht
  obtain ⟨-,-,rfl⟩ := resolveLocal_ok.mp ht'
  obtain ⟨k,hk,_⟩ := gridAt_le hg' (Nat.le_add_right m d)
  rw [hg,Except.ok.injEq] at hk
  subst hk
  have hlt := z.foldOffset_lt l' l
  change z.earliest l < z.earliest l'
  simp only [Zone.earliest_def,shift,day,minute,maxSearchSteps,Nat.add_sub_cancel_left] at *
  have : (525600:ℤ) ≤ (d:ℤ) := by exact_mod_cast hd
  linarith

theorem slotAt_after_skipped (hs : slotAt startAt z r k = .ok s)
    (hn : gridAt startAt z r n = .ok s.intendedLocalTime) (hmn : m < n)
    (hm : gridAt startAt z r m = .ok l) (hg : z.InGap l) : z.earliest l < s.scheduledFor := by
  obtain ⟨_,h0⟩ := slotAt_first hs
  rw [slotAt_emitted h0] at hs
  obtain ⟨_,⟨l',hat⟩,hrec⟩ := Walk.emitted_record (firstSlot_ok h0) hs
  obtain ⟨hn',ht⟩ := (at_iff h0).mp hat
  have hp : s.intendedLocalTime = l' := (slotWalk z r).place_resolve l' s ht
  rw [hp] at hn
  obtain rfl := gridAt_injective hn hn'
  have hres := resolveLocal_ok.mpr ⟨(z.gap_representable hg).1,(z.gap_representable hg).2,rfl⟩
  exact hrec m hmn l (slotOf z l) ((at_iff h0).mpr ⟨hm,hres⟩)

theorem resolves_before_shown {l' : ℤ} (hm : gridAt startAt z r m = .ok l)
    (hn : gridAt startAt z r n = .ok l') (hmn : m ≤ n) (hs : z.Shows l') :
    resolveLocal l z = .ok (slotOf z l) := by
  obtain ⟨s0,h0⟩ := gridAt_first hm
  by_cases hg : z.InGap l
  · exact resolveLocal_ok.mpr ⟨(z.gap_representable hg).1,(z.gap_representable hg).2,rfl⟩
  · have hfirst := resolveLocal_ok.mp (firstSlot_ok h0)
    have h0g : gridAt startAt z r 0 = .ok s0.intendedLocalTime := by
      rw [gridAt,h0]
      rfl
    rcases Nat.eq_zero_or_pos m with rfl | hpos
    · rw [h0g,Except.ok.injEq] at hm
      subst hm
      exact resolveLocal_ok.mpr ⟨hfirst.1,hfirst.2.1,rfl⟩
    · have hle : z.earliest l ≤ z.earliest l' := by
        rcases hmn.lt_or_eq with hlt | rfl
        · exact (z.earliest_strict hg (gridAt_lt hm hn hlt)).le
        · rw [hm,Except.ok.injEq] at hn
          rw [hn]
      have hnn := z.earliest_nonneg_mono hfirst.1.1 (gridAt_lt h0g hm hpos).le
      have hr : Representable l := by
        obtain ⟨m,rfl⟩ : ∃ i, m = i+1 := ⟨m-1,by omega⟩
        simp only [gridAt,bind_ok] at hm
        exact (advance_ok hm.choose_spec.2).2
      refine resolveLocal_ok.mpr ⟨⟨hnn,hle.trans_lt (z.shows_representable hs).2⟩,?_,rfl⟩
      rw [z.wall_earliest_of_not_gap hg]
      exact hr

theorem shown_emitted (hc : SkippedReadingsClear startAt z r) {n : ℕ}
    (hn : gridAt startAt z r n = .ok l) (hs : z.Shows l) :
    ∃ k, slotAt startAt z r k = .ok (slotOf z l) := by
  obtain ⟨s0,h0⟩ := gridAt_first hn
  have hrec : (slotWalk z r).Record s0 n (slotOf z l) := by
    refine ⟨⟨l,(at_iff h0).mpr ⟨hn,resolves_before_shown hn hn le_rfl hs⟩⟩,?_⟩
    intro m hm k u hu
    obtain ⟨hk,hres⟩ := (at_iff h0).mp hu
    obtain ⟨-,-,rfl⟩ := resolveLocal_ok.mp hres
    change z.earliest k < z.earliest l
    by_cases hg : z.InGap k
    · have := hc m n k l hm hk hn hg hs
      simp only [Zone.earliest_def,shift] at *
      linarith
    · exact z.earliest_strict hg (gridAt_lt hk hn hm)
  have hres : (slotWalk z r).Resolved s0 n := by
    intro m hm
    obtain ⟨k,hk,-⟩ := gridAt_le hn hm
    exact ⟨k,slotOf z k,(at_iff h0).mpr ⟨hk,resolves_before_shown hk hn hm hs⟩⟩
  obtain ⟨k,hk⟩ := Walk.record_emitted (firstSlot_ok h0) hrec hres (slotWalk_settles h0)
  exact ⟨k,(slotAt_emitted h0 k).trans hk⟩

section

variable (h : slotAt startAt z r k = .ok s)

include h

theorem slotAt_resolved : resolveLocal s.intendedLocalTime z = .ok s := by
  cases k with
  | zero => exact firstSlot_ok h
  | succ =>
    simp only [slotAt,bind_ok] at h
    obtain ⟨t,-,h⟩ := h
    exact (nextSlot_ok h).2.2

theorem slotAt_unique {k' : ℕ} {s' : TemporalSlot} (h' : slotAt startAt z r k' = .ok s')
    (hl : s.intendedLocalTime = s'.intendedLocalTime) : k = k' := by
  obtain ⟨-,-,hs⟩ := resolveLocal_ok.mp (slotAt_resolved h)
  obtain ⟨-,-,hs'⟩ := resolveLocal_ok.mp (slotAt_resolved h')
  rw [hl,hs'] at hs
  subst hs
  obtain ⟨_,h0⟩ := slotAt_first h
  rw [slotAt_emitted h0] at h h'
  by_contra hne
  rcases Nat.lt_or_gt_of_ne hne with _ | _
  · rw [show k' = k+(k'-k-1+1) by omega] at h'
    exact absurd (Walk.emitted_rank_lt h h') (lt_irrefl _)
  · rw [show k = k'+(k-k'-1+1) by omega] at h
    exact absurd (Walk.emitted_rank_lt h' h) (lt_irrefl _)

theorem nonexistent_in_gap (hn : s.nonexistent) : z.InGap s.intendedLocalTime := by
  obtain ⟨-,-,hs⟩ := resolveLocal_ok.mp (slotAt_resolved h)
  by_contra hg
  rw [← hs] at hn
  simp [slotOf,z.wall_earliest_of_not_gap hg] at hn

end

/-- A recurrence keeps every reading exactly if no skipped reading of its grid
reaches, with the offset before the window, as far as a later shown one. -/
theorem keepsEveryReading_iff (startAt : ℤ) (z : Zone) (r : RecurrenceSpec) :
    KeepsEveryReading startAt z r ↔ SkippedReadingsClear startAt z r := by
  constructor
  · rintro ⟨hkeep,-⟩ m n l l' hmn hm hn hg hs
    obtain ⟨k,s,hk,rfl,-,hat,-⟩ := hkeep n l' hn hs
    have hlt := slotAt_after_skipped hk hn hmn hm hg
    rw [hat] at hlt
    simp only [Zone.earliest_def,shift] at *
    linarith
  · intro hc
    refine ⟨?_,fun k s => nonexistent_in_gap⟩
    intro n l hn hs
    obtain ⟨k,hk⟩ := shown_emitted hc hn hs
    refine ⟨k,slotOf z l,hk,rfl,?_,rfl,?_⟩
    · simp [slotOf,z.wall_earliest_of_not_gap (z.shows_not_gap hs)]
    · intro k' s' hk' hl
      exact slotAt_unique hk' hk hl

def newYork : Zone where
  initial := -18000
  changes := [⟨(⟨2026,3,8⟩ : Date).number*day+7*hour,-14400⟩]
  spaced := ⟨0,by simp only [Spaced,and_true]; decide⟩
  bounded := by simp [Bounded]
  interior := by simp only [Interior,List.forall_mem_singleton]; decide

theorem hourly_bounds : 1 ≤ 1 ∧ 1 ≤ 10000 := by decide

theorem hourly_weekdays : ∀ d ∈ ([] : List ℤ), 0 ≤ d ∧ d ≤ 6 := by simp

theorem hourly_monthDays : ∀ d ∈ ([] : List ℤ), 1 ≤ d ∧ d ≤ 31 := by simp

def hourly : RecurrenceSpec where
  frequency := .hourly
  interval := 1
  weekdays := []
  monthDays := []
  localTime := none
  intervalBounds := hourly_bounds
  weekdayBounds := hourly_weekdays
  monthDayBounds := hourly_monthDays
  accepted := rfl

/-- Hourly at half past through the night of 8 March 2026: 02:30 is skipped and
resolves to 07:30 UTC, which is 03:30 on the new offset, so that 03:30 is never
emitted. -/
theorem hourly_loses_reading :
    ¬ KeepsEveryReading ((⟨2026,3,8⟩ : Date).number*day+6*hour+30*minute) newYork hourly := by
  rintro ⟨hkeep,-⟩
  have hshown : newYork.Shows ((⟨2026,3,8⟩ : Date).number*day+3*hour+30*minute) :=
    ⟨(⟨2026,3,8⟩ : Date).number*day+7*hour+30*minute,by decide,by decide⟩
  obtain ⟨k,s,hk,hl,-,hat,-⟩ := hkeep 2 _ (by decide +kernel) hshown
  have hskip := slotAt_after_skipped (m := 1) (n := 2)
    (l := (⟨2026,3,8⟩ : Date).number*day+2*hour+30*minute) hk (by rw [hl]; decide +kernel)
    (by decide) (by decide +kernel) (.inl (by decide))
  rw [hat] at hskip
  exact absurd hskip (by decide)

end NexusAi.Scheduler
