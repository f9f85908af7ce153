import NexusAi.Scheduler.Recurrence

/-!
# What the recurrence walk enumerates

`Intended` says which readings a recurrence means when its periods are counted
from the period of a given anchor. One advance finds the least of them that lies
after its value, and counting anew from what it finds selects the same readings,
so the walk lists all of them in order.
-/

namespace NexusAi.Scheduler
open NexusAi.Checked NexusAi.Calendar NexusAi.Zones

/-- A reading with the time of the anchor, in a period whose distance from that of
the anchor is a multiple of the interval, on a day that the selector names. -/
def Intended (r : RecurrenceSpec) (anchor l : ℤ) : Prop :=
  match r.frequency with
  | .minutely => l%minute = anchor%minute ∧ (l/minute-anchor/minute)%r.interval = 0
  | .hourly => l%hour = anchor%hour ∧ (l/hour-anchor/hour)%r.interval = 0
  | .daily => timeOfDay l = timeOfDay anchor ∧ (dayNumber l-dayNumber anchor)%r.interval = 0
  | .weekly => timeOfDay l = timeOfDay anchor ∧ weekday (dayNumber l) ∈ r.weekdays ∧
      (dayNumber l/7-dayNumber anchor/7)%r.interval = 0
  | .monthly => timeOfDay l = timeOfDay anchor ∧ (dateOf (dayNumber l)).day ∈ r.monthDays ∧
      (monthIndex (dayNumber l)-monthIndex (dayNumber anchor))%r.interval = 0

variable {r : RecurrenceSpec}

theorem interval_pos (r : RecurrenceSpec) : (1:ℤ) ≤ r.interval := by
  exact_mod_cast r.intervalBounds.1

variable {x a v c : ℤ}

theorem sub_emod_shift {y z k : ℤ} (h : (y-x)%k = 0) : (z-y)%k = 0 ↔ (z-x)%k = 0 := by
  rw [← sub_add_sub_cancel z y x,← Int.dvd_iff_emod_eq_zero,← Int.dvd_iff_emod_eq_zero]
  exact (dvd_add_left (Int.dvd_of_emod_eq_zero h)).symm

theorem Intended.reanchor {l : ℤ} (h : Intended r a v) : Intended r v l ↔ Intended r a l := by
  unfold Intended at *
  cases hf : r.frequency <;> rw [hf] at h <;> dsimp only at h ⊢
  · rw [h.1,sub_emod_shift h.2]
  · rw [h.1,sub_emod_shift h.2]
  · rw [h.1,sub_emod_shift h.2]
  · rw [h.1,sub_emod_shift h.2.2]
  · rw [h.1,sub_emod_shift h.2.2]

def Least (r : RecurrenceSpec) (v c : ℤ) : Prop :=
  v < c ∧ Intended r v c ∧ ∀ x, v < x → Intended r v x → c ≤ x

section Steps

variable {v c i : ℤ}

theorem fixed_least {p k : ℤ} (hp : 0 < p) (hk : 1 ≤ k) :
    v < v+k*p ∧ ((v+k*p)%p = v%p ∧ ((v+k*p)/p-v/p)%k = 0) ∧
      ∀ x, v < x → x%p = v%p ∧ (x/p-v/p)%k = 0 → v+k*p ≤ x := by
  have hdiv : (v+k*p)/p = v/p+k := Int.add_mul_ediv_right v k hp.ne'
  refine ⟨?_,⟨Int.add_mul_emod_self_right v k p,?_⟩,?_⟩
  · nlinarith
  · rw [hdiv,add_sub_cancel_left,Int.emod_self]
  · rintro x hlt ⟨hmod,hk0⟩
    have hx := Int.mul_ediv_add_emod x p
    have hv := Int.mul_ediv_add_emod v p
    have hgt : v/p < x/p := by
      by_contra hle
      have := mul_le_mul_of_nonneg_left (not_lt.mp hle) hp.le
      omega
    obtain ⟨j,hj⟩ := Int.dvd_of_emod_eq_zero hk0
    have hj1 : 1 ≤ j := by
      by_contra hlt'
      have : k*j ≤ 0 := by nlinarith
      omega
    have hkj : k ≤ x/p-v/p := by
      rw [hj]
      nlinarith
    have := mul_le_mul_of_nonneg_left hkj hp.le
    nlinarith

theorem same_time {x : ℤ} (h : timeOfDay x = timeOfDay v) :
    x = v+(dayNumber x-dayNumber v)*day := by
  have hx := Int.mul_ediv_add_emod x day
  have hv := Int.mul_ediv_add_emod v day
  simp only [timeOfDay,dayNumber] at *
  rw [h] at hx
  linarith

theorem dayNumber_add (v k : ℤ) : dayNumber (v+k*day) = dayNumber v+k :=
  Int.add_mul_ediv_right v k (by decide)

theorem timeOfDay_add (v k : ℤ) : timeOfDay (v+k*day) = timeOfDay v :=
  Int.add_mul_emod_self_right v k day

theorem weeklySearch_least {w : ℤ} {n : ℕ} (h : weeklySearch r w n v = .ok c) :
    ∃ k : ℤ, 1 ≤ k ∧ c = v+k*day ∧
      (weekday (dayNumber v+k) ∈ r.weekdays ∧
        ((dayNumber v+k-weekday (dayNumber v+k)-w)/7)%r.interval = 0) ∧
      ∀ j, 1 ≤ j → j < k → ¬ (weekday (dayNumber v+j) ∈ r.weekdays ∧
        ((dayNumber v+j-weekday (dayNumber v+j)-w)/7)%r.interval = 0) := by
  induction n generalizing v with
  | zero => simp [weeklySearch] at h
  | succ _ ih =>
    simp only [weeklySearch,bind_ok,inRange_ok] at h
    obtain ⟨_,⟨_,rfl⟩,h⟩ := h
    have hnext : dayNumber (v+day) = dayNumber v+1 := by
      have := dayNumber_add v 1
      rwa [one_mul] at this
    rw [hnext] at h
    split_ifs at h with hs
    · rw [pure_ok] at h
      refine ⟨1,le_refl 1,by rw [one_mul]; exact h.symm,hs,?_⟩
      intro j hj hlt
      omega
    · obtain ⟨k,_,hc,hsel,hmin⟩ := ih h
      rw [hnext] at hsel hmin
      refine ⟨k+1,by omega,?_,?_,?_⟩
      · rw [hc]
        ring
      · rw [show dayNumber v+(k+1) = dayNumber v+1+k by ring]
        exact hsel
      · intro j hj hlt
        by_cases hone : j = 1
        · rw [hone]
          exact hs
        · have := hmin (j-1) (by omega) (by omega)
          rwa [show dayNumber v+1+(j-1) = dayNumber v+j by ring] at this

theorem week_index (n w : ℤ) : (n-weekday n-(w-weekday w))/7 = n/7-w/7 := by
  unfold weekday
  omega

/-- Whether a day of a month lies in it and its reading after the value. -/
def Offers (v i d : ℤ) : Prop :=
  d ≤ monthLength i ∧ v < (monthStart i+(d-1))*day+timeOfDay v

theorem monthlyDays_some {ds : List ℤ} (hs : ds.Pairwise (· ≤ ·))
    (h : monthlyDays v (i/12) (i%12+1) ds = .ok (some c)) :
    ∃ d ∈ ds, Offers v i d ∧ c = (monthStart i+(d-1))*day+timeOfDay v ∧
      ∀ e ∈ ds, Offers v i e → d ≤ e := by
  induction ds with
  | nil => simp [monthlyDays] at h
  | cons d ds ih =>
    rw [List.pairwise_cons] at hs
    -- a day that is passed over offers nothing, so the rest decides
    have skip (hno : ¬ Offers v i d)
        (hrest : monthlyDays v (i/12) (i%12+1) ds = .ok (some c)) :
        ∃ d' ∈ d::ds, Offers v i d' ∧ c = (monthStart i+(d'-1))*day+timeOfDay v ∧
          ∀ e ∈ d::ds, Offers v i e → d' ≤ e := by
      obtain ⟨d',hmem,hoff,hc,hmin⟩ := ih hs.2 hrest
      refine ⟨d',List.mem_cons_of_mem d hmem,hoff,hc,?_⟩
      intro e he hoffe
      rcases List.mem_cons.mp he with rfl | he
      · exact absurd hoffe hno
      · exact hmin e he hoffe
    simp only [monthlyDays] at h
    split_ifs at h with hd
    · simp only [bind_ok,replaceDate,require_ok,pure_ok,number_month] at h
      obtain ⟨_,⟨_,_,rfl⟩,h⟩ := h
      split_ifs at h with hgt
      · simp only [pure_ok,Option.some.injEq] at h
        refine ⟨d,List.mem_cons_self,⟨hd,hgt⟩,h.symm,?_⟩
        intro e he _
        rcases List.mem_cons.mp he with rfl | he
        · exact le_refl e
        · exact hs.1 e he
      · exact skip (fun hoff => hgt hoff.2) h
    · exact skip (fun hoff => hd hoff.1) h

theorem monthlyDays_none {ds : List ℤ} (h : monthlyDays v (i/12) (i%12+1) ds = .ok none) :
    ∀ d ∈ ds, ¬ Offers v i d := by
  induction ds with
  | nil => simp
  | cons _ _ ih =>
    simp only [monthlyDays] at h
    intro e he
    split_ifs at h with hd
    · simp only [bind_ok,replaceDate,require_ok,pure_ok,number_month] at h
      obtain ⟨_,⟨_,_,rfl⟩,h⟩ := h
      split_ifs at h with hgt
      · simp at h
      · rcases List.mem_cons.mp he with rfl | he
        · exact fun hoff => hgt hoff.2
        · exact ih h e he
    · rcases List.mem_cons.mp he with rfl | he
      · exact fun hoff => hd hoff.1
      · exact ih h e he

/-- The first reading that a month of the phase offers, from some offset on. -/
def FirstOffer (r : RecurrenceSpec) (v i o c : ℤ) : Prop :=
  ∃ k, o ≤ k ∧ k%r.interval = 0 ∧
    (∃ d ∈ r.monthDays, Offers v (i+k) d ∧ c = (monthStart (i+k)+(d-1))*day+timeOfDay v ∧
      ∀ e ∈ r.monthDays, Offers v (i+k) e → d ≤ e) ∧
    ∀ j, o ≤ j → j < k → j%r.interval = 0 → ∀ e ∈ r.monthDays, ¬ Offers v (i+j) e

theorem FirstOffer.earlier {o : ℤ} (h : FirstOffer r v i (o+1) c)
    (hhere : o%r.interval = 0 → ∀ e ∈ r.monthDays, ¬ Offers v (i+o) e) : FirstOffer r v i o c := by
  obtain ⟨k,_,hphase,hfound,hnone⟩ := h
  refine ⟨k,by omega,hphase,hfound,?_⟩
  intro j hj hjk hjphase
  by_cases hjo : j = o
  · rw [hjo] at hjphase ⊢
    exact hhere hjphase
  · exact hnone j (by omega) hjk hjphase

theorem monthlySearch_least {n : ℕ} {o : ℤ} (h : monthlySearch r v i n o = .ok c) :
    FirstOffer r v i o c := by
  induction n generalizing o with
  | zero => simp [monthlySearch] at h
  | succ _ ih =>
    simp only [monthlySearch] at h
    split_ifs at h with hs
    · exact (ih h).earlier fun hzero => absurd hzero hs.2
    · have hphase : o%r.interval = 0 := by
        by_contra hne
        refine hs ⟨?_,hne⟩
        rintro rfl
        exact hne (Int.zero_emod _)
      simp only [bind_ok] at h
      obtain ⟨found,hf,h⟩ := h
      cases found with
      | none =>
        apply (ih h).earlier
        intro _ e he
        exact monthlyDays_none hf e ((List.mem_insertionSort _).mpr he)
      | some =>
        rw [pure_ok] at h
        subst h
        obtain ⟨e,he,hoff,hc,hmin⟩ :=
          monthlyDays_some (r.monthDays.pairwise_insertionSort (· ≤ ·)) hf
        refine ⟨o,le_refl o,hphase,⟨e,(List.mem_insertionSort _).mp he,hoff,hc,?_⟩,?_⟩
        · intro e' he' hoff'
          exact hmin e' ((List.mem_insertionSort _).mpr he') hoff'
        · intro j hj hjo
          omega

end Steps

theorem weekly_least (hf : r.frequency = .weekly)
    (h : weeklySearch r (dayNumber v-weekday (dayNumber v)) (366*5) v = .ok c) : Least r v c := by
  obtain ⟨k,_,rfl,hsel,hmin⟩ := weeklySearch_least h
  simp only [week_index] at hsel hmin
  have hday : (0:ℤ) < day := by decide
  refine ⟨?_,?_,?_⟩
  · nlinarith
  · unfold Intended
    rw [hf]
    dsimp only
    rw [dayNumber_add]
    exact ⟨timeOfDay_add v k,hsel⟩
  · intro x hlt hx
    unfold Intended at hx
    rw [hf] at hx
    obtain ⟨htime,hx⟩ := hx
    have heq := same_time htime
    obtain ⟨j,hj⟩ : ∃ j, j = dayNumber x-dayNumber v := ⟨_,rfl⟩
    rw [← hj] at heq
    rw [show dayNumber x = dayNumber v+j by omega] at hx
    have hj1 : 1 ≤ j := by
      by_contra hle
      have : j*day ≤ 0 := by nlinarith
      omega
    by_contra hc
    apply hmin j hj1 _ hx
    by_contra hle
    have := mul_le_mul_of_nonneg_right (not_lt.mp hle) hday.le
    omega

theorem month_reading (h : timeOfDay x = timeOfDay v) :
    x = (monthStart (monthIndex (dayNumber x))+((dateOf (dayNumber x)).day-1))*day+timeOfDay v := by
  have hspec := (monthIndex_spec (dayNumber x)).2.2
  have hx := Int.mul_ediv_add_emod x day
  rw [← hspec,← h]
  simp only [dayNumber,timeOfDay]
  linarith

theorem monthly_least (hf : r.frequency = .monthly)
    (h : monthlySearch r v (monthIndex (dayNumber v)) (12*5+1) 0 = .ok c) : Least r v c := by
  obtain ⟨k,_,hphase,⟨d,hd,⟨hlen,hgt⟩,rfl,hmin⟩,hnone⟩ := monthlySearch_least h
  have hday : (0:ℤ) < day := by decide
  have htod : 0 ≤ timeOfDay v ∧ timeOfDay v < day :=
    ⟨Int.emod_nonneg v hday.ne',Int.emod_lt_of_pos v hday⟩
  have hd1 := (r.monthDayBounds d hd).1
  refine ⟨hgt,?_,?_⟩
  · have hnum : dayNumber ((monthStart (monthIndex (dayNumber v)+k)+(d-1))*day+timeOfDay v) =
        monthStart (monthIndex (dayNumber v)+k)+(d-1) := by
      unfold dayNumber
      rw [add_comm,Int.add_mul_ediv_right _ _ hday.ne',Int.ediv_eq_zero_of_lt htod.1 htod.2,
        zero_add]
    have htime : timeOfDay ((monthStart (monthIndex (dayNumber v)+k)+(d-1))*day+timeOfDay v) =
        timeOfDay v := by
      unfold timeOfDay
      rw [add_comm,Int.add_mul_emod_self_right,Int.emod_emod_of_dvd _ dvd_rfl]
    obtain ⟨hindex,hdate⟩ := dateOf_month hd1 hlen
    unfold Intended
    rw [hf]
    dsimp only
    rw [hnum,hindex,hdate,add_sub_cancel_left]
    exact ⟨htime,hd,hphase⟩
  · intro x hlt hx
    unfold Intended at hx
    rw [hf] at hx
    obtain ⟨htime,hxd,hxphase⟩ := hx
    have hread := month_reading htime
    have hspec := monthIndex_spec (dayNumber x)
    have hle : monthIndex (dayNumber v) ≤ monthIndex (dayNumber x) :=
      monthIndex_mono (Int.ediv_le_ediv hday hlt.le)
    obtain ⟨j,hj⟩ : ∃ j, monthIndex (dayNumber x) = monthIndex (dayNumber v)+j :=
      ⟨monthIndex (dayNumber x)-monthIndex (dayNumber v),by ring⟩
    rw [hj] at hread hspec hxphase
    rw [add_sub_cancel_left] at hxphase
    have hoff : Offers v (monthIndex (dayNumber v)+j) (dateOf (dayNumber x)).day :=
      ⟨by omega,by rwa [← hread]⟩
    have hjk : k ≤ j := by
      by_contra hjlt
      exact hnone j (by omega) (not_le.mp hjlt) hxphase _ hxd hoff
    rw [hread]
    have hdays : monthStart (monthIndex (dayNumber v)+k)+(d-1) ≤
        monthStart (monthIndex (dayNumber v)+j)+((dateOf (dayNumber x)).day-1) := by
      by_cases heq : j = k
      · rw [heq] at hoff ⊢
        have := hmin _ hxd hoff
        omega
      · have := monthStart_lt (i := monthIndex (dayNumber v)+k) (j := monthIndex (dayNumber v)+j)
          (by omega)
        have := (dateOf_spec (dayNumber x)).2.2.2.1
        omega
    have := mul_le_mul_of_nonneg_right hdays hday.le
    omega

theorem advance_least (h : advance v r = .ok c) : Least r v c := by
  have hi := interval_pos r
  unfold advance at h
  cases hf : r.frequency <;> rw [hf] at h
  case weekly => exact weekly_least hf h
  case monthly => exact monthly_least hf h
  all_goals
    obtain ⟨-,rfl⟩ := inRange_ok.mp h
    unfold Least Intended
    rw [hf]
    dsimp only [timeOfDay,dayNumber]
    exact fixed_least (by decide) hi

def iterate (r : RecurrenceSpec) (a : ℤ) : ℕ → Result ℤ
  | 0 => .ok a
  | k+1 => do advance (← iterate r a k) r

theorem iterate_succ {k : ℕ} :
    iterate r a (k+1) = .ok c ↔ ∃ b, iterate r a k = .ok b ∧ advance b r = .ok c := by
  simp only [iterate,bind_ok]

theorem iterate_selected {k : ℕ} (h : iterate r a (k+1) = .ok c) : a < c ∧ Intended r a c := by
  induction k generalizing c with
  | zero =>
    obtain ⟨b,hb,hc⟩ := iterate_succ.mp h
    cases hb
    have hleast := advance_least hc
    exact ⟨hleast.1,hleast.2.1⟩
  | succ _ ih =>
    obtain ⟨b,hb,hc⟩ := iterate_succ.mp h
    obtain ⟨hab,hsel⟩ := ih hb
    have hleast := advance_least hc
    exact ⟨hab.trans hleast.1,hsel.reanchor.mp hleast.2.1⟩

theorem iterate_reanchor {b : ℤ} {k : ℕ} (h : iterate r a k = .ok b) (x : ℤ) :
    Intended r b x ↔ Intended r a x := by
  cases k with
  | zero =>
    cases h
    exact Iff.rfl
  | succ => exact (iterate_selected h).2.reanchor

theorem iterate_lt {b : ℤ} {j k : ℕ} (hjk : j < k) (hb : iterate r a j = .ok b)
    (hc : iterate r a k = .ok c) : b < c := by
  induction k generalizing c with
  | zero => omega
  | succ k ih =>
    obtain ⟨d,hd,hadv⟩ := iterate_succ.mp hc
    have hlt := (advance_least hadv).1
    by_cases hj : j = k
    · rw [hj,hd] at hb
      cases hb
      exact hlt
    · exact (ih (by omega) hd).trans hlt

theorem iterate_complete {k : ℕ} (h : iterate r a k = .ok c) (hlt : a < x) (hle : x ≤ c)
    (hx : Intended r a x) : ∃ j, 0 < j ∧ j ≤ k ∧ iterate r a j = .ok x := by
  induction k generalizing c with
  | zero =>
    cases h
    omega
  | succ k ih =>
    obtain ⟨b,hb,hadv⟩ := iterate_succ.mp h
    by_cases hxb : x ≤ b
    · obtain ⟨j,hj,_,hjx⟩ := ih hb hxb
      exact ⟨j,hj,by omega,hjx⟩
    · have hmin := (advance_least hadv).2.2 x (not_le.mp hxb) ((iterate_reanchor hb x).mpr hx)
      have heq : x = c := le_antisymm hle hmin
      rw [heq]
      exact ⟨k+1,by omega,le_refl _,h⟩

/-- As long as it returns, the walk lists the selected readings after its anchor in
order, each once and none left out, and counting from any of them selects the same. -/
theorem iterates_exact (r : RecurrenceSpec) (a : ℤ) (k : ℕ) (c : ℤ)
    (h : iterate r a k = .ok c) :
    (∀ i j b d, i < j → j ≤ k → iterate r a i = .ok b → iterate r a j = .ok d → b < d) ∧
      (∀ x, (∃ j, 0 < j ∧ j ≤ k ∧ iterate r a j = .ok x) ↔ a < x ∧ x ≤ c ∧ Intended r a x) ∧
      ∀ x, Intended r c x ↔ Intended r a x := by
  refine ⟨?_,?_,iterate_reanchor h⟩
  · intro i j b d hij _ hb hd
    exact iterate_lt hij hb hd
  · intro x
    constructor
    · rintro ⟨j,hj,hjk,hx⟩
      obtain ⟨i,rfl⟩ := Nat.exists_eq_add_of_lt hj
      rw [zero_add] at hx hjk
      obtain ⟨hlt,hsel⟩ := iterate_selected hx
      refine ⟨hlt,?_,hsel⟩
      by_cases heq : i+1 = k
      · rw [← heq,hx] at h
        cases h
        exact le_refl _
      · exact (iterate_lt (by omega) hx h).le
    · rintro ⟨hlt,hle,hsel⟩
      exact iterate_complete h hlt hle hsel

def midnight : ClockTime := ⟨0,false,by decide⟩

def lateDays : RecurrenceSpec where
  frequency := .monthly
  interval := 2
  weekdays := []
  monthDays := [31,29]
  localTime := some midnight
  intervalBounds := by decide
  weekdayBounds := by decide
  monthDayBounds := by decide
  accepted := rfl

def lateDecember : ℤ := (⟨2026,12,29⟩ : Date).number*day

def lateApril : ℤ := (⟨2027,4,29⟩ : Date).number*day

/-- After 29 December 2026 come the 31st and, as February 2027 has neither day,
29 April. -/
theorem lateDays_exact :
    iterate lateDays lateDecember 2 = .ok lateApril ∧
      ∀ x, Intended lateDays lateApril x ↔ Intended lateDays lateDecember x :=
  ⟨by decide +kernel,(iterates_exact lateDays lateDecember 2 lateApril (by decide +kernel)).2.2⟩

end NexusAi.Scheduler
