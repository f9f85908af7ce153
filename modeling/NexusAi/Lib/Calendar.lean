import Mathlib.Tactic

/-!
# The proleptic Gregorian calendar on a line of microseconds

A wall-clock reading is the number of microseconds since the first day of
year 1, so that adding a duration is addition and the calendar is a view of
the day number. Readings outside the years 1 to 9999 are not representable. The
date of a day is the one whose month holds it.
-/

namespace NexusAi.Calendar

def minute : ℤ := 60000000
def hour : ℤ := 3600000000
def day : ℤ := 86400000000

/-- The number of days from the first day of year 1 to the last of 9999. -/
def maxDays : ℤ := 3652059

def Representable (t : ℤ) : Prop := 0 ≤ t ∧ t < maxDays*day

instance (t : ℤ) : Decidable (Representable t) :=
  inferInstanceAs (Decidable (_ ∧ _))

def dayNumber (t : ℤ) : ℤ := t/day
def timeOfDay (t : ℤ) : ℤ := t%day

def weekday (n : ℤ) : ℤ := n%7

def isLeap (y : ℤ) : Bool := y%4 = 0 && (y%100 ≠ 0 || y%400 = 0)

def daysInMonth (y m : ℤ) : ℤ :=
  if m = 2 then (if isLeap y then 29 else 28)
  else if m = 4 ∨ m = 6 ∨ m = 9 ∨ m = 11 then 30 else 31

def daysBeforeYear (y : ℤ) : ℤ := (y-1)*365+(y-1)/4-(y-1)/100+(y-1)/400

def daysBeforeMonth (y m : ℤ) : ℤ :=
  (if m ≤ 1 then 0 else if m = 2 then 31 else if m = 3 then 59 else if m = 4 then 90
    else if m = 5 then 120 else if m = 6 then 151 else if m = 7 then 181
    else if m = 8 then 212 else if m = 9 then 243 else if m = 10 then 273
    else if m = 11 then 304 else 334) + (if 2 < m ∧ isLeap y then 1 else 0)

structure Date where
  (year month day : ℤ)
  deriving DecidableEq

def Date.number (d : Date) : ℤ :=
  daysBeforeYear d.year+daysBeforeMonth d.year d.month+(d.day-1)

/-- The month of the zero-based day `r` of year `y`: the estimate never falls
short and overshoots by at most one. -/
def monthOfYearDay (y r : ℤ) : ℤ :=
  let m := (r+50)/32
  if daysBeforeMonth y m > r then m-1 else m

/-- Day number to date by whole 400, 100, 4 and single year cycles. The last
day of a leap cycle is the one the divisions would push into a fifth year. -/
def dateOf (n : ℤ) : Date :=
  let n400 := n/146097
  let r400 := n%146097
  let n100 := r400/36524
  let r100 := r400%36524
  let n4 := r100/1461
  let r4 := r100%1461
  let n1 := r4/365
  let r := r4%365
  let y := n400*400+1+n100*100+n4*4+n1
  if n1 = 4 ∨ n100 = 4 then ⟨y-1,12,31⟩
  else
    let m := monthOfYearDay y r
    ⟨y,m,r-daysBeforeMonth y m+1⟩

example : dateOf 0 = ⟨1,1,1⟩ ∧ dateOf (maxDays-1) = ⟨9999,12,31⟩ := by decide

example : (⟨2028,2,29⟩ : Date).number = 740405 ∧ dateOf 740405 = ⟨2028,2,29⟩ := by decide

/-- Months are counted through from year 0 on, January of a year being `12` times it. -/
def monthStart (i : ℤ) : ℤ := (⟨i/12,i%12+1,1⟩ : Date).number

def monthLength (i : ℤ) : ℤ := daysInMonth (i/12) (i%12+1)

def monthIndex (n : ℤ) : ℤ := (dateOf n).year*12+(dateOf n).month-1

variable {y m i : ℤ}

theorem isLeap_iff : isLeap y ↔ y%4 = 0 ∧ (y%100 ≠ 0 ∨ y%400 = 0) := by
  simp [isLeap]

theorem daysBeforeYear_succ (y : ℤ) :
    daysBeforeYear (y+1) = daysBeforeYear y+365+(if isLeap y then 1 else 0) := by
  unfold daysBeforeYear
  by_cases h : isLeap y
  · rw [if_pos h]
    rw [isLeap_iff] at h
    omega
  · rw [if_neg h]
    rw [isLeap_iff] at h
    omega

theorem daysBeforeMonth_succ (h : 1 ≤ m) (h' : m < 12) :
    daysBeforeMonth y (m+1) = daysBeforeMonth y m+daysInMonth y m := by
  have hm : m = 1 ∨ m = 2 ∨ m = 3 ∨ m = 4 ∨ m = 5 ∨ m = 6 ∨ m = 7 ∨ m = 8 ∨ m = 9 ∨ m = 10 ∨
      m = 11 := by omega
  rcases hm with rfl | rfl | rfl | rfl | rfl | rfl | rfl | rfl | rfl | rfl | rfl <;>
    cases hl : isLeap y <;> simp [daysBeforeMonth,daysInMonth,hl]

theorem daysInMonth_pos (y m : ℤ) : 28 ≤ daysInMonth y m := by
  unfold daysInMonth
  split_ifs <;> omega

theorem monthStart_succ (i : ℤ) : monthStart (i+1) = monthStart i+monthLength i := by
  unfold monthStart monthLength Date.number
  by_cases h : i%12 = 11
  · have hy : (i+1)/12 = i/12+1 := by omega
    have hm : (i+1)%12 = 0 := by omega
    rw [hy,hm,h,daysBeforeYear_succ]
    cases hl : isLeap (i/12) <;> simp [daysBeforeMonth,daysInMonth,hl] <;> omega
  · have hy : (i+1)/12 = i/12 := by omega
    have hm : (i+1)%12 = i%12+1 := by omega
    rw [hy,hm,daysBeforeMonth_succ (by omega) (by omega)]
    ring

theorem monthLength_pos (i : ℤ) : 28 ≤ monthLength i := daysInMonth_pos _ _

theorem monthStart_lt {j : ℤ} (h : i < j) : monthStart i+monthLength i ≤ monthStart j := by
  obtain ⟨k,rfl⟩ : ∃ k : ℕ, j = i+1+k := ⟨(j-i-1).toNat,by omega⟩
  induction k with
  | zero => rw [Nat.cast_zero,add_zero,monthStart_succ]
  | succ k ih =>
    have hk := ih (by omega)
    have hnext := monthStart_succ (i+1+k)
    have hpos := monthLength_pos (i+1+k)
    push_cast at *
    rw [← add_assoc,hnext]
    omega

theorem month_unique {j n : ℤ} (hi : monthStart i ≤ n) (hi' : n < monthStart i+monthLength i)
    (hj : monthStart j ≤ n) (hj' : n < monthStart j+monthLength j) : i = j := by
  rcases lt_trichotomy i j with h | h | h
  · have := monthStart_lt h
    omega
  · exact h
  · have := monthStart_lt h
    omega

theorem daysBeforeYear_cycles {q a b c : ℤ} (ha : 0 ≤ a) (ha' : a < 4) (hb : 0 ≤ b) (hb' : b < 25)
    (hc : 0 ≤ c) (hc' : c < 4) :
    daysBeforeYear (q*400+1+a*100+b*4+c) = 146097*q+36524*a+1461*b+365*c := by
  unfold daysBeforeYear
  omega

theorem daysBeforeMonth_le (h : 2 ≤ m) (h' : m ≤ 12) : daysBeforeMonth y (m-1) ≤ 32*m-50 := by
  have hm : m = 2 ∨ m = 3 ∨ m = 4 ∨ m = 5 ∨ m = 6 ∨ m = 7 ∨ m = 8 ∨ m = 9 ∨ m = 10 ∨ m = 11 ∨
      m = 12 := by omega
  rcases hm with rfl | rfl | rfl | rfl | rfl | rfl | rfl | rfl | rfl | rfl | rfl <;>
    cases hl : isLeap y <;> simp [daysBeforeMonth,hl]

theorem lt_daysBeforeMonth (h : 1 ≤ m) (h' : m < 12) : 32*m-19 < daysBeforeMonth y (m+1) := by
  have hm : m = 1 ∨ m = 2 ∨ m = 3 ∨ m = 4 ∨ m = 5 ∨ m = 6 ∨ m = 7 ∨ m = 8 ∨ m = 9 ∨ m = 10 ∨
      m = 11 := by omega
  rcases hm with rfl | rfl | rfl | rfl | rfl | rfl | rfl | rfl | rfl | rfl | rfl <;>
    cases hl : isLeap y <;> simp [daysBeforeMonth,hl]

theorem monthOfYearDay_spec {r : ℤ} (hr : 0 ≤ r) (hr' : r < 365+(if isLeap y then 1 else 0)) :
    1 ≤ monthOfYearDay y r ∧ monthOfYearDay y r ≤ 12 ∧
      daysBeforeMonth y (monthOfYearDay y r) ≤ r ∧
      r < daysBeforeMonth y (monthOfYearDay y r)+daysInMonth y (monthOfYearDay y r) := by
  obtain ⟨m,hm⟩ : ∃ m, m = (r+50)/32 := ⟨_,rfl⟩
  have hlo : 1 ≤ m := by omega
  have hhi : m ≤ 12 := by
    split_ifs at hr' <;> omega
  have hmonth : monthOfYearDay y r = if daysBeforeMonth y m > r then m-1 else m := by
    rw [monthOfYearDay,hm]
  rw [hmonth]
  by_cases hgt : daysBeforeMonth y m > r
  · rw [if_pos hgt]
    have hne : m ≠ 1 := by
      rintro rfl
      simp [daysBeforeMonth] at hgt
      omega
    have hbefore := daysBeforeMonth_le (y := y) (m := m) (by omega) hhi
    have hstep := daysBeforeMonth_succ (y := y) (m := m-1) (by omega) (by omega)
    rw [sub_add_cancel] at hstep
    exact ⟨by omega,by omega,by omega,by omega⟩
  · rw [if_neg hgt]
    refine ⟨hlo,hhi,by omega,?_⟩
    by_cases hlast : m = 12
    · subst hlast
      cases hl : isLeap y <;> rw [hl] at hr' <;> simp [daysBeforeMonth,daysInMonth,hl] at * <;>
        omega
    · have hafter := lt_daysBeforeMonth (y := y) (m := m) hlo (by omega)
      rw [daysBeforeMonth_succ hlo (by omega)] at hafter
      omega

theorem dateOf_spec (n : ℤ) :
    (dateOf n).number = n ∧ 1 ≤ (dateOf n).month ∧ (dateOf n).month ≤ 12 ∧ 1 ≤ (dateOf n).day ∧
      (dateOf n).day ≤ daysInMonth (dateOf n).year (dateOf n).month := by
  obtain ⟨q,hq⟩ : ∃ q, q = n/146097 := ⟨_,rfl⟩
  obtain ⟨r₁,hr₁⟩ : ∃ r₁, r₁ = n%146097 := ⟨_,rfl⟩
  obtain ⟨a,ha⟩ : ∃ a, a = r₁/36524 := ⟨_,rfl⟩
  obtain ⟨r₂,hr₂⟩ : ∃ r₂, r₂ = r₁%36524 := ⟨_,rfl⟩
  obtain ⟨b,hb⟩ : ∃ b, b = r₂/1461 := ⟨_,rfl⟩
  obtain ⟨r₃,hr₃⟩ : ∃ r₃, r₃ = r₂%1461 := ⟨_,rfl⟩
  obtain ⟨c,hc⟩ : ∃ c, c = r₃/365 := ⟨_,rfl⟩
  obtain ⟨r,hr⟩ : ∃ r, r = r₃%365 := ⟨_,rfl⟩
  have hn : n = 146097*q+36524*a+1461*b+365*c+r := by omega
  have hdate : dateOf n = if c = 4 ∨ a = 4 then ⟨q*400+1+a*100+b*4+c-1,12,31⟩
      else ⟨q*400+1+a*100+b*4+c,monthOfYearDay (q*400+1+a*100+b*4+c) r,
        r-daysBeforeMonth (q*400+1+a*100+b*4+c) (monthOfYearDay (q*400+1+a*100+b*4+c) r)+1⟩ := by
    simp only [dateOf,← hq,← hr₁,← ha,← hr₂,← hb,← hr₃,← hc,← hr]
  rw [hdate]
  by_cases hleap : c = 4 ∨ a = 4
  · rw [if_pos hleap]
    -- the last day of a cycle belongs to the leap year before
    obtain ⟨a',b',ha',hb',hcycle,_⟩ : ∃ a' b' : ℤ, (0 ≤ a' ∧ a' < 4) ∧ (0 ≤ b' ∧ b' < 25) ∧
        q*400+1+a*100+b*4+c-1 = q*400+1+a'*100+b'*4+3 ∧
        n = 146097*q+36524*a'+1461*b'+365*3+365 ∧ (b' = 24 → a' = 3) := by
      rcases hleap with h | h
      · exact ⟨a,b,by omega,by omega,by omega,by omega,by omega⟩
      · exact ⟨3,24,by omega,by omega,by omega,by omega,by omega⟩
    have hy : isLeap (q*400+1+a'*100+b'*4+3) := by
      rw [isLeap_iff]
      omega
    rw [hcycle]
    refine ⟨?_,by norm_num,by norm_num,by norm_num,?_⟩
    · rw [Date.number,daysBeforeYear_cycles ha'.1 ha'.2 hb'.1 hb'.2 (by norm_num) (by norm_num)]
      simp only [daysBeforeMonth,hy]
      norm_num
      omega
    · simp [daysInMonth]
  · rw [if_neg hleap]
    rw [not_or] at hleap
    have hr' : r < 365+(if isLeap (q*400+1+a*100+b*4+c) then 1 else 0) := by
      split_ifs <;> omega
    obtain ⟨hm,hm',_,_⟩ := monthOfYearDay_spec (by omega) hr'
    dsimp only [Date.number]
    refine ⟨?_,hm,hm',by omega,by omega⟩
    rw [daysBeforeYear_cycles (by omega) (by omega) (by omega) (by omega) (by omega) (by omega)]
    omega

theorem monthIndex_spec (n : ℤ) :
    monthStart (monthIndex n) ≤ n ∧ n < monthStart (monthIndex n)+monthLength (monthIndex n) ∧
      n = monthStart (monthIndex n)+((dateOf n).day-1) := by
  obtain ⟨hnumber,_,_,_,_⟩ := dateOf_spec n
  have hy : monthIndex n/12 = (dateOf n).year := by
    unfold monthIndex
    omega
  have hmonth : monthIndex n%12+1 = (dateOf n).month := by
    unfold monthIndex
    omega
  have hn : n = monthStart (monthIndex n)+((dateOf n).day-1) := by
    rw [Date.number] at hnumber
    rw [monthStart,hy,hmonth]
    dsimp only [Date.number]
    omega
  have hlength : monthLength (monthIndex n) = daysInMonth (dateOf n).year (dateOf n).month := by
    rw [monthLength,hy,hmonth]
  exact ⟨by omega,by omega,hn⟩

theorem dateOf_month {d : ℤ} (h : 1 ≤ d) (h' : d ≤ monthLength i) :
    monthIndex (monthStart i+(d-1)) = i ∧ (dateOf (monthStart i+(d-1))).day = d := by
  obtain ⟨hlo,hhi,heq⟩ := monthIndex_spec (monthStart i+(d-1))
  have hi : monthIndex (monthStart i+(d-1)) = i :=
    month_unique hlo hhi (by omega) (by omega)
  rw [hi] at heq
  exact ⟨hi,by omega⟩

theorem number_month (i d : ℤ) : (⟨i/12,i%12+1,d⟩ : Date).number = monthStart i+(d-1) := by
  simp only [monthStart,Date.number]
  omega

theorem monthIndex_mono {n : ℤ} (h : m ≤ n) : monthIndex m ≤ monthIndex n := by
  by_contra hlt
  have hm := monthIndex_spec m
  have hn := monthIndex_spec n
  have := monthStart_lt (not_le.mp hlt)
  omega

end NexusAi.Calendar
