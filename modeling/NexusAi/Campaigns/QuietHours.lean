import NexusAi.Lib.Waiting

/-!
# Quiet hours

A campaign does not contact anyone while the clock of its policy shows a reading
between two times of day. A contact that meets them is put off to the instant at
which they end, which is rebuilt from the date and the end's time of day.
-/

namespace NexusAi.Campaigns
open NexusAi.Calendar NexusAi.Zones

structure ClockTime where
  micros : ℤ
  valid : 0 ≤ micros ∧ micros < day

structure QuietHoursPolicy where
  enabled : Bool
  timezone : Zone
  (startLocal endLocal : ClockTime)

/-- A reading of the clock is inside quiet hours. Equal ends leave nothing outside. -/
def quietReading (policy : QuietHoursPolicy) (reading : ℤ) : Bool :=
  let current := timeOfDay reading
  let start := policy.startLocal.micros
  let finish := policy.endLocal.micros
  decide ((start < finish ∧ start ≤ current ∧ current < finish) ∨
    (finish ≤ start ∧ (start ≤ current ∨ current < finish)))

def endReading (policy : QuietHoursPolicy) (reading : ℤ) : ℤ :=
  let start := policy.startLocal.micros
  let finish := policy.endLocal.micros
  let endDate := dayNumber reading+if finish ≤ start ∧ start ≤ timeOfDay reading then 1 else 0
  endDate*day+finish

def quietHoursNext (now : ℤ) (policy : QuietHoursPolicy) : Option ℤ :=
  if policy.enabled = false then none
  else
    let here := policy.timezone.wall now
    if quietReading policy here = false then none
    else some (policy.timezone.earliest (endReading policy here))

/-- The beginning of the quiet hours that the reading is in. -/
def startReading (policy : QuietHoursPolicy) (reading : ℤ) : ℤ :=
  endReading policy reading-(policy.endLocal.micros-policy.startLocal.micros)%day

variable {policy : QuietHoursPolicy}

theorem quietReading_iff {x : ℤ} : quietReading policy x ↔
    (policy.startLocal.micros < policy.endLocal.micros ∧
      policy.startLocal.micros ≤ timeOfDay x ∧ timeOfDay x < policy.endLocal.micros) ∨
    (policy.endLocal.micros ≤ policy.startLocal.micros ∧
      (policy.startLocal.micros ≤ timeOfDay x ∨ timeOfDay x < policy.endLocal.micros)) := by
  simp [quietReading]

theorem period_of_quiet {here : ℤ} (h : quietReading policy here)
    (hne : policy.startLocal.micros ≠ policy.endLocal.micros) :
    Period (fun x => quietReading policy x) (startReading policy here)
        (endReading policy here) ∧
      startReading policy here ≤ here ∧ here < endReading policy here := by
  have hs := policy.startLocal.valid
  have he := policy.endLocal.valid
  have hmem : ∀ x, quietReading policy x ↔ _ := fun x => quietReading_iff
  rw [hmem] at h
  simp only [startReading,endReading]
  refine ⟨⟨?_,?_,?_⟩,?_⟩
  · intro x
    rw [hmem]
    simp only [timeOfDay,dayNumber,day] at *
    split_ifs <;> omega
  · rw [hmem]
    simp only [timeOfDay,dayNumber,day] at *
    split_ifs <;> omega
  · rw [hmem]
    simp only [timeOfDay,dayNumber,day] at *
    split_ifs <;> omega
  · simp only [timeOfDay,dayNumber,day] at *
    split_ifs <;> omega

/-- Quiet hours last from `now` exactly up to the instant that is given, and where none is
given it is not inside them. -/
def DeferralExact (policy : QuietHoursPolicy) (now : ℤ) : Prop :=
  (∀ t, quietHoursNext now policy = some t → now < t ∧ quietHoursNext t policy = none ∧
    ∀ u, now ≤ u → u < t → quietReading policy (policy.timezone.wall u)) ∧
  (quietHoursNext now policy = none → quietReading policy (policy.timezone.wall now) = false)

theorem quietHoursNext_none (henabled : policy.enabled) (t : ℤ) :
    quietHoursNext t policy = none ↔ quietReading policy (policy.timezone.wall t) = false := by
  simp only [quietHoursNext,henabled]
  split_ifs with h <;> simp_all

theorem quietHoursNext_some (henabled : policy.enabled) {now : ℤ}
    (h : quietReading policy (policy.timezone.wall now)) :
    quietHoursNext now policy =
      some (policy.timezone.earliest (endReading policy (policy.timezone.wall now))) := by
  simp [quietHoursNext,henabled,h]

theorem quiet_of_equal (heq : policy.startLocal.micros = policy.endLocal.micros) (x : ℤ) :
    quietReading policy x := by
  rw [quietReading_iff,heq]
  omega

/-- A deferral is exact if and only if the two ends differ and no change of the clock
disturbs the wait for the end. -/
theorem deferralExact_iff (policy : QuietHoursPolicy) (henabled : policy.enabled)
    (now : ℤ) :
    DeferralExact policy now ↔ (quietReading policy (policy.timezone.wall now) →
      policy.startLocal.micros ≠ policy.endLocal.micros ∧
      Undisturbed (fun x => quietReading policy x)
        (startReading policy (policy.timezone.wall now))
        (endReading policy (policy.timezone.wall now)) now policy.timezone.initial
        policy.timezone.changes) := by
  by_cases hin : quietReading policy (policy.timezone.wall now)
  · have hnext := quietHoursNext_some henabled hin
    simp only [DeferralExact,hnext,Option.some.injEq,forall_eq',reduceCtorEq,false_implies,
      and_true,quietHoursNext_none henabled,hin,true_implies]
    by_cases heq : policy.startLocal.micros = policy.endLocal.micros
    · simp [quiet_of_equal heq,heq]
    · obtain ⟨hp,hs,hl⟩ := period_of_quiet hin heq
      obtain ⟨w,hsp⟩ := policy.timezone.spaced
      rw [← exactWait_iff hp hsp hs hl.le]
      constructor
      · rintro ⟨hlt,hends,hthrough⟩
        exact ⟨heq,hlt.le,fun hq => Bool.noConfusion (hq.symm.trans hends),hthrough⟩
      · rintro ⟨-,hwait⟩
        have hends : quietReading policy (policy.timezone.wall
            (policy.timezone.earliest (endReading policy (policy.timezone.wall now)))) = false :=
          Bool.eq_false_iff.mpr hwait.ends
        refine ⟨lt_of_le_of_ne hwait.later ?_,hends,hwait.through⟩
        intro he
        change now = policy.timezone.earliest (endReading policy (policy.timezone.wall now)) at he
        rw [← he] at hends
        exact Bool.noConfusion (hin.symm.trans hends)
  · have hout := Bool.eq_false_iff.mpr hin
    refine ⟨fun _ hq => absurd hq hin,fun _ => ⟨?_,fun _ => hout⟩⟩
    intro t ht
    rw [(quietHoursNext_none henabled now).mpr hout] at ht
    cases ht

theorem minutes_valid (m : Fin 1440) : 0 ≤ (m : ℤ)*minute ∧ (m : ℤ)*minute < day := by
  have := m.isLt
  simp only [minute,day]
  omega

/-- Quiet from nine in the evening on, up to a minute of the day. -/
def fromNine (zone : Zone) (m : Fin 1440) : QuietHoursPolicy :=
  ⟨true,zone,⟨_,minutes_valid 1260⟩,⟨_,minutes_valid m⟩⟩

theorem untilEight_exact :
    quietHoursNext (22*hour) (fromNine .utc 480) = some (32*hour) ∧
      DeferralExact (fromNine .utc 480) (22*hour) :=
  ⟨by decide +kernel,(deferralExact_iff _ rfl _).mpr fun _ => ⟨by decide,trivial⟩⟩

/-- Quiet hours until half past one, met at the second 01:15 of 1 November 2026: the
deferral leads to the first 01:30, which is before. With equal ends it leads to an instant
that is quiet again. -/
theorem deferral_misses :
    ¬ DeferralExact (fromNine newYorkAutumn 90) (secondHalfPastOne-15*minute) ∧
      ¬ DeferralExact (fromNine .utc 1260) (22*hour) := by
  have hback : quietHoursNext (secondHalfPastOne-15*minute) (fromNine newYorkAutumn 90) =
      some (secondHalfPastOne-hour) := by decide +kernel
  have hagain : quietHoursNext (22*hour) (fromNine .utc 1260) = some (45*hour) ∧
      quietHoursNext (45*hour) (fromNine .utc 1260) = some (69*hour) := by decide +kernel
  constructor
  · intro hexact
    exact absurd (hexact.1 _ hback).1 (by decide)
  · intro hexact
    exact absurd (hagain.2.symm.trans (hexact.1 _ hagain.1).2.1) nofun

end NexusAi.Campaigns
