import NexusAi.Otp.SingleUse

/-!
# The issuance throttle

A call counts the challenges of its window before it inserts its own. The count
holds at the insert if nothing was issued in between and nothing that it had to
count was purged.
-/

namespace NexusAi.Otp

variable {D : Type} [DecidableEq D]

namespace World

section

variable (service : Service D)

def issuedSince (w : World D) (subject : ℕ × D × OtpPurpose) (since : ℤ) : ℕ :=
  w.issued.countP fun d => service.subject d = subject ∧ since ≤ d.now

/-- A call that inserts has counted what was issued in its window. -/
def undisturbed (w : World D) : Action → Bool
  | .advance i now =>
    match w.phase i, (step service w (.advance i now)).phase i with
    | some (.inserting draft issued _), some (.inserted _ _ _) => w.issuedSince service
        (service.subject draft) (draft.now-service.settings.issueWindowSeconds) ≤ issued
    | _, _ => true
  | _ => true

structure Throttled (w : World D) : Prop where
  counted : ∀ i p d n, w.phase i = some p → p.count = some (d,n) →
    n < service.settings.maxIssuesPerWindow
  inserted : ∀ i p d, w.phase i = some p → p.entry = some d →
    w.issuedSince service (service.subject d) (d.now-service.settings.issueWindowSeconds) <
      service.settings.maxIssuesPerWindow
  held : ∀ subject start, w.issued.countP (fun d => service.subject d = subject ∧
      start ≤ d.now ∧ d.now ≤ start+service.settings.issueWindowSeconds) ≤
    service.settings.maxIssuesPerWindow

end

variable {service : Service D} {w : World D} {i : ℕ} {c : Call D}

theorem Throttled.entered (h : w.Throttled service) {p : Phase D} {w' : World D}
    (hphase : ∀ j, w'.phase j = if j = i then some p else w.phase j)
    (hissued : w'.issued = w.issued)
    (hcount : ∀ d n, p.count = some (d,n) → n < service.settings.maxIssuesPerWindow)
    (hentry : ∀ d, p.entry = some d → w.issuedSince service (service.subject d)
      (d.now-service.settings.issueWindowSeconds) < service.settings.maxIssuesPerWindow) :
    w'.Throttled service := by
  constructor
  · intro j q d n hq hn
    rw [hphase] at hq
    split_ifs at hq
    · cases hq
      exact hcount d n hn
    · exact h.counted j q d n hq hn
  · intro j q d hq hd
    unfold issuedSince
    rw [hissued]
    rw [hphase] at hq
    split_ifs at hq
    · cases hq
      exact hentry d hd
    · exact h.inserted j q d hq hd
  · rw [hissued]
    exact h.held

theorem Throttled.issueStep (h : w.Throttled service) (hsound : w.Sound service)
    (hi : w.calls[i]? = some c) {draft : Draft} {issued : ℕ} {revoked : Option ℕ} {now : ℤ}
    (hp : c.phase = .inserted draft issued revoked) :
    (w.issueStep service i draft revoked now).Throttled service := by
  have hphase : ∀ j, (w.issueStep service i draft revoked now).phase j =
      if j = i then some (.delivering draft) else w.phase j :=
    fun j => phase_enter hi (.delivering draft) j
  have hcurrent : w.phase i = some (.inserted draft issued revoked) := by
    rw [phase_of_call hi,hp]
  constructor
  · intro j q d n hq hn
    rw [hphase] at hq
    split_ifs at hq
    · cases hq
      cases hn
    · exact h.counted j q d n hq hn
  · intro j q d hq hd
    rw [hphase] at hq
    split_ifs at hq with hj
    · cases hq
      cases hd
    · have hrival := hsound.apart j i q _ d draft hj hq hcurrent hd rfl
      have hother : service.subject draft ≠ service.subject d := by
        simp only [rivals,Bool.or_eq_false_iff,decide_eq_false_iff_not] at hrival
        exact hrival.1
      have hroom := h.inserted j q d hq hd
      simp only [issuedSince,World.issueStep,enter,List.countP_append] at hroom ⊢
      simpa [hother] using hroom
  · intro subject start
    have hroom := h.inserted i _ draft hcurrent rfl
    have hbound := h.held subject start
    simp only [World.issueStep,enter,List.countP_append]
    by_cases hin : service.subject draft = subject ∧ start ≤ draft.now ∧
        draft.now ≤ start+service.settings.issueWindowSeconds
    · have hfewer : w.issued.countP (fun d => service.subject d = subject ∧
          start ≤ d.now ∧ d.now ≤ start+service.settings.issueWindowSeconds) ≤
          w.issuedSince service (service.subject draft)
            (draft.now-service.settings.issueWindowSeconds) := by
        apply List.countP_mono_left
        intro d _ hd
        rw [decide_eq_true_eq] at hd ⊢
        exact ⟨hd.1.trans hin.1.symm,by omega⟩
      simp only [List.countP_singleton,decide_eq_true hin,if_true]
      omega
    · simp only [List.countP_singleton,decide_eq_false hin,Bool.false_eq_true,if_false]
      exact hbound

theorem undisturbed_insert {now : ℤ} (hok : w.undisturbed service (.advance i now)) {d : Draft}
    {n : ℕ} {revoked : Option ℕ} (hi : w.phase i = some (.inserting d n revoked)) {p : Phase D}
    (hp : (World.step service w (.advance i now)).phase i = some p) (hd : p.entry = some d) :
    w.issuedSince service (service.subject d) (d.now-service.settings.issueWindowSeconds) ≤ n := by
  cases p with
  | inserted => simpa only [undisturbed,hi,hp,decide_eq_true_eq] using hok
  | _ => cases hd

theorem Throttled.step (h : w.Throttled service) (hsound : w.Sound service) {a : Action}
    (hok : w.undisturbed service a) : (World.step service w a).Throttled service := by
  have hturn : Turn service w a (World.step service w a) := (hsound.moves a).turn
  generalize hw' : World.step service w a = w' at hturn ⊢
  cases hturn with
  | idle => exact h
  | drops => exact ⟨h.counted,h.inserted,h.held⟩
  | admits _ p hcount =>
    have hentry : p.entry = none := by
      cases p with
      | inserted => cases hcount
      | _ => rfl
    refine ⟨?_,?_,h.held⟩
    · intro j q d n hq hn
      obtain ⟨b,hb,rfl⟩ := call_of_phase hq
      rcases Batch.concat_cases hb with ⟨-,rfl⟩ | hb
      · rw [hcount] at hn
        cases hn
      · exact h.counted j _ d n (phase_of_call hb) hn
    · intro j q d hq hd
      obtain ⟨b,hb,rfl⟩ := call_of_phase hq
      rcases Batch.concat_cases hb with ⟨-,rfl⟩ | hb
      · rw [hentry] at hd
        cases hd
      · exact h.inserted j _ d (phase_of_call hb) hd
  | enters i c p hi hgoes =>
    refine h.entered (phase_enter hi p) rfl ?_ ?_
    · intro d n hn
      rcases hgoes.count d n hn with hold | ⟨-,hlt,-⟩
      · exact h.counted i c.phase d n (phase_of_call hi) hold
      · exact hlt
    · intro d hd
      obtain ⟨⟨n,revoked,hc⟩,-,_,rfl⟩ := hgoes.entry d hd
      have hcurrent : w.phase i = some (.inserting d n revoked) := by
        rw [phase_of_call hi,hc]
      refine (undisturbed_insert hok hcurrent ?_ hd).trans_lt (h.counted i _ d n hcurrent rfl)
      rw [hw',phase_enter hi,if_pos rfl]
  | commits _ _ _ _ outcome hi =>
    refine h.entered (phase_enter hi (.closed outcome)) rfl ?_ ?_
    · intro d n hn
      cases hn
    · intro d hd
      cases hd
  | issues _ _ _ _ _ _ hi hphase => exact h.issueStep hsound hi hphase

theorem throttled_initial : (initial : World D).Throttled service := by
  constructor <;> simp [initial,phase]

end World

/-- In every run whose inserts find no more issued than was counted, an interval of the length of
the window has no more challenges of one destination and purpose than allowed. -/
theorem issues_throttled (service : Service D) (as : List Action)
    (h : Run.Conforms (World.step service) (fun w a => w.undisturbed service a) as
      World.initial) (organizationId : ℕ) (destination : Destination) (purpose : OtpPurpose)
    (start : ℤ) :
    (World.reach service as).issued.countP (fun d => d.organizationId = organizationId ∧
      d.destination = destination ∧ d.purpose = purpose ∧ start ≤ d.now ∧
      d.now ≤ start+service.settings.issueWindowSeconds) ≤
        service.settings.maxIssuesPerWindow := by
  have hinv : (World.reach service as).Sound service ∧ (World.reach service as).Throttled service :=
    Run.exec_conforming _ _ (fun w => w.Sound service ∧ w.Throttled service)
      (fun w a hok hw => ⟨hw.1.step a,hw.2.step hw.1 hok⟩) as _ h
      ⟨World.sound_initial,World.throttled_initial⟩
  refine le_trans ?_ (hinv.2.held
    (organizationId,service.destinationFingerprint destination,purpose) start)
  apply List.countP_mono_left
  intro d _ hd
  rw [decide_eq_true_eq] at hd ⊢
  obtain ⟨rfl,rfl,rfl,hwindow⟩ := hd
  exact ⟨rfl,hwindow⟩

/-- The issued challenges of one destination in an interval. -/
def World.issuedWithin (w : World D) (destination : Destination) (start stop : ℤ) : ℕ :=
  w.issued.countP fun d => d.destination = destination ∧ start ≤ d.now ∧ d.now ≤ stop

theorem verifiedTwice_throttled :
    Run.Conforms (World.step sampleService) (fun w a => w.undisturbed sampleService a)
      verifiedTwice World.initial ∧
    (World.reach sampleService verifiedTwice).issued.countP (fun d => decide
      (d.organizationId = 7 ∧ d.destination = samplePhone ∧ d.purpose = .genericVerification ∧
        0 ≤ d.now ∧ d.now ≤ 0+(sampleService.settings.issueWindowSeconds : ℤ))) ≤ 5 := by
  have h : Run.Conforms (World.step sampleService)
      (fun w a => w.undisturbed sampleService a) verifiedTwice World.initial := by
    decide +kernel
  exact ⟨h,issues_throttled sampleService verifiedTwice h 7 samplePhone .genericVerification 0⟩

def dailySettings : OtpSettings where
  enabled := true
  ttlSeconds := 300
  maxAttempts := 5
  resendCooldownSeconds := 60
  maxIssuesPerWindow := 1
  issueWindowSeconds := 86400
  ttl_bounds := sampleSettings.ttl_bounds
  attempts_bounds := sampleSettings.attempts_bounds
  cooldown_bounds := sampleSettings.cooldown_bounds
  issues_bounds := by decide
  window_bounds := by decide

def dailyService : Service String := ⟨dailySettings,id⟩

def advances (call : ℕ) (now : ℤ) (n : ℕ) : List Action := List.replicate n (.advance call now)

/-- The second call counts before the first one inserts, and looks for an active challenge
after the delivery of the first one has failed. -/
def crossedIssues : List Action :=
  [.issue 7 samplePhone .genericVerification 1 none 0 "111111",
    .issue 7 samplePhone .genericVerification 1 none 1 "222222"]++
  advances 0 1 2++advances 1 1 2++advances 0 1 3++[.deliver 0 (.failed "NXS_MSG_DELIVERY_FAILED")]++
  advances 0 2 3++advances 1 3 3

/-- The purge takes away the challenge that the second call has to count. -/
def purgedIssues : List Action :=
  [.issue 7 samplePhone .genericVerification 1 none 0 "111111"]++advances 0 0 5++
  [.deliver 0 (.failed "NXS_MSG_DELIVERY_FAILED")]++advances 0 1 3++
  [.purge 7 4000 3600,.issue 7 samplePhone .genericVerification 1 none 4000 "222222"]++
  advances 1 4000 5

theorem twoDaily_issued :
    dailyService.settings.maxIssuesPerWindow < (World.reach dailyService crossedIssues).issuedWithin
      samplePhone 0 dailyService.settings.issueWindowSeconds ∧
    dailyService.settings.maxIssuesPerWindow < (World.reach dailyService purgedIssues).issuedWithin
      samplePhone 0 dailyService.settings.issueWindowSeconds := by
  decide +kernel

end NexusAi.Otp
