import NexusAi.Provisioning.Soundness

/-!
# One organization for each key

A key leads to one organization at most and every answer names it. What can go wrong
is the status: a worker that comes late finds the organization key taken by the
organization of its own claim and marks the claim as failed. As long as every
baseline is committed while its claim is open, a claim with an organization is never
failed and one more call completes it.
-/

namespace NexusAi.Provisioning
namespace World

variable {w : World} {c : Call} {staleSeconds : ℤ} {i : ℕ} {now : ℤ}

/-- A baseline is committed only while its claim is pending and has no organization:
no other worker of the claim got ahead of it. -/
def ahead (w : World) : Action → Bool
  | .advance i _ reply =>
    match w.calls[i]? with
    | some c =>
      match c.phase with
      | .baseline requestId _ _ => !reply.commits || (w.requests[requestId]?).all fun r =>
          r.status = .pending ∧ r.organizationId = none
      | _ => true
    | none => true
  | _ => true

def Unfailed (w : World) : Prop :=
  ∀ (i : ℕ) r, w.requests[i]? = some r → r.organizationId.isSome → r.status ≠ .failed

theorem ahead_open {requestId ownerUserId : ℕ} {payload : Payload} {reply : Reply} {r : RequestRow}
    (h : w.ahead (.advance i now reply)) (hc : w.calls[i]? = some c)
    (hphase : c.phase = .baseline requestId payload ownerUserId) (hcommits : reply.commits)
    (hr : w.requests[requestId]? = some r) : r.status = .pending ∧ r.organizationId = none := by
  simpa [ahead,hc,hphase,hcommits,hr] using h

theorem Unfailed.markFailed (h : Unfailed w) {requestId : ℕ} (code : String)
    (hnone : ∀ r, w.requests[requestId]? = some r → r.organizationId = none) :
    Unfailed { w with
      requests := w.requests.modify requestId (RequestRow.markFailed now code) } := by
  intro j r hr hlink
  rcases Batch.modify_cases hr with ⟨r₀,hr₀,rfl,rfl⟩ | ⟨-,hr⟩
  · have hsome : r₀.organizationId.isSome := hlink
    rw [hnone r₀ hr₀] at hsome
    cases hsome
  · exact h j r hr hlink

theorem transaction_unfailed (h : Unfailed w)
    (hopen : ∀ requestId payload ownerUserId r,
      c.phase = .baseline requestId payload ownerUserId → w.requests[requestId]? = some r →
        r.status = .pending ∧ r.organizationId = none) :
    Unfailed (w.transaction staleSeconds c now).1 := by
  unfold transaction
  cases hphase : c.phase with
  | checking | handling | ended => exact h
  | claiming =>
    dsimp only
    split_ifs
    · exact h
    · exact Batch.forall_concat (fun hlink => by cases hlink) h
  | baseline requestId payload ownerUserId =>
    have hrow := hopen requestId payload ownerUserId
    simp only [executeBaseline]
    split_ifs
    · exact h.markFailed _ fun r hr => (hrow r hphase hr).2
    · exact h.markFailed _ fun r hr => (hrow r hphase hr).2
    · intro j r hr hlink
      rcases Batch.modify_cases hr with ⟨r₀,hr₀,rfl,rfl⟩ | ⟨-,hr⟩
      · have hpending := (hrow r₀ hphase hr₀).1
        intro hfailed
        rw [show r₀.status = .failed from hfailed] at hpending
        cases hpending
      · exact h j r hr hlink
  | finalizing =>
    intro j r hr hlink
    rcases Batch.modify_cases hr with ⟨_,-,-,rfl⟩ | ⟨-,hr⟩
    · intro hfailed
      cases hfailed
    · exact h j r hr hlink

theorem step_unfailed (staleSeconds : ℤ) (w : World) (a : Action) (ha : w.ahead a)
    (h : Unfailed w) : Unfailed (w.step staleSeconds a) := by
  cases a with
  | advance i now reply =>
    simp only [step]
    rcases advance_cases staleSeconds w i now reply with
      hw | ⟨c,hc,-,⟨-,hw⟩ | ⟨hcommits,phase,hw,-⟩⟩
    · rw [hw]
      exact h
    · rw [hw]
      exact h
    · rw [hw]
      exact transaction_unfailed h fun _ _ _ r hphase hr => ahead_open ha hc hphase hcommits hr
  | createCoreRecord =>
    simp only [step,createCoreRecordStep]
    split_ifs <;> exact h
  | provision | setActiveUsers | setOwnerRole => exact h

theorem initial_sound : Sound initial := by
  constructor <;> intros <;> simp_all [initial]

section OneMore

def joined (w : World) (request : OnboardingRequest) (callerUserId : ℕ) (phase : Phase) : World :=
  { w with calls := w.calls++[⟨request,callerUserId,phase⟩] }

variable {request : OnboardingRequest} {callerUserId : ℕ} {phase new : Phase}

theorem joined_call :
    (w.joined request callerUserId phase).calls[w.calls.length]? =
      some ⟨request,callerUserId,phase⟩ :=
  List.getElem?_concat_length

theorem joined_enter : (w.joined request callerUserId phase).enter w.calls.length new =
    w.joined request callerUserId new := by
  simp only [joined,enter]
  rw [Batch.modify_concat]

theorem joined_advance {request : OnboardingRequest} {callerUserId : ℕ} {phase : Phase}
    (hlive : ∀ answer, phase ≠ .ended answer) :
    (w.joined request callerUserId phase).step staleSeconds (.advance w.calls.length now .done) =
      ((w.joined request callerUserId phase).transaction staleSeconds
        ⟨request,callerUserId,phase⟩ now).1.enter w.calls.length
          ((w.joined request callerUserId phase).transaction staleSeconds
            ⟨request,callerUserId,phase⟩ now).2 := by
  -- the first branch of the step is ruled out by `hlive`
  simp only [step,advanceStep,joined_call]

theorem joined_ended {answer : Except ProvisioningError ProvisioningResult} :
    (w.joined request callerUserId (.ended answer)).step staleSeconds
      (.advance w.calls.length now .done) = w.joined request callerUserId (.ended answer) := by
  simp only [step,advanceStep,joined_call]

theorem joined_checking
    (hactive : request.payload.ownerUserId.getD callerUserId ∈ w.activeUsers) :
    (w.joined request callerUserId .checking).step staleSeconds
      (.advance w.calls.length now .done) = w.joined request callerUserId .claiming := by
  have howner : (⟨request,callerUserId,.checking⟩ : Call).ownerUserId ∈
      (w.joined request callerUserId .checking).activeUsers := hactive
  rw [joined_advance (by simp)]
  simp only [transaction]
  rw [if_pos howner,joined_enter]

theorem joined_claiming {requestId : ℕ} (hfound : w.byKeyHash request.idempotencyKey = some requestId) :
    (w.joined request callerUserId .claiming).step staleSeconds
      (.advance w.calls.length now .done) = w.joined request callerUserId .handling := by
  have hsome : ((w.joined request callerUserId .claiming).byKeyHash
      request.idempotencyKey).isSome := by
    show (w.byKeyHash request.idempotencyKey).isSome
    rw [hfound]
    rfl
  rw [joined_advance (by simp)]
  simp only [transaction]
  rw [if_pos hsome,joined_enter]

theorem joined_handling :
    (w.joined request callerUserId .handling).step staleSeconds
      (.advance w.calls.length now .done) = w.joined request callerUserId
        (handleExisting staleSeconds w ⟨request,callerUserId,.handling⟩ now) := by
  rw [joined_advance (by simp)]
  exact joined_enter

theorem joined_finalizing {requestId organizationId : ℕ} {organizationKey : String} :
    (w.joined request callerUserId (.finalizing requestId organizationId organizationKey)).step
      staleSeconds (.advance w.calls.length now .done) =
        { w with
          requests := w.requests.modify requestId (RequestRow.complete now organizationId)
        }.joined request callerUserId (.ended (.ok (result organizationId organizationKey))) := by
  rw [joined_advance (by simp)]
  exact joined_enter (w := { w with
    requests := w.requests.modify requestId (RequestRow.complete now organizationId) })

theorem handleExisting_linked (staleSeconds : ℤ) (h : Sound w) (hun : Unfailed w)
    {r : RequestRow} {n : ℕ}
    (hr : w.requests[i]? = some r) (hlink : r.organizationId = some n)
    (hkey : c.request.idempotencyKey = r.idempotencyKey)
    (hprint : c.request.payload = r.requestFingerprint) :
    handleExisting staleSeconds w c now =
      if r.status = .completed then .ended (.ok (result n r.organizationKey))
      else .finalizing i n r.organizationKey := by
  unfold handleExisting
  cases hfind : w.byKeyHash c.request.idempotencyKey with
  | none => exact absurd hkey.symm (byKeyHash_none hfind hr)
  | some j =>
    obtain ⟨s,hs,hskey⟩ := byKeyHash_some hfind
    have hij : j = i := h.keys j i s r hs hr (hskey.trans hkey)
    rw [hij]
    dsimp only
    rw [hr]
    dsimp only
    rw [if_neg (not_not_intro hprint.symm)]
    have hnot := hun i r hr (by rw [hlink]; rfl)
    cases hstatus : r.status with
    | completed => rw [hlink]; rfl
    | failed => exact absurd hstatus hnot
    | pending => simp [resumePending,hlink]

def oneMore (w : World) (request : OnboardingRequest) (callerUserId : ℕ) (now : ℤ) : List Action :=
  .provision request callerUserId true::List.replicate 4 (.advance w.calls.length now .done)

/-- The claim is completed and the call answered with its organization. -/
def Completes (w : World) (i n k : ℕ) : Prop :=
  (∃ r, w.requests[i]? = some r ∧ r.status = .completed ∧ r.organizationId = some n) ∧
    ∃ c answer, w.calls[k]? = some c ∧ c.phase = .ended (.ok answer) ∧ answer.organizationId = n

theorem oneMore_completes (h : Sound w) (hun : Unfailed w) {r : RequestRow} {n : ℕ}
    (hr : w.requests[i]? = some r) (hlink : r.organizationId = some n)
    (hkey : request.idempotencyKey = r.idempotencyKey)
    (hprint : request.payload = r.requestFingerprint)
    (hactive : request.payload.ownerUserId.getD callerUserId ∈ w.activeUsers) :
    Completes (Run.exec (step staleSeconds) (w.oneMore request callerUserId now) w) i n
      w.calls.length := by
  obtain ⟨j,hj⟩ : ∃ j, w.byKeyHash request.idempotencyKey = some j := by
    cases hfind : w.byKeyHash request.idempotencyKey with
    | none => exact absurd hkey.symm (byKeyHash_none hfind hr)
    | some j => exact ⟨j,rfl⟩
  have hstart : w.step staleSeconds (.provision request callerUserId true) =
      w.joined request callerUserId .checking := rfl
  simp only [oneMore,List.replicate,Run.exec]
  rw [hstart,joined_checking hactive,joined_claiming hj,joined_handling,
    handleExisting_linked staleSeconds h hun hr hlink hkey hprint]
  by_cases hdone : r.status = .completed
  · rw [if_pos hdone,joined_ended]
    exact ⟨⟨r,hr,hdone,hlink⟩,_,_,joined_call,rfl,rfl⟩
  · rw [if_neg hdone,joined_finalizing]
    refine ⟨⟨RequestRow.complete now n r,?_,rfl,rfl⟩,_,_,joined_call,rfl,rfl⟩
    simp [joined,hr]

end OneMore

theorem other_payload (h : Sound w) {r : RequestRow} (hr : w.requests[i]? = some r) {k : ℕ}
    (hc : w.calls[k]? = some c) (hkey : c.request.idempotencyKey = r.idempotencyKey)
    (hprint : c.request.payload ≠ r.requestFingerprint) (now : ℤ) (reply : Reply) :
    (w.step staleSeconds (.advance k now reply)).requests = w.requests ∧
      (w.step staleSeconds (.advance k now reply)).organizations = w.organizations := by
  -- the claim it would work on is the one of its key
  have hnot {j : ℕ} {s : RequestRow} (hs : w.requests[j]? = some s) (hclaims : Claims c s) :
      False := by
    have hji : j = i := h.keys j i s r hs hr (hclaims.1.trans hkey)
    rw [hji,hr] at hs
    cases hs
    exact hprint hclaims.2.symm
  have hsame : (w.transaction staleSeconds c now).1.requests = w.requests ∧
      (w.transaction staleSeconds c now).1.organizations = w.organizations := by
    have hbacked := h.calls k c hc
    unfold transaction
    cases hphase : c.phase with
    | claiming =>
      dsimp only
      split_ifs with hfound
      · exact ⟨rfl,rfl⟩
      · rw [Bool.not_eq_true,Option.isSome_eq_false_iff,Option.isNone_iff_eq_none] at hfound
        exact absurd hkey.symm (byKeyHash_none hfound hr)
    | baseline | finalizing =>
      rw [hphase] at hbacked
      obtain ⟨s,hs,hclaims,-⟩ := hbacked
      exact (hnot hs hclaims).elim
    | checking | handling | ended => exact ⟨rfl,rfl⟩
  simp only [step]
  rcases advance_cases staleSeconds w k now reply with hw | ⟨d,hd,-,⟨-,hw⟩ | ⟨-,_,hw,-⟩⟩
  · rw [hw]
    exact ⟨rfl,rfl⟩
  · rw [hw]
    exact ⟨rfl,rfl⟩
  · rw [hc] at hd
    cases hd
    rw [hw]
    exact hsame

structure Provisioned (staleSeconds : ℤ) (w : World) (i : ℕ) (row : RequestRow) : Prop where
  single : ∀ (j m n : ℕ) r o p, w.requests[j]? = some r → r.idempotencyKey = row.idempotencyKey →
    w.organizations[m]? = some o → w.organizations[n]? = some p → o.createdFor = some i →
      p.createdFor = some j → m = n
  linked : ∀ (n : ℕ) o, w.organizations[n]? = some o → o.createdFor = some i →
    row.organizationId = some n ∧ row.status ≠ .failed
  answered : ∀ (k : ℕ) c answer, w.calls[k]? = some c →
    c.request.idempotencyKey = row.idempotencyKey → c.phase = .ended (.ok answer) →
      row.organizationId = some answer.organizationId
  completes : ∀ n request callerUserId now, row.organizationId = some n →
    request.idempotencyKey = row.idempotencyKey → request.payload = row.requestFingerprint →
      request.payload.ownerUserId.getD callerUserId ∈ w.activeUsers →
        Completes (Run.exec (step staleSeconds) (w.oneMore request callerUserId now) w) i n
          w.calls.length
  refused : ∀ (k : ℕ) c now reply, w.calls[k]? = some c →
    c.request.idempotencyKey = row.idempotencyKey → c.request.payload ≠ row.requestFingerprint →
      (w.step staleSeconds (.advance k now reply)).requests = w.requests ∧
        (w.step staleSeconds (.advance k now reply)).organizations = w.organizations

theorem Sound.provisioned (h : Sound w) (hun : Unfailed w) {row : RequestRow}
    (hrow : w.requests[i]? = some row) : Provisioned staleSeconds w i row := by
  have own {n : ℕ} {o : OrganizationRow} (ho : w.organizations[n]? = some o)
      (hfor : o.createdFor = some i) : row.organizationId = some n := by
    obtain ⟨r,hr,hlink,-⟩ := h.created n o i ho hfor
    rw [hrow] at hr
    cases hr
    exact hlink
  constructor
  case single =>
    intro j m n r o p hr hkey ho hp hi hj
    have hji : j = i := h.keys j i r row hr hrow hkey
    rw [hji] at hj
    have hm := own ho hi
    rw [own hp hj] at hm
    exact (Option.some.inj hm).symm
  case linked =>
    intro n o ho hfor
    have hlink := own ho hfor
    exact ⟨hlink,hun i row hrow (by rw [hlink]; rfl)⟩
  case answered =>
    intro k c answer hc hkey hphase
    have hbacked := h.calls k c hc
    rw [hphase] at hbacked
    obtain ⟨j,r,hr,hclaims,hlink⟩ := hbacked
    have hji : j = i := h.keys j i r row hr hrow (hclaims.1.trans hkey)
    rw [hji,hrow] at hr
    cases hr
    exact hlink
  case completes =>
    intro n request callerUserId now hlink hkey hprint hactive
    exact oneMore_completes h hun hrow hlink hkey hprint hactive
  case refused =>
    intro k c now reply hc hkey hprint
    exact other_payload h hrow hc hkey hprint now reply

/-- In every run in which no baseline comes after another one of its claim. -/
theorem provisions_once (staleSeconds : ℤ) (as : List Action)
    (h : Run.Conforms (step staleSeconds) (fun w a => w.ahead a) as initial) (i : ℕ)
    (row : RequestRow)
    (hrow : (Run.exec (step staleSeconds) as initial).requests[i]? = some row) :
    Provisioned staleSeconds (Run.exec (step staleSeconds) as initial) i row := by
  have hsound : Sound (Run.exec (step staleSeconds) as initial) :=
    Run.exec_invariant (step staleSeconds) Sound (step_sound staleSeconds) as initial initial_sound
  have hun : Unfailed (Run.exec (step staleSeconds) as initial) := by
    refine Run.exec_conforming (step staleSeconds) (fun w a => w.ahead a) Unfailed
      (step_unfailed staleSeconds) as initial h ?_
    intro j r hr
    cases hr
  exact hsound.provisioned hun hrow

def sampleRequest : OnboardingRequest :=
  ⟨"onboard-0001",⟨"acme","Acme","Acme Inc","US","UTC","en-US",none⟩⟩

def resumedRun : List Action :=
  [.setActiveUsers [7],.provision sampleRequest 7 true,.advance 0 0 .done,.advance 0 0 .done,
    .advance 0 1 (.lost true)]

theorem resumedRun_provisioned :
    (∃ row, (Run.exec (step 60) resumedRun initial).requests[0]? = some row ∧
      row.organizationId = some 0 ∧ row.status = .pending) ∧
      ∀ row, (Run.exec (step 60) resumedRun initial).requests[0]? = some row →
        Provisioned 60 (Run.exec (step 60) resumedRun initial) 0 row :=
  ⟨⟨_,rfl,rfl,rfl⟩,provisions_once 60 resumedRun (by decide +kernel) 0⟩

/-- The first worker is slower than the staleness limit. A second call takes the claim
up and completes it, then the first one goes on. -/
def overtakenClaim : List Action :=
  [.setActiveUsers [7],.provision sampleRequest 7 true,.advance 0 0 .done,.advance 0 0 .done,
    .provision sampleRequest 7 true,.advance 1 90 .done,.advance 1 90 .done,.advance 1 90 .done,
    .advance 1 91 .done,.advance 1 92 .done,.advance 0 93 .done]

/-- The claim is failed although its organization exists and was answered with, and
one more call is refused for good. -/
theorem overtakenClaim_fails :
    ∃ row, (Run.exec (step 60) overtakenClaim initial).requests[0]? = some row ∧
      row.organizationId = some 0 ∧ row.status = .failed ∧
      (Run.exec (step 60) overtakenClaim initial).organizations[0]? =
        some ⟨"acme",some 7,some 0⟩ ∧
      (Run.exec (step 60) (overtakenClaim++
        [.provision sampleRequest 7 true,.advance 2 99 .done,.advance 2 99 .done,
          .advance 2 99 .done]) initial).calls[2]? =
        some ⟨sampleRequest,7,.ended (.error (.failed "NXS_ORG_CONFLICT"))⟩ :=
  ⟨_,rfl,rfl,rfl,rfl,rfl⟩

end World
end NexusAi.Provisioning
