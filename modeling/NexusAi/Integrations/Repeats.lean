import NexusAi.Integrations.Executor

/-!
# Requests that are made again

An operation that is not idempotent is tried again after a failure to connect. The
executor also takes errors on an established connection for such a failure, and a redirect
that leads to an unreachable host after the request has been answered once. There are no
other patterns in which an upstream gets the request more than once. The time and the
jitter of the backoff are inputs.
-/

namespace NexusAi.Integrations

inductive RetryClass where
  | safe | idempotent | nonIdempotent

structure RetrySettings where
  maxAttempts : ℕ
  (maxDelay maxElapsed : ℚ)

structure RetryDecision where
  shouldRetry : Bool
  delay : ℚ
  reason : String

def RetryClass.value : RetryClass → String
  | .safe => "SAFE"
  | .idempotent => "IDEMPOTENT"
  | .nonIdempotent => "NON_IDEMPOTENT"

def FailureKind.value : FailureKind → String
  | .preSend => "PRE_SEND"
  | .inFlight => "IN_FLIGHT"
  | .upstream5xx => "UPSTREAM_5XX"
  | .upstream429 => "UPSTREAM_429"
  | .terminal => "TERMINAL"

def retryable (retryClass : RetryClass) (failure : FailureKind) : Bool :=
  match failure, retryClass with
  | .preSend, _ => true
  | _, .safe => true
  | _, .idempotent => failure ∈ [.inFlight,.upstream5xx,.upstream429]
  | _, .nonIdempotent => false

def RetrySettings.decide (settings : RetrySettings) (retryClass : RetryClass)
    (failure : FailureKind) (attempt : ℕ) (elapsed : ℚ) (retryAfter : Option ℚ) (backoff : ℚ) :
    RetryDecision :=
  if settings.maxAttempts ≤ attempt then ⟨false,0,"max_attempts"⟩
  else if settings.maxElapsed ≤ elapsed then ⟨false,0,"max_elapsed"⟩
  else if failure = .terminal then ⟨false,0,"terminal"⟩
  else if !retryable retryClass failure then
    ⟨false,0,"not_retryable:"++retryClass.value++":"++failure.value⟩
  else
    let delay := match retryAfter with
      | some after => max 0 (min after settings.maxDelay)
      | none => backoff
    if settings.maxElapsed ≤ elapsed+delay then ⟨false,0,"would_exceed_budget"⟩
    else ⟨true,delay,"retry"⟩

inductive Verdict where
  | accepted
  | serverError (error : IntegrationError)
  | rateLimited (error : IntegrationError) (retryAfter : Option ℚ)
  | refused (error : IntegrationError)

structure Attempt where
  raw : Option RawResponse
  failureKind : Option FailureKind
  error : Option IntegrationError
  retryAfter : Option ℚ

structure Operation where
  retryClass : RetryClass
  executor : ExecutorSettings
  retry : RetrySettings
  join : Url → String → Url
  validate : RawResponse → Verdict

/-- The time that has passed when an attempt is judged, and the backoff that is drawn. -/
structure Timing where
  elapsed : ℕ → ℚ
  backoff : ℕ → ℚ

namespace Operation

variable (op : Operation)

def judge : Except SendError RawResponse → Attempt
  | .error (.failure kind error) => ⟨none,some kind,some error,none⟩
  | .error (.raised error) => ⟨none,some .terminal,some error,none⟩
  | .ok raw =>
    match op.validate raw with
    | .accepted => ⟨some raw,none,none,none⟩
    | .serverError error => ⟨some raw,some .upstream5xx,some error,none⟩
    | .rateLimited error retryAfter => ⟨some raw,some .upstream429,some error,retryAfter⟩
    | .refused error => ⟨some raw,some .terminal,some error,none⟩

def attempt (outbound : OutboundRequest) (upstream : ℕ → HopOutcome) : Attempt × List Wire :=
  let sent := send op.join op.executor outbound upstream
  (op.judge sent.1,sent.2)

def decision (timing : Timing) (outcome : Attempt) (n : ℕ) : Bool :=
  match outcome.failureKind with
  | none => false
  | some kind => (op.retry.decide op.retryClass kind (n+1) (timing.elapsed n) outcome.retryAfter
      (timing.backoff n)).shouldRetry

/-- The attempts from the `n`th on, each with the requests that it made. The upstreams may
answer every attempt in another way. -/
def attempts (outbound : OutboundRequest) (upstreams : ℕ → ℕ → HopOutcome) (timing : Timing) :
    ℕ → ℕ → List (Attempt × List Wire)
  | 0, _ => []
  | left+1, n =>
    let made := op.attempt outbound (upstreams n)
    if op.decision timing made.1 n then made::attempts outbound upstreams timing left (n+1)
    else [made]

def execute (outbound : OutboundRequest) (upstreams : ℕ → ℕ → HopOutcome) (timing : Timing) :
    List (Attempt × List Wire) :=
  op.attempts outbound upstreams timing op.retry.maxAttempts 0

end Operation

/-- A further attempt is made only after attempts of which no byte was transmitted. -/
def NonRepeating (log : List (Attempt × List Wire)) : Prop :=
  ∀ (i : ℕ) made, log[i]? = some made → i+1 < log.length → ∀ w ∈ made.2, w.transmitted = false

/-- A failure that the executor takes for one of the connection. -/
def HopOutcome.unconnected (outcome : HopOutcome) : Bool :=
  match outcome with
  | .connectTimeout | .connectError false | .networkError _ false _ => true
  | _ => false

def HopOutcome.redirects (outcome : HopOutcome) : Bool :=
  match outcome with
  | .response r => isRedirect r.status && r.target.isSome
  | _ => false

def Early (upstream : ℕ → HopOutcome) : Prop :=
  (upstream 0).unconnected ∧ (upstream 0).transmitted = false

/-- After redirects that were followed, or after the request had begun to leave, a hop fails
in a way that the executor takes for a failure to connect. -/
def Late (maxRedirects : ℕ) (upstream : ℕ → HopOutcome) : Prop :=
  ∃ hop ≤ maxRedirects, (∀ i < hop, (upstream i).redirects) ∧
    (upstream hop).unconnected ∧ (0 < hop ∨ (upstream hop).transmitted)

def sendable (settings : ExecutorSettings) (request : OutboundRequest) : Bool :=
  (request.body.getD []).length ≤ settings.maxRequestBytes &&
    (requestHeaders settings request).isOk

section Hops

variable {join : Url → String → Url} {settings : ExecutorSettings} {request : OutboundRequest}
variable {headers : Headers} {upstream : ℕ → HopOutcome}

theorem hopResponse_preSend {outcome : HopOutcome} :
    (∃ error, hopResponse outcome = .error (.failure .preSend error)) ↔
      outcome.unconnected := by
  cases outcome with
  | connectError tls | networkError _ tls => cases tls <;> simp [hopResponse,HopOutcome.unconnected]
  | _ => simp [hopResponse,HopOutcome.unconnected]

theorem answer_preSend (url : Url) (response : Response) (error : IntegrationError) :
    answer settings url response ≠ .error (.failure .preSend error) := by
  unfold answer readBounded
  cases response.body with
  | complete bytes => by_cases h : settings.maxResponseBytes < bytes.length <;> simp [h,bind,
      Except.bind,pure,Except.pure]
  | dropped | cut => simp [bind,Except.bind]

/-- The hops from one on fail to connect after so many redirects. -/
def FailsAfter (upstream : ℕ → HopOutcome) (hop n : ℕ) : Prop :=
  (∀ i < n, (upstream (hop+i)).redirects) ∧ (upstream (hop+n)).unconnected

theorem failsAfter_succ {hop n : ℕ} : FailsAfter upstream hop (n+1) ↔
    (upstream hop).redirects ∧ FailsAfter upstream (hop+1) n := by
  unfold FailsAfter
  constructor
  · rintro ⟨hall,hlast⟩
    refine ⟨hall 0 (by omega),fun i hi => ?_,?_⟩
    · have := hall (i+1) (by omega)
      rwa [show hop+(i+1) = hop+1+i by omega] at this
    · rwa [show hop+(n+1) = hop+1+n by omega] at hlast
  · rintro ⟨hfirst,hall,hlast⟩
    refine ⟨fun i hi => ?_,?_⟩
    · cases i with
      | zero => exact hfirst
      | succ i =>
        have := hall i (by omega)
        rwa [show hop+1+i = hop+(i+1) by omega] at this
    · rwa [show hop+1+n = hop+(n+1) by omega] at hlast

theorem failsAfter_zero {hop : ℕ} :
    FailsAfter upstream hop 0 ↔ (upstream hop).unconnected := by
  simp [FailsAfter]

theorem redirects_follow {hop : ℕ} (h : (upstream hop).redirects) :
    ∃ response location, upstream hop = .response response ∧ isRedirect response.status ∧
      response.target = some location := by
  cases houtcome : upstream hop with
  | response response =>
    rw [houtcome] at h
    simp only [HopOutcome.redirects,Bool.and_eq_true] at h
    obtain ⟨location,hlocation⟩ := Option.isSome_iff_exists.mp h.2
    exact ⟨response,location,rfl,h.1,hlocation⟩
  | _ =>
    rw [houtcome] at h
    cases h

theorem sendHops_end {left hop : ℕ} (h : (upstream hop).redirects = false ∨ left = 0) (url : Url) :
    ((∃ error, (sendHops join settings request headers upstream left hop url).1 =
      .error (.failure .preSend error)) ↔ (upstream hop).unconnected) := by
  cases hresponse : hopResponse (upstream hop) with
  | error =>
    rw [← hopResponse_preSend,sendHops_error hresponse,hresponse]
    simp
  | ok response =>
    have houtcome := hopResponse_ok.mp hresponse
    have hno : (upstream hop).unconnected = false := by rw [houtcome]; rfl
    rw [hno]
    cases hstatus : isRedirect response.status with
    | false =>
      rw [sendHops_answer houtcome hstatus]
      simpa using answer_preSend url response
    | true =>
      have hstop : response.target = none ∨ left = 0 := by
        refine h.imp_left fun hredirects => ?_
        simpa [houtcome,HopOutcome.redirects,hstatus] using hredirects
      rw [sendHops_refused houtcome hstatus hstop]
      simp

theorem sendHops_preSend (left hop : ℕ) (url : Url) :
    (∃ error, (sendHops join settings request headers upstream left hop url).1 =
      .error (.failure .preSend error)) ↔ ∃ n ≤ left, FailsAfter upstream hop n := by
  induction left generalizing hop url with
  | zero =>
    rw [sendHops_end (.inr rfl)]
    simp [failsAfter_zero]
  | succ _ ih =>
    cases hredirects : (upstream hop).redirects with
    | false =>
      rw [sendHops_end (.inl hredirects),← failsAfter_zero]
      constructor
      · exact fun h => ⟨0,by omega,h⟩
      · rintro ⟨n,-,hn⟩
        cases n with
        | zero => exact hn
        | succ =>
          rw [failsAfter_succ,hredirects] at hn
          exact absurd hn.1 (by simp)
    | true =>
      obtain ⟨_,_,houtcome,hstatus,htarget⟩ := redirects_follow hredirects
      rw [sendHops_follow houtcome hstatus htarget,ih]
      constructor
      · rintro ⟨n,_,hfails⟩
        exact ⟨n+1,by omega,failsAfter_succ.mpr ⟨hredirects,hfails⟩⟩
      · rintro ⟨n,_,hfails⟩
        cases n with
        | zero =>
          rw [failsAfter_zero,houtcome] at hfails
          cases hfails
        | succ n => exact ⟨n,by omega,(failsAfter_succ.mp hfails).2⟩

theorem sendHops_transmitted {left hop n : ℕ} (hn : n ≤ left) (h : FailsAfter upstream hop n)
    (url : Url) :
    (∃ w ∈ (sendHops join settings request headers upstream left hop url).2,
      w.transmitted) ↔ 0 < n ∨ (upstream (hop+n)).transmitted := by
  cases n with
  | zero =>
    obtain ⟨_,herror⟩ := hopResponse_preSend.mpr (failsAfter_zero.mp h)
    rw [sendHops_error herror]
    simp [wireOf]
  | succ =>
    obtain ⟨hredirects,-⟩ := failsAfter_succ.mp h
    obtain ⟨_,_,houtcome,hstatus,htarget⟩ := redirects_follow hredirects
    obtain ⟨left,rfl⟩ : ∃ m, left = m+1 := ⟨left-1,by omega⟩
    rw [sendHops_follow houtcome hstatus htarget]
    simp [wireOf,houtcome,HopOutcome.transmitted]

end Hops

namespace Operation

variable {op : Operation} {outbound : OutboundRequest}

theorem judge_preSend {result : Except SendError RawResponse} :
    (op.judge result).failureKind = some .preSend ↔
      ∃ error, result = .error (.failure .preSend error) := by
  cases result with
  | error error => cases error <;> simp [judge]
  | ok raw => cases hverdict : op.validate raw <;> simp [judge,hverdict]

theorem judge_retryAfter {result : Except SendError RawResponse}
    (h : (op.judge result).failureKind = some .preSend) : (op.judge result).retryAfter = none := by
  obtain ⟨_,rfl⟩ := judge_preSend.mp h
  rfl

theorem attempt_preSend (upstream : ℕ → HopOutcome) :
    (op.attempt outbound upstream).1.failureKind = some .preSend ↔
      sendable op.executor outbound ∧
        ∃ n ≤ op.executor.maxRedirects, FailsAfter upstream 0 n := by
  rw [attempt,judge_preSend]
  unfold send sendable
  by_cases hbody : op.executor.maxRequestBytes < (outbound.body.getD []).length
  · simp [hbody,Nat.not_le.mpr hbody]
  · rw [if_neg hbody]
    cases hheaders : requestHeaders op.executor outbound with
    | error => simp [Except.isOk,Except.toBool]
    | ok =>
      simp only [sendHops_preSend]
      simp [Nat.not_lt.mp hbody,Except.isOk,Except.toBool]

variable {upstream : ℕ → HopOutcome}

theorem attempt_transmitted {n : ℕ}
    (hsend : sendable op.executor outbound) (hn : n ≤ op.executor.maxRedirects)
    (h : FailsAfter upstream 0 n) :
    (∃ w ∈ (op.attempt outbound upstream).2, w.transmitted) ↔
      0 < n ∨ (upstream n).transmitted := by
  simp only [sendable,Bool.and_eq_true,decide_eq_true_eq] at hsend
  show (∃ w ∈ (send op.join op.executor outbound upstream).2, w.transmitted) ↔ _
  unfold send
  rw [if_neg (by omega)]
  cases hheaders : requestHeaders op.executor outbound with
  | error =>
    rw [hheaders] at hsend
    exact absurd hsend.2 (by simp [Except.isOk,Except.toBool])
  | ok =>
    simp only
    rw [sendHops_transmitted hn h,Nat.zero_add]

theorem decision_preSend (hclass : op.retryClass = .nonIdempotent) {timing : Timing}
    {outcome : Attempt} {n : ℕ} (h : op.decision timing outcome n) :
    outcome.failureKind = some .preSend ∧ n+1 < op.retry.maxAttempts := by
  unfold decision at h
  cases hkind : outcome.failureKind with
  | none =>
    rw [hkind] at h
    cases h
  | some kind =>
    rw [hkind] at h
    simp only [RetrySettings.decide,hclass] at h
    split_ifs at h with hmax _ _ hretryable
    refine ⟨?_,by omega⟩
    cases kind <;> first | rfl | exact absurd rfl hretryable

def instant : Timing := ⟨fun _ => 0,fun _ => 0⟩

theorem decision_instant (hbudget : 0 < op.retry.maxElapsed) {n : ℕ}
    (hkind : (op.attempt outbound upstream).1.failureKind = some .preSend)
    (hn : n+1 < op.retry.maxAttempts) :
    op.decision instant (op.attempt outbound upstream).1 n := by
  have hmax : ¬ op.retry.maxAttempts ≤ n+1 := by omega
  have hafter : (op.attempt outbound upstream).1.retryAfter = none := judge_retryAfter hkind
  simp [decision,hkind,hafter,RetrySettings.decide,retryable,instant,hmax,
    not_le.mpr hbudget]

section Log

variable {upstreams : ℕ → ℕ → HopOutcome} {timing : Timing}

/-- The attempts that are made are those of the upstreams in turn, and every one but the
last was decided to be tried again. -/
theorem attempts_getElem {left n i : ℕ} {made : Attempt × List Wire}
    (h : (op.attempts outbound upstreams timing left n)[i]? = some made) :
    made = op.attempt outbound (upstreams (n+i)) ∧
      (i+1 < (op.attempts outbound upstreams timing left n).length → ∀ j ≤ i,
        op.decision timing (op.attempt outbound (upstreams (n+j))).1 (n+j)) := by
  induction left generalizing n i with
  | zero => cases h
  | succ _ ih =>
    unfold attempts at h ⊢
    simp only at h ⊢
    split_ifs at h ⊢ with hagain
    · cases i with
      | zero =>
        refine ⟨(Option.some.inj h).symm,fun _ j hj => ?_⟩
        rw [Nat.le_zero.mp hj]
        exact hagain
      | succ i =>
        obtain ⟨hmade,hbefore⟩ := ih (n := n+1) (i := i) h
        refine ⟨by rw [hmade,Nat.add_right_comm,Nat.add_assoc],fun hlt j hj => ?_⟩
        cases j with
        | zero => exact hagain
        | succ j =>
          rw [← Nat.add_assoc,Nat.add_right_comm]
          exact hbefore (by simpa using hlt) j (by omega)
    · cases i with
      | zero => exact ⟨(Option.some.inj h).symm,fun hlt => absurd hlt (by simp)⟩
      | succ => cases h

theorem attempts_length (left : ℕ) {n i : ℕ} (hleft : i+1 < left)
    (h : ∀ j ≤ i, op.decision timing (op.attempt outbound (upstreams (n+j))).1 (n+j)) :
    i+1 < (op.attempts outbound upstreams timing left n).length := by
  induction i generalizing left n with
  | zero =>
    obtain ⟨left,rfl⟩ : ∃ m, left = m+2 := ⟨left-2,by omega⟩
    have hfirst := h 0 le_rfl
    simp only [Nat.add_zero] at hfirst
    unfold attempts
    simp only [hfirst,if_true,List.length_cons]
    unfold attempts
    simp only
    split_ifs <;> simp
  | succ _ ih =>
    obtain ⟨left,rfl⟩ : ∃ m, left = m+1 := ⟨left-1,by omega⟩
    have hfirst := h 0 (by omega)
    simp only [Nat.add_zero] at hfirst
    unfold attempts
    simp only [hfirst,if_true,List.length_cons]
    have hrest := ih left (n := n+1) (by omega) fun j hj => by
      rw [Nat.add_right_comm,Nat.add_assoc]
      exact h (j+1) (by omega)
    omega

end Log

theorem failsAfter_early (h : Early upstream) :
    FailsAfter upstream 0 0 := failsAfter_zero.mpr h.1

theorem late_iff {m : ℕ} :
    Late m upstream ↔
      ∃ n ≤ m, FailsAfter upstream 0 n ∧ (0 < n ∨ (upstream n).transmitted) := by
  simp only [Late,FailsAfter,Nat.zero_add,and_assoc]

theorem early_of_not_late {m n : ℕ} (hn : n ≤ m)
    (hfails : FailsAfter upstream 0 n) (h : ¬ Late m upstream) : n = 0 ∧ Early upstream := by
  have hnot : ¬ (0 < n ∨ (upstream n).transmitted) :=
    fun hlate => h (late_iff.mpr ⟨n,hn,hfails,hlate⟩)
  obtain rfl : n = 0 := by
    by_contra hne
    exact hnot (.inl (by omega))
  refine ⟨rfl,failsAfter_zero.mp hfails,?_⟩
  by_contra htransmitted
  exact hnot (.inr (by simpa using htransmitted))

/-- An operation that is not idempotent is never repeated, whatever the times, exactly if the
first attempt of its upstreams that is not an early failure to connect is not a late one. -/
theorem nonRepeating_iff (op : Operation) (hclass : op.retryClass = .nonIdempotent)
    (hbudget : 0 < op.retry.maxElapsed) (outbound : OutboundRequest)
    (upstreams : ℕ → ℕ → HopOutcome) :
    (∀ timing, NonRepeating (op.execute outbound upstreams timing)) ↔
      (sendable op.executor outbound → ∀ k, k+1 < op.retry.maxAttempts →
        (∀ j < k, Early (upstreams j)) → ¬ Late op.executor.maxRedirects (upstreams k)) := by
  constructor
  · intro h hsend k hk hearly hlate
    obtain ⟨n,hn,hfails,htransmitted⟩ := late_iff.mp hlate
    -- without delays every one of these attempts is followed by another
    have hagain : ∀ j ≤ k, op.decision instant (op.attempt outbound (upstreams j)).1 j := by
      intro j hj
      refine decision_instant hbudget ((attempt_preSend _).mpr ⟨hsend,?_⟩) (by omega)
      rcases Nat.lt_or_eq_of_le hj with hlt | rfl
      · exact ⟨0,Nat.zero_le _,failsAfter_early (hearly j hlt)⟩
      · exact ⟨n,hn,hfails⟩
    have hlength : k+1 < (op.execute outbound upstreams instant).length :=
      attempts_length op.retry.maxAttempts hk (by simpa using hagain)
    obtain ⟨made,hmade⟩ : ∃ made, (op.execute outbound upstreams instant)[k]? = some made :=
      ⟨_,List.getElem?_eq_getElem (by omega)⟩
    obtain ⟨w,hw,hsent⟩ := (attempt_transmitted hsend hn hfails).mpr htransmitted
    have hattempt := (attempts_getElem hmade).1
    rw [Nat.zero_add] at hattempt
    have hunsent := h instant k made hmade hlength w (by rw [hattempt]; exact hw)
    rw [hsent] at hunsent
    cases hunsent
  · intro h timing i made hmade hlength w hw
    obtain ⟨hattempt,hagain⟩ := attempts_getElem hmade
    have hagain := hagain hlength
    simp only [Nat.zero_add] at hattempt hagain
    have hpre : ∀ j ≤ i, sendable op.executor outbound ∧ j+1 < op.retry.maxAttempts ∧
        ∃ n ≤ op.executor.maxRedirects, FailsAfter (upstreams j) 0 n := by
      intro j hj
      obtain ⟨hkind,hmax⟩ := decision_preSend hclass (hagain j hj)
      obtain ⟨hsend,hfails⟩ := (attempt_preSend _).mp hkind
      exact ⟨hsend,hmax,hfails⟩
    have hearly : ∀ j ≤ i, Early (upstreams j) := by
      intro j
      induction j using Nat.strong_induction_on with
      | _ j ih =>
        intro hj
        obtain ⟨hsend,hmax,n,hn,hfails⟩ := hpre j hj
        have hlate := h hsend j hmax fun m hm => ih m hm (by omega)
        exact (early_of_not_late hn hfails hlate).2
    obtain ⟨hsend,-,-⟩ := hpre i le_rfl
    rw [hattempt] at hw
    by_contra hne
    have hsome := (attempt_transmitted hsend (Nat.zero_le _) (failsAfter_early (hearly i le_rfl))).mp
      ⟨w,hw,by simpa using hne⟩
    rw [(hearly i le_rfl).2] at hsome
    simp at hsome

section Samples

def samplePost : OutboundRequest := ⟨"POST",⟨"https","api.x",443,"/pay",[]⟩,[],some [1],none⟩

def sampleOperation : Operation where
  retryClass := .nonIdempotent
  executor := ⟨1,1024,1024,"agent"⟩
  retry := ⟨3,10,30⟩
  join url location := ⟨url.scheme,location,url.port,"/",[]⟩
  validate _ := .accepted

def sampleAnswer : HopOutcome := .response ⟨200,none,[],.complete []⟩

/-- The connection is refused once, then the request is answered. -/
def refusedOnce : ℕ → ℕ → HopOutcome
  | 0, _ => .connectError false
  | _, _ => sampleAnswer

/-- The connection breaks after the request was written, then the request is answered. -/
def resetOnce : ℕ → ℕ → HopOutcome
  | 0, _ => .networkError .read false true
  | _, _ => sampleAnswer

/-- A redirect leads to a host that cannot be reached, then the request is answered. -/
def strandedOnce : ℕ → ℕ → HopOutcome
  | 0, 0 => .response ⟨307,some "other.x",[],.complete []⟩
  | 0, _ => .connectError false
  | _, _ => sampleAnswer

theorem refusedOnce_nonRepeating :
    sampleOperation.retryClass = .nonIdempotent ∧ 0 < sampleOperation.retry.maxElapsed ∧
    (∀ timing, NonRepeating (sampleOperation.execute samplePost refusedOnce timing)) ∧
    (sampleOperation.execute samplePost refusedOnce instant).length = 2 := by
  have hbudget : 0 < sampleOperation.retry.maxElapsed := by norm_num [sampleOperation]
  refine ⟨rfl,hbudget,(nonRepeating_iff sampleOperation rfl hbudget samplePost refusedOnce).mpr ?_,
    by decide +kernel⟩
  intro _ k _ _
  rintro ⟨hop,-,hredirects,hunconnected,hlate⟩
  cases k with
  | zero =>
    cases hop with
    | zero => exact absurd hlate (by decide)
    | succ => exact absurd (hredirects 0 (by omega)) (by decide)
  | succ => cases hunconnected

/-- The upstream gets the request twice: after a read error on an established connection, and
after a redirect to a host that cannot be reached. -/
theorem brokenOnce_repeats :
    (sampleOperation.execute samplePost resetOnce instant).map
        (fun made => made.2.map fun w => (w.url.host,w.transmitted)) =
      [[("api.x",true)],[("api.x",true)]] ∧
    (sampleOperation.execute samplePost strandedOnce instant).map
        (fun made => made.2.map fun w => (w.url.host,w.transmitted)) =
      [[("api.x",true),("other.x",false)],[("api.x",true)]] := by
  decide +kernel

end Samples

end Operation

end NexusAi.Integrations
