import NexusAi.Lib.Run
import NexusAi.Lib.Table

/-!
# The circuit breaker

A call asks the breaker of its key before it prepares its credentials, and reports to it
once the exchange has succeeded or finally failed. A call that ends in between reports
nothing. The trials that a half-open breaker has counted are calls still under way, as
long as no trial ends without a report.
-/

namespace NexusAi.Integrations

inductive CircuitState where
  | closed | opened | halfOpen
  deriving DecidableEq

structure Breaker where
  state : CircuitState
  failures : ℕ
  openedAt : ℚ
  halfOpenCalls : ℕ
  deriving DecidableEq

structure CircuitSettings where
  failureThreshold : ℕ
  resetSeconds : ℚ
  halfOpenMaxCalls : ℕ
  threshold_bounds : 1 ≤ failureThreshold ∧ failureThreshold ≤ 100
  reset_bounds : 0 < resetSeconds ∧ resetSeconds ≤ 3600
  halfOpen_bounds : 1 ≤ halfOpenMaxCalls ∧ halfOpenMaxCalls ≤ 20

namespace Breaker

def fresh : Breaker := ⟨.closed,0,0,0⟩

def beforeCall (settings : CircuitSettings) (now : ℚ) (b : Breaker) : Breaker × Option String :=
  if b.state = .opened ∧ now-b.openedAt < settings.resetSeconds then
    (b,some "the integration circuit is open after repeated failures")
  else
    let b := if b.state = .opened then { b with
      state := .halfOpen
      halfOpenCalls := 0 } else b
    if b.state = .halfOpen then
      if settings.halfOpenMaxCalls ≤ b.halfOpenCalls then
        (b,some "the integration circuit is verifying recovery; retry shortly")
      else ({ b with halfOpenCalls := b.halfOpenCalls+1 },none)
    else (b,none)

def recordSuccess (b : Breaker) : Breaker := { b with
  failures := 0
  state := .closed
  halfOpenCalls := 0 }

def recordFailure (settings : CircuitSettings) (now : ℚ) (b : Breaker) : Breaker :=
  if b.state = .halfOpen then { b with
    state := .opened
    openedAt := now }
  else if settings.failureThreshold ≤ b.failures+1 then { b with
    failures := b.failures+1
    state := .opened
    openedAt := now }
  else { b with failures := b.failures+1 }

end Breaker

inductive Ending where
  | refused (detail : String)
  | succeeded
  | upstreamFailed
  | unauthorized
  | cancelled

/-- A call that was let through is a trial when the breaker was half open. -/
inductive CallPhase where
  | preparing (trial : Bool)
  | attempting (trial : Bool) (attempt : ℕ)
  | ended (ending : Ending)

def CallPhase.running : CallPhase → Bool
  | .ended _ => false
  | _ => true

def CallPhase.trial : CallPhase → Bool
  | .preparing trial | .attempting trial _ => trial
  | .ended _ => false

structure CircuitCall (K : Type) where
  key : K
  phase : CallPhase

inductive ExchangeResult where
  | succeeded | retried | failed

inductive CircuitAction (K : Type) where
  | execute (key : K)
  | prepare (call : ℕ) (authorized : Bool)
  | exchange (call : ℕ) (result : ExchangeResult)
  | cancel (call : ℕ)
  | pass (seconds : ℚ≥0)

def maxKeys : ℕ := 50000

structure Circuits (K : Type) where
  breakers : List (K × Breaker)
  clock : ℚ
  calls : List (CircuitCall K)
  /-- The recorded failures, the last one first. -/
  failed : List (K × ℚ)

namespace Circuits

variable {K : Type} [DecidableEq K]

def initial : Circuits K := ⟨[],0,[],[]⟩

/-- Drop a breaker that is closed, or else the oldest. -/
def evict (breakers : List (K × Breaker)) : List (K × Breaker) :=
  match (breakers.find? fun e => e.2.state = .closed).or breakers.head? with
  | some calm => breakers.filter fun e => e.1 ≠ calm.1
  | none => breakers

def ensure (key : K) (breakers : List (K × Breaker)) : List (K × Breaker) :=
  if (Table.find Prod.fst key breakers).isSome then breakers
  else (if maxKeys ≤ breakers.length then evict breakers else breakers)++[(key,.fresh)]

/-- The breaker of a key, which is a fresh one where there is none. -/
def breaker (c : Circuits K) (key : K) : Breaker :=
  ((Table.find Prod.fst key c.breakers).map Prod.snd).getD .fresh

def report (c : Circuits K) (key : K) (b : Breaker) : Circuits K :=
  { c with breakers := Table.put Prod.fst (key,b) (ensure key c.breakers) }

def enter (c : Circuits K) (i : ℕ) (key : K) (phase : CallPhase) : Circuits K :=
  { c with calls := c.calls.set i ⟨key,phase⟩ }

def executeStep (settings : CircuitSettings) (c : Circuits K) (key : K) : Circuits K :=
  let (b,refusal) := (c.breaker key).beforeCall settings c.clock
  let phase := match refusal with
    | some detail => CallPhase.ended (.refused detail)
    | none => .preparing (decide (b.state = .halfOpen))
  let c := c.report key b
  { c with calls := c.calls++[⟨key,phase⟩] }

def exchangeStep (settings : CircuitSettings) (c : Circuits K) (i : ℕ) (key : K) (trial : Bool)
    (attempt : ℕ) : ExchangeResult → Circuits K
  | .succeeded => (c.report key (c.breaker key).recordSuccess).enter i key (.ended .succeeded)
  | .retried => c.enter i key (.attempting trial (attempt+1))
  | .failed =>
    { c.report key ((c.breaker key).recordFailure settings c.clock) with
      failed := (key,c.clock)::c.failed }.enter i key (.ended .upstreamFailed)

def step (settings : CircuitSettings) (c : Circuits K) : CircuitAction K → Circuits K
  | .execute key => c.executeStep settings key
  | .prepare i authorized =>
    match c.calls[i]? with
    | some ⟨key,.preparing trial⟩ =>
      c.enter i key (if authorized then .attempting trial 1 else .ended .unauthorized)
    | _ => c
  | .exchange i result =>
    match c.calls[i]? with
    | some ⟨key,.attempting trial attempt⟩ => c.exchangeStep settings i key trial attempt result
    | _ => c
  | .cancel i =>
    match c.calls[i]? with
    | some ⟨key,phase⟩ => if phase.running then c.enter i key (.ended .cancelled) else c
    | none => c
  | .pass seconds => { c with clock := c.clock+seconds }

def lastFailure (c : Circuits K) (key : K) : Option ℚ :=
  (Table.find Prod.fst key c.failed).map Prod.snd

/-- No trial ends without a report while its breaker is half open. -/
def reported (c : Circuits K) : CircuitAction K → Bool
  | .prepare i false | .cancel i =>
    match c.calls[i]? with
    | some call => !call.phase.trial || (c.breaker call.key).state ≠ .halfOpen
    | none => true
  | _ => true

end Circuits

/-- What a breaker keeps, with the trials under way and the last failure of its key. -/
structure Breaker.Fits (settings : CircuitSettings) (trials : ℕ) (last : Option ℚ) (b : Breaker) :
    Prop where
  trials : b.state = .halfOpen → b.halfOpenCalls ≤ trials
  opened : b.state = .opened → last = some b.openedAt
  failures : b.state ≠ .closed → settings.failureThreshold ≤ b.failures

namespace Breaker

variable {settings : CircuitSettings} {trials : ℕ} {last : Option ℚ} {b : Breaker}

theorem Fits.of_closed (h : b.state = .closed) : b.Fits settings trials last := by
  constructor <;> simp [h]

theorem beforeCall_closed (now : ℚ) (h : b.state = .closed) :
    b.beforeCall settings now = (b,none) := by
  simp [beforeCall,h]

theorem beforeCall_halfOpen (now : ℚ) (h : b.state = .halfOpen) :
    b.beforeCall settings now = if settings.halfOpenMaxCalls ≤ b.halfOpenCalls then
        (b,some "the integration circuit is verifying recovery; retry shortly")
      else ({ b with halfOpenCalls := b.halfOpenCalls+1 },none) := by
  simp [beforeCall,h]

theorem beforeCall_opened (now : ℚ) (h : b.state = .opened) :
    b.beforeCall settings now = if now-b.openedAt < settings.resetSeconds then
        (b,some "the integration circuit is open after repeated failures")
      else ({ b with
        state := .halfOpen
        halfOpenCalls := 1 },none) := by
  have hpos : ¬settings.halfOpenMaxCalls = 0 := Nat.ne_of_gt settings.halfOpen_bounds.1
  simp [beforeCall,h,hpos]

/-- The trials that a call to the breaker adds. -/
def added (admission : Breaker × Option String) : ℕ :=
  if admission.2 = none ∧ admission.1.state = .halfOpen then 1 else 0

theorem Fits.admits (h : b.Fits settings trials last) (now : ℚ) :
    (b.beforeCall settings now).1.Fits settings
      (trials+added (b.beforeCall settings now)) last := by
  cases hs : b.state with
  | closed =>
    rw [beforeCall_closed now hs]
    exact .of_closed hs
  | halfOpen =>
    have hfull := h.failures (by rw [hs]; simp)
    have hcalls := h.trials hs
    rw [beforeCall_halfOpen now hs]
    split_ifs with hmax
    · exact ⟨fun _ => Nat.le_add_right_of_le hcalls,by simp [hs],fun _ => hfull⟩
    · refine ⟨fun _ => ?_,by simp [hs],fun _ => hfull⟩
      simpa [added,hs] using hcalls
  | opened =>
    have hfull := h.failures (by rw [hs]; simp)
    rw [beforeCall_opened now hs]
    split_ifs with hwindow
    · exact ⟨by simp [hs],h.opened,fun _ => hfull⟩
    · exact ⟨by simp [added],by simp,fun _ => hfull⟩

theorem Fits.fails (h : b.Fits settings trials last) (now : ℚ) (n : ℕ) :
    (b.recordFailure settings now).Fits settings n (some now) := by
  unfold recordFailure
  split_ifs with hhalf hfull
  · refine ⟨by simp,by simp,fun _ => h.failures ?_⟩
    rw [hhalf]
    simp
  · exact ⟨by simp,by simp,fun _ => hfull⟩
  · refine .of_closed ?_
    by_contra hopen
    exact hfull (Nat.le_succ_of_le (h.failures hopen))

/-- Where no trial is under way and the window has passed, the next call is let through. -/
theorem Fits.recovers (h : b.Fits settings 0 last) {now : ℚ}
    (hpassed : ∀ t, last = some t → settings.resetSeconds ≤ now-t) :
    (b.beforeCall settings now).2 = none := by
  cases hs : b.state with
  | closed => rw [beforeCall_closed now hs]
  | halfOpen =>
    have hcalls := h.trials hs
    have hpos := settings.halfOpen_bounds.1
    rw [beforeCall_halfOpen now hs,if_neg (by omega)]
  | opened =>
    have hwindow := hpassed b.openedAt (h.opened hs)
    rw [beforeCall_opened now hs,if_neg (not_lt.mpr hwindow)]

end Breaker

namespace Circuits

variable {K : Type} [DecidableEq K] {settings : CircuitSettings} {c : Circuits K}

theorem find_evict (key : K) (breakers : List (K × Breaker)) :
    Table.find Prod.fst key (evict breakers) = Table.find Prod.fst key breakers ∨
      Table.find Prod.fst key (evict breakers) = none := by
  unfold evict
  split
  · next calm _ =>
    by_cases hkey : key = calm.1
    · refine .inr (List.find?_eq_none.mpr ?_)
      intro e he hfound
      have hne := of_decide_eq_true (List.mem_filter.mp he).2
      exact hne ((of_decide_eq_true hfound).trans hkey)
    · refine .inl ?_
      unfold Table.find
      rw [List.find?_filter]
      congr 1
      funext e
      by_cases he : e.1 = key <;> simp [he,hkey]
  · exact .inl rfl

theorem breaker_report_self (c : Circuits K) (key : K) (b : Breaker) :
    (c.report key b).breaker key = b := by
  unfold report breaker
  rw [Table.find_put,if_pos rfl]
  have hsome : (Table.find Prod.fst key (ensure key c.breakers)).isSome := by
    unfold ensure
    split_ifs with hthere hfull
    · exact hthere
    all_goals rw [Table.find_append,if_pos rfl]; cases Table.find Prod.fst key _ <;> rfl
  obtain ⟨e,he⟩ := Option.isSome_iff_exists.mp hsome
  rw [he]
  rfl

variable {key : K} {i : ℕ} {old new : CallPhase}

theorem breaker_report_other (c : Circuits K) {other : K} (hne : other ≠ key) (b : Breaker) :
    (c.report key b).breaker other = c.breaker other ∨
      (c.report key b).breaker other = .fresh := by
  have hfind : Table.find Prod.fst other (ensure key c.breakers) =
      Table.find Prod.fst other c.breakers ∨
      Table.find Prod.fst other (ensure key c.breakers) = none := by
    unfold ensure
    split_ifs with hthere hfull
    · exact .inl rfl
    · rw [Table.find_append,if_neg hne.symm,Option.or_none]
      exact find_evict other c.breakers
    · rw [Table.find_append,if_neg hne.symm,Option.or_none]
      exact .inl rfl
  unfold report breaker
  rw [Table.find_put,if_neg hne.symm]
  rcases hfind with hfind | hfind
  · exact .inl (by rw [hfind])
  · exact .inr (by rw [hfind]; rfl)

def trials (c : Circuits K) (key : K) : ℕ :=
  c.calls.countP fun call => call.key = key && call.phase.trial

def Sound (settings : CircuitSettings) (c : Circuits K) : Prop :=
  ∀ key, (c.breaker key).Fits settings (c.trials key) (c.lastFailure key)

theorem trials_enter_same (hi : c.calls[i]? = some ⟨key,old⟩) (h : new.trial = old.trial) (k : K) :
    (c.enter i key new).trials k = c.trials k := by
  obtain ⟨hlt,hget⟩ := List.getElem?_eq_some_iff.mp hi
  unfold trials enter
  rw [List.countP_set hlt,hget,h]
  have hcount : (if (key = k && old.trial) then 1 else 0) ≤
      c.calls.countP fun call => call.key = k && call.phase.trial := by
    split_ifs with hold
    · exact List.countP_pos_iff.mpr ⟨_,List.mem_of_getElem? hi,hold⟩
    · exact Nat.zero_le _
  exact Nat.sub_add_cancel hcount

theorem trials_enter_other {k : K} (hi : c.calls[i]? = some ⟨key,old⟩) (hk : k ≠ key) :
    (c.enter i key new).trials k = c.trials k := by
  obtain ⟨hlt,hget⟩ := List.getElem?_eq_some_iff.mp hi
  unfold trials enter
  rw [List.countP_set hlt,hget]
  simp [hk.symm]

section

variable (h : c.Sound settings)

include h

theorem Sound.enters (hi : c.calls[i]? = some ⟨key,old⟩)
    (hok : new.trial = old.trial ∨ (c.breaker key).state ≠ .halfOpen) :
    (c.enter i key new).Sound settings := by
  intro k
  by_cases hsame : (c.enter i key new).trials k = c.trials k
  · exact hsame ▸ h k
  · obtain rfl : k = key := by
      by_contra hk
      exact hsame (trials_enter_other hi hk)
    have hnot := hok.resolve_left fun htrial => hsame (trials_enter_same hi htrial k)
    exact ⟨fun hhalf => absurd hhalf hnot,(h k).opened,(h k).failures⟩

theorem Sound.reports (key : K) {b : Breaker} {c' : Circuits K}
    (hbreakers : c'.breakers = (c.report key b).breakers)
    (hothers : ∀ k, k ≠ key → c'.trials k = c.trials k ∧ c'.lastFailure k = c.lastFailure k)
    (hb : b.Fits settings (c'.trials key) (c'.lastFailure key)) : c'.Sound settings := by
  intro k
  have hbreaker : c'.breaker k = (c.report key b).breaker k := by
    unfold breaker
    rw [hbreakers]
  rw [hbreaker]
  by_cases hk : k = key
  · subst hk
    rw [breaker_report_self]
    exact hb
  · rw [(hothers k hk).1,(hothers k hk).2]
    rcases breaker_report_other c hk b with hsame | hfresh
    · rw [hsame]
      exact h k
    · rw [hfresh]
      exact .of_closed rfl

theorem Sound.executes (key : K) : (c.executeStep settings key).Sound settings := by
  have htrials : ∀ k, (c.executeStep settings key).trials k = c.trials k +
      if k = key then Breaker.added ((c.breaker key).beforeCall settings c.clock) else 0 := by
    intro k
    unfold trials executeStep
    simp only [report,List.countP_append,List.countP_singleton]
    congr 1
    by_cases hk : key = k
    · subst hk
      cases hrefusal : ((c.breaker key).beforeCall settings c.clock).2 <;>
        simp [Breaker.added,hrefusal,CallPhase.trial]
    · simp [hk,Ne.symm hk]
  refine h.reports key rfl ?_ ?_
  · intro k hk
    exact ⟨by rw [htrials,if_neg hk]; rfl,rfl⟩
  · rw [htrials,if_pos rfl]
    exact (h key).admits c.clock

theorem Sound.exchanges {trial : Bool} {attempt : ℕ}
    (hi : c.calls[i]? = some ⟨key,.attempting trial attempt⟩) (result : ExchangeResult) :
    (c.exchangeStep settings i key trial attempt result).Sound settings := by
  cases result with
  | retried => exact h.enters hi (.inl rfl)
  | succeeded =>
    refine h.reports key rfl ?_ (.of_closed rfl)
    exact fun k hk => ⟨trials_enter_other hi hk,rfl⟩
  | failed =>
    refine h.reports key rfl ?_ ?_
    · intro k hk
      refine ⟨trials_enter_other hi hk,?_⟩
      simp [lastFailure,exchangeStep,enter,Table.find,Ne.symm hk]
    · have hlast : (c.exchangeStep settings i key trial attempt .failed).lastFailure key =
          some c.clock := by
        simp [lastFailure,exchangeStep,enter,Table.find]
      rw [hlast]
      exact (h key).fails c.clock _

theorem Sound.step {a : CircuitAction K} (hok : c.reported a) :
    (c.step settings a).Sound settings := by
  cases a with
  | execute key => exact h.executes key
  | prepare _ authorized =>
    simp only [Circuits.step]
    split
    · next key trial hi =>
      cases authorized with
      | true => exact h.enters hi (.inl rfl)
      | false =>
        refine h.enters hi ?_
        cases trial with
        | false => exact .inl rfl
        | true => simpa [reported,hi,CallPhase.trial] using hok
    · exact h
  | exchange _ result =>
    simp only [Circuits.step]
    split
    · next key trial attempt hi => exact h.exchanges hi result
    · exact h
  | cancel =>
    simp only [Circuits.step]
    split
    · next key phase hi =>
      split_ifs
      · refine h.enters hi ?_
        cases htrial : phase.trial with
        | false => exact .inl rfl
        | true => exact .inr (by simpa [reported,hi,htrial] using hok)
      · exact h
    · exact h
  | pass => exact h

end

/-- In every run in which no trial ends without a report under a half-open breaker: once no
call of a key is under way and the reset window has passed since its last failure, the next
call is let through. -/
theorem breaker_recovers (settings : CircuitSettings) (as : List (CircuitAction K))
    (hc : Run.Conforms (step settings) (fun c a => c.reported a) as initial) (key : K) :
    let c := Run.exec (step settings) as initial
    (∀ call ∈ c.calls, call.key = key → call.phase.running = false) →
    (∀ t, c.lastFailure key = some t → settings.resetSeconds ≤ c.clock-t) →
    ((c.breaker key).beforeCall settings c.clock).2 = none := by
  intro c hidle hpassed
  have hsound : c.Sound settings := Run.exec_conforming (step settings) _ (Sound settings)
    (fun _ _ hok h => h.step hok) as initial hc fun _ => .of_closed rfl
  have hnone : c.trials key = 0 := by
    refine List.countP_eq_zero.mpr ?_
    intro call hcall htrial
    obtain ⟨hkey,htrial⟩ := Bool.and_eq_true_iff.mp htrial
    have hended := hidle call hcall (of_decide_eq_true hkey)
    cases hphase : call.phase with
    | ended => rw [hphase] at htrial; cases htrial
    | preparing | attempting => rw [hphase] at hended; cases hended
  exact Breaker.Fits.recovers (hnone ▸ hsound key) hpassed

end Circuits

/-- Two failures open the breaker for half a minute, and one trial goes before it closes. -/
def twiceSettings : CircuitSettings where
  failureThreshold := 2
  resetSeconds := 30
  halfOpenMaxCalls := 1
  threshold_bounds := by decide
  reset_bounds := by decide
  halfOpen_bounds := by decide

def openedRun : List (CircuitAction ℕ) :=
  [.execute 7,.prepare 0 true,.exchange 0 .failed,.execute 7,.prepare 1 true,
    .exchange 1 .failed,.pass 30]

theorem openedRun_recovers :
    let c := Run.exec (Circuits.step twiceSettings) openedRun .initial
    (c.breaker 7).state = .opened ∧ ((c.breaker 7).beforeCall twiceSettings c.clock).2 = none := by
  have hrun := Circuits.breaker_recovers twiceSettings openedRun (by decide +kernel) 7
  exact ⟨by decide +kernel,hrun (by decide +kernel) (by decide +kernel)⟩

/-- The trial that follows fails to prepare its credentials. -/
def strandedRun : List (CircuitAction ℕ) := openedRun++[.execute 7,.prepare 2 false]

/-- No call is under way, and yet every later one is refused. -/
theorem strandedRun_refuses :
    let c := Run.exec (Circuits.step twiceSettings) strandedRun .initial
    (∀ call ∈ c.calls, call.phase.running = false) ∧ ∀ seconds,
      let c' := c.step twiceSettings (.pass seconds)
      ((c'.breaker 7).beforeCall twiceSettings c'.clock).2 =
        some "the integration circuit is verifying recovery; retry shortly" := by
  intro c
  have hbreaker : c.breaker 7 = ⟨.halfOpen,2,0,1⟩ := by decide +kernel
  refine ⟨by decide +kernel,?_⟩
  intro seconds c'
  have hsame : c'.breaker 7 = c.breaker 7 := rfl
  rw [hsame,hbreaker,Breaker.beforeCall_halfOpen _ rfl]
  rfl

end NexusAi.Integrations
