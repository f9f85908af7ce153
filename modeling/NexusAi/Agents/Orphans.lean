import NexusAi.Agents.Fencing

/-!
# Turns that their calls leave behind

A call ends its turn on the way out, unless an operation raises where nothing
ends it: the lookup of the agent stands before the guarded block, exceptions of
other classes pass all of its handlers, and the transactions that end the turn
are themselves not guarded.
-/

namespace NexusAi.Agents.World

variable {v : Service} {w w₁ w' : World} {i : ℕ} {c : Call} {reply : Reply} {p : Phase}
  {a : Action}

/-- No operation raises at a place from where the turn is not ended. -/
def guarded (w : World) : Action → Bool
  | .advance i reply => (w.calls[i]?).all fun c => !forsakes c.phase reply
  | _ => true

def Settled (w : World) : Prop :=
  ∀ (j : ℕ) c claim, w.calls[j]? = some c → c.claim = some claim → c.phase.works = false →
    ∃ turn, w.turns[claim.turnId]? = some turn ∧ turnIsTerminal turn.state

inductive Leaves (w : World) (c : Call) (w₁ : World) : Prop
  | idle (hidle : c.phase.works = false) (hcalls : w₁.calls = w.calls)
  | lost (claim : Claim) (hclaim : c.claim = some claim) (hworks : c.phase.works)
      (hgone : w.sessions[c.sessionId]? = none ∨
        ((w.turns[claim.turnId]?).all fun turn => turnIsTerminal turn.state))
  | ends (claim : Claim) (turn : TurnRow) (hclaim : c.claim = some claim)
      (hturn : w₁.turns[claim.turnId]? = some turn) (hfinal : turnIsTerminal turn.state)
      (hcalls : w₁.calls = w.calls)

theorem continues_works (h : Continues c reply p) (hk : forsakes c.phase reply = false) :
    p.works := by
  rcases h.2.2 with h | h
  · exact h
  · rw [hk] at h
    cases h

theorem Effect.leaves (h : Effect v w i c reply w₁ p) (hk : forsakes c.phase reply = false)
    (hp : p.works = false) : Leaves w c w₁ := by
  have hstays {P : Prop} (hworks : p.works) : P := by
    rw [hp] at hworks
    cases hworks
  cases h with
  | goes _ h =>
    refine .idle (Bool.eq_false_iff.mpr fun hworks => ?_) rfl
    have hf := h.left hworks hp
    rw [hk] at hf
    cases hf
  | strands claim _ hclaim hworks hgone => exact .lost claim hclaim hworks hgone
  | expires _ hphase _ hp' =>
    rcases hphase with h | h
    · refine .idle (by rw [h]; rfl) ?_
      exact (w.terminalize_fields c.sessionId .expired (some "NXS_AGENT_SESSION_EXPIRED")).2.1
    · exact hstays (continues_works (hp' h) hk)
  | opens _ _ _ _ _ _ _ _ hp =>
    rcases hp with rfl | ⟨-,hf⟩
    · exact hstays rfl
    · rw [hk] at hf
      cases hf
  | permitsModel _ _ _ _ _ _ _ hp | permitsTool _ _ _ _ _ _ _ hp =>
    exact hstays (continues_works hp hk)
  | dispatches _ _ hp => exact hstays hp
  | completes claim outcome _ turn now _ hclaim _ _ _ hturn =>
    refine .ends claim (completedTurn v c claim outcome now turn) hclaim ?_ rfl rfl
    exact List.getElem?_set_self (List.getElem?_eq_some_iff.mp hturn).1
  | discards claim errorCode turn now _ hclaim _ hturn =>
    refine .ends claim (failedTurn claim true errorCode now turn) hclaim ?_
      (failedTurn_final true errorCode now turn) rfl
    exact List.getElem?_set_self (List.getElem?_eq_some_iff.mp hturn).1
  | fails claim failure turn now _ hclaim _ hturn =>
    obtain ⟨hturns,hcalls,-⟩ := reactivated_fields (w.putTurn claim.turnId
      (failedTurn claim failure.cancelled failure.errorCode now turn)) c.sessionId
    refine .ends claim (failedTurn claim failure.cancelled failure.errorCode now turn) hclaim ?_
      (failedTurn_final _ _ now turn) hcalls
    refine (congrArg (·[claim.turnId]?) hturns).trans ?_
    exact List.getElem?_set_self (List.getElem?_eq_some_iff.mp hturn).1

theorem Owned.not_lost (h : w.Owned v) {claim : Claim} (hi : w.calls[i]? = some c)
    (hclaim : c.claim = some claim) (hworks : c.phase.works) :
    ¬ (w.sessions[c.sessionId]? = none ∨
      ((w.turns[claim.turnId]?).all fun turn => turnIsTerminal turn.state)) := by
  obtain ⟨turn,hturn,hb,hactive⟩ := h.claimed i c claim hi hclaim
  rintro (hnone | hall)
  · have hlt := h.sessions claim.turnId turn hturn
    rw [hb.session] at hlt
    rw [List.getElem?_eq_getElem hlt] at hnone
    cases hnone
  · rw [hturn] at hall
    exact absurd hall (by rw [Option.all_some,hactive hworks]; decide)

theorem Settled.others (h : w.Settled) (hkept : TurnsKept w w') {j : ℕ} {claim : Claim}
    (hj : w.calls[j]? = some c) (hclaim : c.claim = some claim) (hidle : c.phase.works = false) :
    ∃ turn, w'.turns[claim.turnId]? = some turn ∧ turnIsTerminal turn.state := by
  obtain ⟨turn,hturn,hfinal⟩ := h j c claim hj hclaim hidle
  obtain ⟨_,hturn',hf⟩ := hkept claim.turnId turn hturn
  rw [hf.final hfinal] at hturn'
  exact ⟨turn,hturn',hfinal⟩

theorem Effect.bystanders (h : Effect v w i c reply w₁ p) {j : ℕ} (hij : i ≠ j) :
    w₁.calls[j]? = w.calls[j]? := by
  cases h.writes with
  | same _ _ hcalls => rw [hcalls]
  | opens _ _ _ _ _ _ _ hcalls => rw [hcalls,List.getElem?_modify_ne _ _ hij]
  | settles _ _ _ _ _ _ _ _ _ _ hcalls => rw [hcalls]

theorem Settled.advances (h : w.Settled) (ho : w.Owned v) (hi : w.calls[i]? = some c)
    (he : Effect v w i c reply w₁ p) (hk : forsakes c.phase reply = false) :
    (w₁.enter i p).Settled := by
  have hkept := (Turn.advances i c reply w₁ p hi he).turns ho
  intro j c' claim hj hclaim hidle
  rcases Batch.modify_cases hj with ⟨_,hc₁,rfl,rfl⟩ | ⟨hij,hj⟩
  · cases he.leaves hk hidle with
    | idle hquiet hcalls =>
      rw [hcalls,hi] at hc₁
      cases hc₁
      exact h.others hkept hi hclaim hquiet
    | lost _ hclaim' hworks hgone => exact absurd hgone (ho.not_lost hi hclaim' hworks)
    | ends _ turn hclaim' hturn hfinal hcalls =>
      rw [hcalls,hi] at hc₁
      cases hc₁
      rw [show c.claim = some claim from hclaim] at hclaim'
      cases hclaim'
      exact ⟨turn,hturn,hfinal⟩
  · rw [he.bystanders hij] at hj
    exact h.others hkept hj hclaim hidle

theorem Settled.step (h : w.Settled) (ho : w.Owned v) (hg : w.guarded a) :
    (w.step v a).Settled := by
  have ht := w.step_turn v a
  have hkept := ht.turns ho
  generalize w.step v a = w' at ht hkept
  cases ht with
  | idles | starts | waits => exact h
  | submits =>
    intro j c claim hj hclaim hidle
    rcases Batch.concat_cases hj with ⟨rfl,rfl⟩ | hj
    · cases hclaim
    · exact h j c claim hj hclaim hidle
  | ends _ sessionId target errorCode =>
    intro j c claim hj hclaim hidle
    obtain ⟨-,hcalls,-⟩ := w.terminalize_fields sessionId target errorCode
    exact h.others hkept ((congrArg (·[j]?) hcalls).symm.trans hj) hclaim hidle
  | advances _ _ _ _ _ hi he =>
    refine h.advances ho hi he ?_
    rw [guarded,hi] at hg
    simpa using hg

theorem Settled.idle (h : w.Settled) (ho : w.Owned v) {s : ℕ}
    (hs : ∀ c ∈ w.calls, c.sessionId = s → c.phase.works = false) :
    w.activeForSession s = false := by
  rw [activeForSession,List.any_eq_false]
  intro turn hmem hactive
  rw [Bool.and_eq_true,decide_eq_true_eq,Bool.not_eq_true'] at hactive
  obtain ⟨t,ht⟩ := List.getElem?_of_mem hmem
  obtain ⟨c,claim,hc,hclaim,rfl⟩ := ho.owner t turn ht
  obtain ⟨_,hturn₁,hb,-⟩ := ho.claimed _ c claim hc hclaim
  rw [ht] at hturn₁
  cases hturn₁
  have hidle := hs c (List.mem_of_getElem? hc) (hb.session.symm.trans hactive.1)
  obtain ⟨_,hturn₂,hfinal⟩ := h _ c claim hc hclaim hidle
  rw [ht] at hturn₂
  cases hturn₂
  rw [hactive.2] at hfinal
  cases hfinal

theorem exec_settled (v : Service) (as : List Action)
    (hc : Run.Conforms (step v) (fun w a => w.guarded a) as initial) :
    (Run.exec (step v) as initial).Owned v ∧ (Run.exec (step v) as initial).Settled := by
  apply Run.exec_conforming (step v) _ (fun w => w.Owned v ∧ w.Settled) _ as initial hc
  · refine ⟨initial_owned v,?_⟩
    intro j c claim hj
    cases hj
  · rintro w a hg ⟨ho,hs⟩
    exact ⟨ho.step a,hs.step ho hg⟩

/-- Where no operation raises outside the guarded places: a call that has ended
has ended its turn, and a session with no call at work has no active turn. -/
theorem turns_settled (v : Service) (as : List Action)
    (hc : Run.Conforms (step v) (fun w a => w.guarded a) as initial) :
    (∀ (i : ℕ) c claim r, (Run.exec (step v) as initial).calls[i]? = some c →
      c.claim = some claim → c.phase = .ended r →
      ∃ turn, (Run.exec (step v) as initial).turns[claim.turnId]? = some turn ∧
        turnIsTerminal turn.state) ∧
    (∀ s, (∀ c ∈ (Run.exec (step v) as initial).calls, c.sessionId = s → c.phase.works = false) →
      (Run.exec (step v) as initial).activeForSession s = false) := by
  obtain ⟨ho,hs⟩ := exec_settled v as hc
  refine ⟨?_,fun s h => hs.idle ho h⟩
  intro i c claim r hi hclaim hphase
  exact hs i c claim hi hclaim (by rw [hphase]; rfl)

def timedOutRun : List Action :=
  [.start 0 none,.submit 0 0 ⟨"hello",some "k",none⟩,.advance 0 (.done 1),.advance 0 (.done 1),
    .advance 0 (.done 1),.advance 0 (.prepared 3),.advance 0 (.done 2),.advance 0 (.done 2),
    .advance 0 (.fault (.timeout 9) false 9),.advance 0 (.done 9),.advance 0 (.done 9)]

theorem timedOutRun_settled :
    (Run.exec (step sampleService) timedOutRun initial).activeForSession 0 = false ∧
    (Run.exec (step sampleService) timedOutRun initial).turns.map TurnRow.state = [.failed] :=
  ⟨(turns_settled sampleService timedOutRun (by decide +kernel)).2 0 (by decide +kernel),
    by decide +kernel⟩

/-- The agent cannot be read once the turn is open, and a later turn is tried. -/
def unreadRun : List Action :=
  [.start 0 none,.submit 0 0 ⟨"hello",some "k",none⟩,.advance 0 (.done 1),.advance 0 (.done 1),
    .advance 0 (.fault (.nxs "NXS_AGENT_NOT_FOUND") false 1),
    .submit 0 0 ⟨"again",some "l",none⟩,.advance 1 (.done 5),.advance 1 (.done 5)]

/-- The model provider raises an error of a class of its own. -/
def foreignRun : List Action :=
  [.start 0 none,.submit 0 0 ⟨"hello",some "k",none⟩,.advance 0 (.done 1),.advance 0 (.done 1),
    .advance 0 (.done 1),.advance 0 (.prepared 3),.advance 0 (.done 2),.advance 0 (.done 2),
    .advance 0 (.fault .other false 9),
    .submit 0 0 ⟨"again",some "l",none⟩,.advance 1 (.done 10),.advance 1 (.done 10)]

theorem unreadRun_orphans :
    (Run.exec (step sampleService) unreadRun initial).turns.map TurnRow.state = [.running] ∧
    (Run.exec (step sampleService) unreadRun initial).calls.map Call.phase =
      [.ended (.raised (.fault (.nxs "NXS_AGENT_NOT_FOUND"))),.ended (.raised .busy)] ∧
    (Run.exec (step sampleService) foreignRun initial).turns.map TurnRow.state = [.running] ∧
    (Run.exec (step sampleService) foreignRun initial).calls.map Call.phase =
      [.ended (.raised (.fault .other)),.ended (.raised .busy)] := by
  decide +kernel

end NexusAi.Agents.World
