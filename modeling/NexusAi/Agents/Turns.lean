import NexusAi.Agents.System

/-!
# The steps of the agent service

A call goes on, or commits one of the transactions of a turn, which are named here with
all that they have checked. Every other step leaves the calls and the turns alone.
-/

namespace NexusAi.Agents

def Phase.works : Phase → Bool
  | .opened | .working _ | .finishing _ | .expiring | .failing _ | .writing _ => true
  | _ => false

def Phase.early : Phase → Bool
  | .arrived | .opening => true
  | _ => false

/-- A reply that makes the call give up its turn as it stands. -/
def forsakes : Phase → Reply → Bool
  | .opening, .fault _ true _ => true
  | .opened, .fault .. => true
  | .working _, .fault .other _ _ => true
  | .finishing _, .fault _ false _ => true
  | .expiring, .fault .. => true
  | .failing _, .fault .. => true
  | .writing _, .fault _ false _ => true
  | _, _ => false

structure Goes (v : Service) (w : World) (c : Call) (reply : Reply) (new : Phase) : Prop where
  works : new.works → c.phase.works
  early : new.early → c.phase.early
  left : c.phase.works → new.works = false → forsakes c.phase reply
  returned : ∀ r, new = .ended (.returned r) → c.phase = .opening ∧ ∃ t row,
    w.existingTurn c = some (t,row) ∧ row.state = .completed ∧ r = responseFromTurn t row

/-- What follows a commit in a working phase: more work, or giving up. -/
def Continues (c : Call) (reply : Reply) (new : Phase) : Prop :=
  new.early = false ∧ (∀ r, new ≠ .ended (.returned r)) ∧
    (new.works ∨ forsakes c.phase reply)

def openedTurn (v : Service) (i : ℕ) (c : Call) (session : SessionRow) (now : ℤ) : TurnRow :=
  ⟨c.sessionId,session.turnCount+1,.running,c.request.content,none,none,0,0,0,0,none,
    c.request.idempotencyKey,v.fingerprint c.sessionId c.request.content,i,none,now⟩

namespace World

def openedWorld (v : Service) (w : World) (i : ℕ) (c : Call) (session : SessionRow) (now : ℤ) :
    World :=
  ((({ w with turns := w.turns++[openedTurn v i c session now] }).putSession c.sessionId
    { session with turnCount := session.turnCount+1 }).emit [.turnStarted w.turns.length]).claim i
      ⟨w.turns.length,session.startedAt,session.correlationId,now⟩

def completedWorld (v : Service) (w : World) (c : Call) (claim : Claim) (outcome : TurnOutcome)
    (session : SessionRow) (turn : TurnRow) (now : ℤ) : World :=
  ((w.putTurn claim.turnId (completedTurn v c claim outcome now turn)).putSession c.sessionId
    { session with state := foldAgentSessionState session.state .active }).emit
      [.turnCompleted claim.turnId,.responseReady claim.turnId]

def reactivated (w : World) (sessionId : ℕ) : World :=
  match w.sessions[sessionId]? with
  | some session =>
    if sessionIsTerminal session.state then w
    else w.putSession sessionId { session with state := .active }
  | none => w

def failedWorld (w : World) (c : Call) (claim : Claim) (cancelled : Bool) (errorCode : String)
    (turn : TurnRow) (now : ℤ) : World :=
  ((w.putTurn claim.turnId (failedTurn claim cancelled errorCode now turn)).reactivated
    c.sessionId).emit [.turnFailed claim.turnId errorCode]

def discardedWorld (w : World) (claim : Claim) (errorCode : String) (turn : TurnRow) (now : ℤ) :
    World :=
  (w.putTurn claim.turnId (failedTurn claim true errorCode now turn)).emit
    [.turnFailed claim.turnId errorCode]

def expired (w : World) (c : Call) : World :=
  w.terminalize c.sessionId .expired (some "NXS_AGENT_SESSION_EXPIRED")

inductive Effect (v : Service) (w : World) (i : ℕ) (c : Call) (reply : Reply) :
    World → Phase → Prop
  | goes (p : Phase) (h : Goes v w c reply p) : Effect v w i c reply w p
  | strands (claim : Claim) (e : AgentError) (hclaim : c.claim = some claim)
      (hworks : c.phase.works)
      (hgone : w.sessions[c.sessionId]? = none ∨
        ((w.turns[claim.turnId]?).all fun turn => turnIsTerminal turn.state)) :
      Effect v w i c reply w (.ended (.raised e))
  | expires (p : Phase) (hphase : c.phase = .opening ∨ c.phase = .expiring)
      (hp : c.phase = .opening → ∃ e, p = .ended (.raised e))
      (hp' : c.phase = .expiring → Continues c reply p) : Effect v w i c reply (w.expired c) p
  | opens (session : SessionRow) (now : ℤ) (p : Phase) (hphase : c.phase = .opening)
      (hsession : w.sessions[c.sessionId]? = some session)
      (hlive : sessionIsTerminal session.state = false) (hnew : w.existingTurn c = none)
      (hidle : w.activeForSession c.sessionId = false)
      (hp : p = .opened ∨ (∃ e, p = .ended (.raised e)) ∧ forsakes c.phase reply) :
      Effect v w i c reply (w.openedWorld v i c session now) p
  | permitsModel (claim : Claim) (loop : Loop) (p : Phase) (hclaim : c.claim = some claim)
      (hworks : c.phase.works) (hlive : w.revoked c = none)
      (hfree : (w.modelPermits.any fun q =>
        q.turnId = claim.turnId ∧ q.iteration = loop.iteration) = false)
      (hp : Continues c reply p) :
      Effect v w i c reply
        { w with modelPermits := w.modelPermits++[⟨c.sessionId,claim.turnId,loop.iteration⟩] } p
  | permitsTool (claim : Claim) (call : ModelToolCall) (p : Phase) (hclaim : c.claim = some claim)
      (hworks : c.phase.works) (hlive : w.revoked c = none)
      (hfree : (w.toolPermits.any fun q => q.turnId = claim.turnId ∧
        q.toolKey = call.name ∧ q.argumentsHash = call.argumentsHash) = false)
      (hp : Continues c reply p) :
      Effect v w i c reply
        { w with
          toolPermits :=
            w.toolPermits++[⟨c.sessionId,claim.turnId,call.name,call.argumentsHash⟩] } p
  | dispatches (p : Phase) (hworks : c.phase.works) (hp : p.works) :
      Effect v w i c reply { w with dispatches := w.dispatches++[i] } p
  | completes (claim : Claim) (outcome : TurnOutcome) (session : SessionRow) (turn : TurnRow)
      (now : ℤ) (p : Phase) (hclaim : c.claim = some claim) (hphase : c.phase.works)
      (hsession : w.sessions[c.sessionId]? = some session)
      (hlive : sessionIsTerminal session.state = false)
      (hturn : w.turns[claim.turnId]? = some turn)
      (hp : p = .ended (.returned (finishedResponse v c claim outcome now)) ∨
        ∃ e, p = .ended (.raised e)) :
      Effect v w i c reply (w.completedWorld v c claim outcome session turn now) p
  | discards (claim : Claim) (errorCode : String) (turn : TurnRow) (now : ℤ) (e : AgentError)
      (hclaim : c.claim = some claim) (hphase : c.phase.works)
      (hturn : w.turns[claim.turnId]? = some turn) :
      Effect v w i c reply (w.discardedWorld claim errorCode turn now) (.ended (.raised e))
  | fails (claim : Claim) (failure : Failure) (turn : TurnRow) (now : ℤ) (e : AgentError)
      (hclaim : c.claim = some claim) (hphase : c.phase.works)
      (hturn : w.turns[claim.turnId]? = some turn) :
      Effect v w i c reply
        (w.failedWorld c claim failure.cancelled failure.errorCode turn now) (.ended (.raised e))

end World

open World

section Flow

variable {v : Service} {w : World} {c : Call} {reply : Reply} {claim : Claim}

theorem handle_early (f : Fault) : (handle v claim f).early = false := by
  cases f with
  | timeout =>
    simp only [handle]
    split_ifs <;> rfl
  | cancelled | nxs | other => rfl

theorem handle_unreturned (f : Fault) (r : AgentResponse) :
    handle v claim f ≠ .ended (.returned r) := by
  cases f with
  | timeout =>
    simp only [handle]
    split_ifs <;> simp
  | cancelled | nxs | other => simp [handle]

theorem handle_works {f : Fault} (h : f ≠ .other) : (handle v claim f).works := by
  cases f with
  | timeout =>
    simp only [handle]
    split_ifs <;> rfl
  | cancelled | nxs => rfl
  | other => exact absurd rfl h

theorem handle_continues {work : Work} (hphase : c.phase = .working work) (f : Fault)
    (landed : Bool) (now : ℤ) : Continues c (.fault f landed now) (handle v claim f) := by
  refine ⟨handle_early f,handle_unreturned f,?_⟩
  by_cases hf : f = .other
  · right
    rw [hphase,hf]
    rfl
  · exact .inl (handle_works hf)

theorem nextTool_works (loop : Loop) (calls : List ModelToolCall) :
    (nextTool v loop calls).works := by
  induction calls generalizing loop with
  | nil => rfl
  | cons _ _ ih =>
    unfold nextTool
    split_ifs
    · rfl
    · exact ih _
    · rfl

theorem respond_works (loop : Loop) (r : ModelResponse) : (respond v loop r).works := by
  unfold respond
  split
  · rfl
  · dsimp only
    split_ifs
    · rfl
    · rfl
    · rfl
    · exact nextTool_works _ _

variable {p : Phase}

theorem early_of_works (h : p.works) : p.early = false := by
  cases p <;> first | rfl | cases h

theorem unreturned_of_works (h : p.works) (r : AgentResponse) :
    p ≠ .ended (.returned r) := by
  rintro rfl
  cases h

theorem Continues.of_works (h : p.works) : Continues c reply p :=
  ⟨early_of_works h,unreturned_of_works h,.inl h⟩

theorem Continues.goes (h : Continues c reply p) (hworks : c.phase.works) :
    Goes v w c reply p := by
  obtain ⟨hearly,hreturned,hnext⟩ := h
  refine ⟨fun _ => hworks,?_,?_,fun r hr => absurd hr (hreturned r)⟩
  · intro h
    rw [hearly] at h
    cases h
  · intro _ hleft
    rcases hnext with h | h
    · rw [h] at hleft
      cases hleft
    · exact h

theorem Goes.raised {e : AgentError} (h : c.phase.works → forsakes c.phase reply) :
    Goes v w c reply (.ended (.raised e)) := by
  refine ⟨?_,?_,fun hworks _ => h hworks,?_⟩
  · rintro ⟨⟩
  · rintro ⟨⟩
  · rintro r ⟨⟩

theorem unwind_raised (failure : Failure) (f : Fault) :
    ∃ e, failure.unwind f = .ended (.raised e) := by
  cases f <;> exact ⟨_,rfl⟩

end Flow

end NexusAi.Agents

namespace NexusAi.Agents.World

variable {v : Service} {w : World} {i : ℕ} {c : Call} {reply : Reply} {claim : Claim}

def Advances (v : Service) (w : World) (i : ℕ) (c : Call) (reply : Reply) (w' : World) : Prop :=
  w' = w ∨ ∃ w₁ p, Effect v w i c reply w₁ p ∧ w' = w₁.enter i p

theorem Advances.of {w₁ : World} {p : Phase} (h : Effect v w i c reply w₁ p) :
    Advances v w i c reply (w₁.enter i p) := .inr ⟨w₁,p,h,rfl⟩

theorem Advances.on {p : Phase} (hworks : c.phase.works) (h : Continues c reply p) :
    Advances v w i c reply (w.enter i p) := .of (.goes p (h.goes hworks))

theorem transact_advances {tx : ℤ → World × Phase} {broken : Fault → Phase}
    (hdone : ∀ now, reply = .done now → Effect v w i c reply (tx now).1 (tx now).2)
    (hlanded : ∀ f now, reply = .fault f true now → Effect v w i c reply (tx now).1 (broken f))
    (hlost : ∀ f now, reply = .fault f false now → Effect v w i c reply w (broken f)) :
    Advances v w i c reply (w.transact i reply tx broken) := by
  cases reply with
  | done now => exact .of (hdone now rfl)
  | prepared | responded => exact .inl rfl
  | fault f landed now =>
    cases landed with
    | true => exact .of (hlanded f now rfl)
    | false => exact .of (hlost f now rfl)

section Opening

theorem resolve_goes {t : ℕ} {row : TurnRow} {fingerprint : String} (hphase : c.phase = .opening)
    (h : w.existingTurn c = some (t,row)) :
    Goes v w c reply (.ended (resolveExistingTurn t row fingerprint)) := by
  refine ⟨?_,?_,?_,?_⟩
  · rintro ⟨⟩
  · rintro ⟨⟩
  · intro hworks
    rw [hphase] at hworks
    cases hworks
  · intro r hr
    refine ⟨hphase,t,row,h,?_⟩
    cases hr' : resolveExistingTurn t row fingerprint with
    | raised =>
      rw [hr'] at hr
      cases hr
    | returned =>
      rw [hr'] at hr
      cases hr
      unfold resolveExistingTurn at hr'
      split_ifs at hr' with h₁ h₂
      exact ⟨h₂,(Result.returned.inj hr').symm⟩

theorem idle_raises {e : AgentError} (hphase : c.phase.works = false) :
    Goes v w c reply (.ended (.raised e)) :=
  .raised fun h => by rw [hphase] at h; cases h

theorem admitTurn_effect {session : SessionRow} (now : ℤ) (hphase : c.phase = .opening)
    (hsession : w.sessions[c.sessionId]? = some session) (hnew : w.existingTurn c = none)
    {p : Phase} (hp : p = (w.admitTurn v i c session now).2 ∨
      (∃ e, p = .ended (.raised e)) ∧ forsakes c.phase reply) :
    Effect v w i c reply (w.admitTurn v i c session now).1 p := by
  have hidle : c.phase.works = false := by rw [hphase]; rfl
  unfold admitTurn at hp ⊢
  split_ifs at hp ⊢ with hlive hlate hbusy
  · rcases hp with rfl | ⟨⟨e,rfl⟩,-⟩ <;> exact .goes _ (idle_raises hidle)
  · refine .expires p (.inl hphase) ?_ ?_
    · intro _
      rcases hp with rfl | ⟨h,-⟩
      · exact ⟨_,rfl⟩
      · exact h
    · intro h
      rw [hphase] at h
      cases h
  · rcases hp with rfl | ⟨⟨e,rfl⟩,-⟩ <;> exact .goes _ (idle_raises hidle)
  · refine .opens session now p hphase hsession ?_ hnew ?_ hp
    · exact Bool.eq_false_iff.mpr hlive
    · exact Bool.eq_false_iff.mpr hbusy

theorem openTurn_effect (now : ℤ) (hphase : c.phase = .opening) {p : Phase}
    (hp : p = (w.openTurn v i c now).2 ∨
      (∃ e, p = .ended (.raised e)) ∧ forsakes c.phase reply) :
    Effect v w i c reply (w.openTurn v i c now).1 p := by
  have hidle : c.phase.works = false := by rw [hphase]; rfl
  unfold openTurn at hp ⊢
  cases hsession : w.sessions[c.sessionId]? with
  | none =>
    rw [hsession] at hp
    rcases hp with rfl | ⟨⟨e,rfl⟩,-⟩ <;> exact .goes _ (idle_raises hidle)
  | some =>
    rw [hsession] at hp
    dsimp only at hp ⊢
    cases hnew : w.existingTurn c with
    | none =>
      rw [hnew] at hp
      exact admitTurn_effect now hphase hsession hnew hp
    | some found =>
      obtain ⟨t,_⟩ := found
      rw [hnew] at hp
      rcases hp with rfl | ⟨⟨e,rfl⟩,-⟩
      · exact .goes _ (resolve_goes hphase hnew)
      · exact .goes _ (idle_raises hidle)

theorem opening_advances (hphase : c.phase = .opening) :
    Advances v w i c reply (w.transact i reply (w.openTurn v i c) raise) := by
  have hidle : c.phase.works = false := by rw [hphase]; rfl
  apply transact_advances
  · intro now _
    exact openTurn_effect now hphase (.inl rfl)
  · rintro f now rfl
    refine openTurn_effect now hphase (.inr ⟨⟨_,rfl⟩,?_⟩)
    rw [hphase]
    rfl
  · intro f now _
    exact .goes _ (idle_raises hidle)

theorem arrive_advances (hphase : c.phase = .arrived) :
    Advances v w i c reply (w.arrive v i c) := by
  have hidle : c.phase.works = false := by rw [hphase]; rfl
  unfold arrive
  split_ifs
  · exact .of (.goes _ (idle_raises hidle))
  · exact .of (.goes _ (idle_raises hidle))
  · refine .of (.goes _ ⟨?_,?_,?_,?_⟩)
    · rintro ⟨⟩
    · intro _
      rw [hphase]
      rfl
    · intro h
      rw [hidle] at h
      cases h
    · rintro r ⟨⟩

end Opening

section Working

theorem authorizeDispatch_cases (claim : Claim) (taken : Bool) (permit : World) (next : Phase)
    (hnext : next.works) :
    ((w.authorizeDispatch i c claim taken permit next).1 = w ∨
      (w.authorizeDispatch i c claim taken permit next).1 = permit ∧ w.revoked c = none ∧
        taken = false) ∧
      (w.authorizeDispatch i c claim taken permit next).2.works := by
  unfold authorizeDispatch
  cases hlive : w.revoked c with
  | some => exact ⟨.inl rfl,rfl⟩
  | none =>
    dsimp only
    split_ifs with hauthority htaken
    · exact ⟨.inl rfl,rfl⟩
    · exact ⟨.inl rfl,rfl⟩
    · exact ⟨.inr ⟨rfl,rfl,Bool.eq_false_iff.mpr htaken⟩,hnext⟩

variable {work : Work}

theorem authorize_advances {taken : Bool} {permit : World} {next : Phase}
    (hphase : c.phase = .working work) (hnext : next.works)
    (hpermit : ∀ p, w.revoked c = none → taken = false → Continues c reply p →
      Effect v w i c reply permit p) :
    Advances v w i c reply
      (w.transact i reply (fun _ => w.authorizeDispatch i c claim taken permit next)
        (handle v claim)) := by
  have hworks : c.phase.works := by rw [hphase]; rfl
  obtain ⟨hworld,hnew⟩ := w.authorizeDispatch_cases (i := i) (c := c) claim taken permit
    next hnext
  have hall (p : Phase) (hp : Continues c reply p) : Effect v w i c reply
      (w.authorizeDispatch i c claim taken permit next).1 p := by
    rcases hworld with h | ⟨h,hlive,hfree⟩ <;> rw [h]
    · exact .goes p (hp.goes hworks)
    · exact hpermit p hlive hfree hp
  apply transact_advances
  · intro now _
    exact hall _ (.of_works hnew)
  · rintro f now rfl
    exact hall _ (handle_continues hphase f true now)
  · rintro f now rfl
    exact .goes _ ((handle_continues hphase f false now).goes hworks)

theorem handle_advances (hphase : c.phase = .working work) (f : Fault)
    (landed : Bool) (now : ℤ) :
    Advances v w i c (.fault f landed now) (w.enter i (handle v claim f)) :=
  .on (by rw [hphase]; rfl) (handle_continues hphase f landed now)

theorem work_advances (hclaim : c.claim = some claim)
    (hphase : c.phase = .working work) :
    Advances v w i c reply (w.work v i c claim reply work) := by
  have hworks : c.phase.works := by rw [hphase]; rfl
  cases work with
  | preparing =>
    cases reply with
    | prepared => exact .on hworks (.of_works rfl)
    | fault f landed now => exact handle_advances hphase f landed now
    | done | responded => exact .inl rfl
  | authorizingModel loop =>
    exact authorize_advances hphase rfl fun p hlive hfree hp =>
      .permitsModel claim loop p hclaim hworks hlive hfree hp
  | dispatchingModel | dispatchingTool =>
    cases reply with
    | done => exact .of (.dispatches _ hworks rfl)
    | fault f landed now => exact handle_advances hphase f landed now
    | prepared | responded => exact .inl rfl
  | callingModel loop =>
    cases reply with
    | responded r => exact .on hworks (.of_works (respond_works loop r))
    | fault f landed now => exact handle_advances hphase f landed now
    | done | prepared => exact .inl rfl
  | authorizingTool _ call =>
    exact authorize_advances hphase rfl fun p hlive hfree hp =>
      .permitsTool claim call p hclaim hworks hlive hfree hp
  | callingTool =>
    cases reply with
    | done => exact .on hworks (.of_works rfl)
    | fault f landed now => exact handle_advances hphase f landed now
    | prepared | responded => exact .inl rfl
  | recordingTool loop rest =>
    cases reply with
    | done => exact .on hworks (.of_works (nextTool_works loop rest))
    | fault f landed now => exact handle_advances hphase f landed now
    | prepared | responded => exact .inl rfl

end Working

section Settling

theorem finishing_advances {outcome : TurnOutcome} (hclaim : c.claim = some claim)
    (hphase : c.phase = .finishing outcome) :
    Advances v w i c reply (w.transact i reply (w.finishTurn v c claim outcome) raise) := by
  have hworks : c.phase.works := by rw [hphase]; rfl
  have hall (now : ℤ) (p : Phase) (hp : p = (w.finishTurn v c claim outcome now).2 ∨
      ∃ e, p = .ended (.raised e)) :
      Effect v w i c reply (w.finishTurn v c claim outcome now).1 p := by
    unfold finishTurn at hp ⊢
    cases hsession : w.sessions[c.sessionId]? with
    | none =>
      rw [hsession] at hp
      rcases hp with rfl | ⟨e,rfl⟩ <;>
        exact .strands claim _ hclaim hworks (.inl hsession)
    | some session =>
      cases hturn : w.turns[claim.turnId]? with
      | none =>
        rw [hsession,hturn] at hp
        rcases hp with rfl | ⟨e,rfl⟩ <;>
          exact .strands claim _ hclaim hworks (.inr (by rw [hturn]; rfl))
      | some turn =>
        rw [hsession,hturn] at hp
        dsimp only at hp ⊢
        split_ifs at hp ⊢ with hlive
        · rcases hp with rfl | ⟨e,rfl⟩ <;>
            exact .discards claim _ turn now _ hclaim hworks hturn
        · exact .completes claim outcome session turn now p hclaim hworks hsession
            (Bool.eq_false_iff.mpr hlive) hturn hp
  apply transact_advances
  · intro now _
    exact hall now _ (.inl rfl)
  · intro f now _
    exact hall now _ (.inr ⟨_,rfl⟩)
  · rintro f _ rfl
    refine .goes _ (.raised fun _ => ?_)
    rw [hphase]
    rfl

theorem expiring_advances (hphase : c.phase = .expiring) :
    Advances v w i c reply (w.transact i reply (fun _ => w.expireSession c) raise) := by
  have hforsakes (f : Fault) (landed : Bool) (now : ℤ) :
      forsakes c.phase (.fault f landed now) := by
    rw [hphase]
    rfl
  have hraises (f : Fault) (landed : Bool) (now : ℤ) :
      Continues c (.fault f landed now) (raise f) := by
    refine ⟨rfl,?_,.inr (hforsakes f landed now)⟩
    rintro r ⟨⟩
  have hopening {p : Phase} (h : c.phase = .opening) : ∃ e, p = .ended (.raised e) := by
    rw [hphase] at h
    cases h
  apply transact_advances
  · intro now _
    exact .expires _ (.inr hphase) hopening fun _ => .of_works rfl
  · rintro f now rfl
    exact .expires _ (.inr hphase) hopening fun _ => hraises f true now
  · rintro f now rfl
    exact .goes _ (.raised fun _ => hforsakes f false now)

theorem writing_advances {failure : Failure} (hclaim : c.claim = some claim)
    (hphase : c.phase = .writing failure) :
    Advances v w i c reply
      (w.transact i reply (w.failTurn c claim failure) failure.unwind) := by
  have hworks : c.phase.works := by rw [hphase]; rfl
  have hall (now : ℤ) (p : Phase) (hp : ∃ e, p = .ended (.raised e)) :
      Effect v w i c reply (w.failTurn c claim failure now).1 p := by
    obtain ⟨e,rfl⟩ := hp
    unfold failTurn
    cases hturn : w.turns[claim.turnId]? with
    | none => exact .strands claim e hclaim hworks (.inr (by rw [hturn]; rfl))
    | some turn => exact .fails claim failure turn now e hclaim hworks hturn
  apply transact_advances
  · intro now _
    apply hall
    unfold failTurn
    split <;> exact ⟨_,rfl⟩
  · intro f now _
    exact hall now _ (unwind_raised failure f)
  · rintro f _ rfl
    obtain ⟨e,he⟩ := unwind_raised failure f
    rw [he]
    refine .goes _ (.raised fun _ => ?_)
    rw [hphase]
    rfl

theorem advanceOwner_advances (hclaim : c.claim = some claim) :
    Advances v w i c reply (w.advanceOwner v i c claim reply) := by
  unfold advanceOwner
  cases hphase : c.phase with
  | arrived | opening | ended => exact .inl rfl
  | opened =>
    have hworks : c.phase.works := by rw [hphase]; rfl
    cases reply with
    | done => exact .on hworks (.of_works rfl)
    | prepared | responded => exact .inl rfl
    | fault =>
      refine .of (.goes _ (.raised fun _ => ?_))
      rw [hphase]
      rfl
  | working => exact work_advances hclaim hphase
  | finishing => exact finishing_advances hclaim hphase
  | expiring => exact expiring_advances hphase
  | failing failure =>
    have hworks : c.phase.works := by rw [hphase]; rfl
    cases reply with
    | done =>
      dsimp only
      split_ifs with hgone
      · exact .of (.strands claim _ hclaim hworks (.inr hgone))
      · exact .on hworks (.of_works rfl)
    | prepared | responded => exact .inl rfl
    | fault f =>
      obtain ⟨e,he⟩ := unwind_raised failure f
      dsimp only
      rw [he]
      refine .of (.goes _ (.raised fun _ => ?_))
      rw [hphase]
      rfl
  | writing => exact writing_advances hclaim hphase

end Settling

theorem advance_advances (v : Service) (w : World) (i : ℕ) (c : Call) (reply : Reply) :
    Advances v w i c reply (w.advance v i c reply) := by
  unfold advance
  split
  · rename_i hphase
    exact arrive_advances hphase
  · rename_i hphase
    exact opening_advances hphase
  · split
    · rename_i hclaim
      exact advanceOwner_advances hclaim
    · exact .inl rfl

inductive Turn (v : Service) (w : World) : Action → World → Prop
  | idles (a : Action) : Turn v w a w
  | starts (startedAt : ℤ) (correlationId : Option String) :
      Turn v w (.start startedAt correlationId)
        { w with sessions := w.sessions++[⟨.active,none,startedAt,correlationId,0⟩] }
  | submits (process sessionId : ℕ) (request : SubmitTurnRequest) :
      Turn v w (.submit process sessionId request)
        { w with calls := w.calls++[⟨process,sessionId,request,none,.arrived⟩] }
  | waits (a : Action) (stops : List Stop) : Turn v w a { w with stops := stops }
  | ends (a : Action) (sessionId : ℕ) (target : AgentSessionState) (errorCode : Option String)
      (stops : List Stop) :
      Turn v w a { w.terminalize sessionId target errorCode with stops := stops }
  | advances (i : ℕ) (c : Call) (reply : Reply) (w₁ : World) (p : Phase)
      (hi : w.calls[i]? = some c) (h : Effect v w i c reply w₁ p) :
      Turn v w (.advance i reply) (w₁.enter i p)

theorem advanceStop_turn (j : ℕ) (s : Stop) (a : Action) :
    Turn v w a (w.advanceStop j s reply) := by
  have hend : Turn v w a ((w.endSession s).enterStop j .ended) := by
    unfold endSession
    split_ifs <;> exact .ends a s.sessionId _ _ _
  unfold advanceStop
  split
  · split_ifs
    · exact .idles a
    · exact .waits a _
  · split
    · exact hend
    · exact hend
    · exact .waits a _
  · exact .idles a

theorem step_turn (v : Service) (w : World) (a : Action) : Turn v w a (w.step v a) := by
  cases a with
  | start startedAt correlationId => exact .starts startedAt correlationId
  | submit process sessionId request => exact .submits process sessionId request
  | stop => exact .waits _ _
  | advance i reply =>
    simp only [step]
    cases hi : w.calls[i]? with
    | none => exact .idles _
    | some c =>
      rcases advance_advances v w i c reply with h | ⟨w₁,p,h,hw⟩
      · dsimp only
        rw [h]
        exact .idles _
      · dsimp only
        rw [hw]
        exact .advances i c reply w₁ p hi h
  | advanceStop j =>
    simp only [step]
    cases hj : w.stops[j]? with
    | none => exact .idles _
    | some s => exact advanceStop_turn j s _

end NexusAi.Agents.World
