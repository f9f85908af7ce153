import NexusAi.Agents.Turns
import NexusAi.Lib.Batch

/-!
# Turns and the calls that own them

An ended session is never written again. Every turn has been opened by one call, which
is the only one that writes it, and a call that is still at work has a turn that is
still active. So a terminal turn is never written again.
-/

namespace NexusAi.Agents.World

section

variable {v : Service} {w w₁ : World} {i : ℕ} {c : Call} {reply : Reply} {claim : Claim}
  {p : Phase} {a : Action}

/-- The columns of a turn that its opening call determines. -/
structure Bears (v : Service) (i : ℕ) (c : Call) (turn : TurnRow) : Prop where
  session : turn.sessionId = c.sessionId
  key : turn.idempotencyKey = c.request.idempotencyKey
  fingerprint : turn.requestFingerprint = v.fingerprint c.sessionId c.request.content
  owner : turn.executionOwnerId = i

/-- A turn that is not terminal may be written, and keeps who and what it is for. -/
structure Follows (turn turn' : TurnRow) : Prop where
  session : turn'.sessionId = turn.sessionId
  key : turn'.idempotencyKey = turn.idempotencyKey
  fingerprint : turn'.requestFingerprint = turn.requestFingerprint
  owner : turn'.executionOwnerId = turn.executionOwnerId
  final : turnIsTerminal turn.state → turn' = turn

theorem Follows.refl (turn : TurnRow) : Follows turn turn := ⟨rfl,rfl,rfl,rfl,fun _ => rfl⟩

theorem Follows.trans {r s t : TurnRow} (h₁ : Follows r s) (h₂ : Follows s t) : Follows r t := by
  refine ⟨h₂.session.trans h₁.session,h₂.key.trans h₁.key,h₂.fingerprint.trans h₁.fingerprint,
    h₂.owner.trans h₁.owner,?_⟩
  intro h
  have hs := h₁.final h
  rw [h₂.final (by rw [hs]; exact h), hs]

theorem Bears.follows {turn turn' : TurnRow} (h : Bears v i c turn) (hf : Follows turn turn') :
    Bears v i c turn' :=
  ⟨hf.session.trans h.session,hf.key.trans h.key,hf.fingerprint.trans h.fingerprint,
    hf.owner.trans h.owner⟩

theorem Bears.of_call {c' : Call} {turn : TurnRow} (h : Bears v i c turn)
    (hsession : c'.sessionId = c.sessionId) (hrequest : c'.request = c.request) :
    Bears v i c' turn := by
  refine ⟨h.session.trans hsession.symm,?_,?_,h.owner⟩
  · rw [hrequest]
    exact h.key
  · rw [hsession,hrequest]
    exact h.fingerprint

/-- Sessions are only added and terminal ones stay as they are. -/
def SessionsKept (w w' : World) : Prop :=
  ∀ (s : ℕ) row, w.sessions[s]? = some row →
    ∃ row', w'.sessions[s]? = some row' ∧ (sessionIsTerminal row.state → row' = row)

/-- Turns are only added and terminal ones stay as they are. -/
def TurnsKept (w w' : World) : Prop :=
  ∀ (t : ℕ) turn, w.turns[t]? = some turn → ∃ turn', w'.turns[t]? = some turn' ∧ Follows turn turn'

section Sessions

theorem SessionsKept.of_eq {w' : World} (h : w'.sessions = w.sessions) : SessionsKept w w' := by
  intro s row hs
  exact ⟨row,by rw [h]; exact hs,fun _ => rfl⟩

theorem SessionsKept.of_set {w' : World} {id : ℕ} {session row : SessionRow}
    (hsession : w.sessions[id]? = some session) (hlive : sessionIsTerminal session.state = false)
    (h : w'.sessions = w.sessions.set id row) : SessionsKept w w' := by
  intro s r hs
  rw [h,List.getElem?_set]
  by_cases hid : id = s
  · subst hid
    rw [hsession] at hs
    cases hs
    refine ⟨row,?_,?_⟩
    · rw [if_pos rfl,if_pos (List.getElem?_eq_some_iff.mp hsession).1]
    · intro h
      rw [hlive] at h
      cases h
  · rw [if_neg hid]
    exact ⟨r,hs,fun _ => rfl⟩

theorem SessionsKept.trans {w₂ : World} (h₁ : SessionsKept w w₁) (h₂ : SessionsKept w₁ w₂) :
    SessionsKept w w₂ := by
  intro s row hs
  obtain ⟨row₁,hs₁,hrow₁⟩ := h₁ s row hs
  obtain ⟨row₂,hs₂,hrow₂⟩ := h₂ s row₁ hs₁
  refine ⟨row₂,hs₂,fun h => ?_⟩
  have he := hrow₁ h
  rw [hrow₂ (by rw [he]; exact h), he]

theorem terminalize_sessions (sessionId : ℕ) (target : AgentSessionState)
    (errorCode : Option String) :
    SessionsKept w (w.terminalize sessionId target errorCode) := by
  unfold terminalize
  cases hs : w.sessions[sessionId]? with
  | none => exact .of_eq rfl
  | some =>
    dsimp only
    split_ifs with hlive
    · exact .of_eq rfl
    · exact .of_set hs (Bool.eq_false_iff.mpr hlive) rfl

theorem reactivated_sessions (sessionId : ℕ) : SessionsKept w (w.reactivated sessionId) := by
  unfold reactivated
  cases hs : w.sessions[sessionId]? with
  | none => exact .of_eq rfl
  | some =>
    dsimp only
    split_ifs with hlive
    · exact .of_eq rfl
    · exact .of_set hs (Bool.eq_false_iff.mpr hlive) rfl

theorem Effect.sessions (h : Effect v w i c reply w₁ p) : SessionsKept w w₁ := by
  cases h with
  | goes | strands | permitsModel | permitsTool | dispatches | discards => exact .of_eq rfl
  | expires => exact terminalize_sessions _ _ _
  | opens _ _ _ _ hsession hlive | completes _ _ _ _ _ _ _ _ hsession hlive =>
    exact .of_set hsession hlive rfl
  | fails claim failure turn now =>
    have hput : SessionsKept w (w.putTurn claim.turnId
        (failedTurn claim failure.cancelled failure.errorCode now turn)) := .of_eq rfl
    refine hput.trans ?_
    exact (reactivated_sessions c.sessionId).trans (.of_eq rfl)

theorem Turn.sessions {w' : World} (h : Turn v w a w') : SessionsKept w w' := by
  cases h with
  | idles | submits | waits => exact .of_eq rfl
  | starts =>
    intro s row hs
    refine ⟨row,?_,fun _ => rfl⟩
    exact (List.getElem?_append_left (List.getElem?_eq_some_iff.mp hs).1).trans hs
  | ends _ sessionId target errorCode =>
    exact (terminalize_sessions sessionId target errorCode).trans (.of_eq rfl)
  | advances _ _ _ _ _ _ h => exact h.sessions.trans (.of_eq rfl)

end Sessions

section Fields

theorem terminalize_fields (w : World) (sessionId : ℕ) (target : AgentSessionState)
    (errorCode : Option String) :
    (w.terminalize sessionId target errorCode).turns = w.turns ∧
      (w.terminalize sessionId target errorCode).calls = w.calls ∧
      (w.terminalize sessionId target errorCode).modelPermits = w.modelPermits ∧
      (w.terminalize sessionId target errorCode).toolPermits = w.toolPermits ∧
      (w.terminalize sessionId target errorCode).dispatches = w.dispatches := by
  unfold terminalize
  cases w.sessions[sessionId]? with
  | none => exact ⟨rfl,rfl,rfl,rfl,rfl⟩
  | some =>
    dsimp only
    split_ifs <;> exact ⟨rfl,rfl,rfl,rfl,rfl⟩

theorem reactivated_fields (w : World) (sessionId : ℕ) :
    (w.reactivated sessionId).turns = w.turns ∧ (w.reactivated sessionId).calls = w.calls ∧
      (w.reactivated sessionId).modelPermits = w.modelPermits ∧
      (w.reactivated sessionId).toolPermits = w.toolPermits ∧
      (w.reactivated sessionId).dispatches = w.dispatches ∧
      (w.reactivated sessionId).events = w.events := by
  unfold reactivated
  cases w.sessions[sessionId]? with
  | none => exact ⟨rfl,rfl,rfl,rfl,rfl,rfl⟩
  | some =>
    dsimp only
    split_ifs <;> exact ⟨rfl,rfl,rfl,rfl,rfl,rfl⟩

end Fields

/-- What an effect does to the turns: nothing, one more of the call, or the last
write of the turn that the call owns. -/
inductive Writes (v : Service) (w : World) (i : ℕ) (c : Call) (w₁ : World) : Phase → Prop
  | same (p : Phase) (hturns : w₁.turns = w.turns) (hcalls : w₁.calls = w.calls)
      (hworks : p.works → c.phase.works)
      (hearly : p.early → c.phase.early) : Writes v w i c w₁ p
  | opens (p : Phase) (session : SessionRow) (now : ℤ)
      (hsession : w.sessions[c.sessionId]? = some session) (hphase : c.phase = .opening)
      (hnew : w.existingTurn c = none)
      (hturns : w₁.turns = w.turns++[openedTurn v i c session now])
      (hcalls : w₁.calls = w.calls.modify i fun c =>
        { c with claim := some ⟨w.turns.length,session.startedAt,session.correlationId,now⟩ })
      (hearly : p.early = false) : Writes v w i c w₁ p
  | settles (r : Result) (claim : Claim) (turn turn' : TurnRow)
      (hclaim : c.claim = some claim) (hworks : c.phase.works)
      (hturn : w.turns[claim.turnId]? = some turn)
      (hfollows : turnIsTerminal turn.state = false → Follows turn turn')
      (hfinal : turnIsTerminal turn'.state)
      (hturns : w₁.turns = w.turns.set claim.turnId turn') (hcalls : w₁.calls = w.calls) :
      Writes v w i c w₁ (.ended r)

theorem follows_of_active {turn turn' : TurnRow} (hs : turn'.sessionId = turn.sessionId)
    (hk : turn'.idempotencyKey = turn.idempotencyKey)
    (hf : turn'.requestFingerprint = turn.requestFingerprint)
    (ho : turn'.executionOwnerId = turn.executionOwnerId)
    (h : turnIsTerminal turn.state = false) : Follows turn turn' := by
  refine ⟨hs,hk,hf,ho,fun ht => ?_⟩
  rw [h] at ht
  cases ht

theorem failedTurn_final (cancelled : Bool) (errorCode : String) (now : ℤ) (turn : TurnRow) :
    turnIsTerminal (failedTurn claim cancelled errorCode now turn).state := by
  cases cancelled <;> rfl

theorem Effect.writes (h : Effect v w i c reply w₁ p) : Writes v w i c w₁ p := by
  cases h with
  | goes _ h => exact .same p rfl rfl h.works h.early
  | strands =>
    refine .same _ rfl rfl ?_ ?_ <;> rintro ⟨⟩
  | expires _ hphase hp hp' =>
    obtain ⟨hturns,hcalls,-⟩ := w.terminalize_fields c.sessionId .expired
      (some "NXS_AGENT_SESSION_EXPIRED")
    refine .same p hturns hcalls ?_ ?_
    · intro hworks
      rcases hphase with h | h
      · obtain ⟨e,rfl⟩ := hp h
        cases hworks
      · rw [h]
        rfl
    · intro hearly
      rcases hphase with h | h
      · rw [h]
        rfl
      · rw [(hp' h).1] at hearly
        cases hearly
  | opens session now _ hphase hsession _ hnew _ hp =>
    refine .opens p session now hsession hphase hnew rfl rfl ?_
    rcases hp with rfl | ⟨⟨e,rfl⟩,-⟩ <;> rfl
  | permitsModel _ _ _ _ hworks _ _ hp | permitsTool _ _ _ _ hworks _ _ hp =>
    exact .same p rfl rfl (fun _ => hworks) (fun h => by rw [hp.1] at h; cases h)
  | dispatches _ hworks hp =>
    exact .same p rfl rfl (fun _ => hworks) (fun h => by rw [early_of_works hp] at h; cases h)
  | completes claim outcome _ turn now _ hclaim hworks _ _ hturn hp =>
    obtain ⟨r,rfl⟩ : ∃ r, p = .ended r := by rcases hp with rfl | ⟨e,rfl⟩ <;> exact ⟨_,rfl⟩
    refine .settles r claim turn _ hclaim hworks hturn ?_ rfl rfl rfl
    exact follows_of_active rfl rfl rfl rfl
  | discards claim errorCode turn now _ hclaim hworks hturn =>
    refine .settles _ claim turn _ hclaim hworks hturn ?_ (failedTurn_final true errorCode now turn)
      rfl rfl
    exact follows_of_active rfl rfl rfl rfl
  | fails claim failure turn now _ hclaim hworks hturn =>
    obtain ⟨hturns,hcalls,-⟩ := reactivated_fields (w.putTurn claim.turnId
      (failedTurn claim failure.cancelled failure.errorCode now turn)) c.sessionId
    refine .settles _ claim turn _ hclaim hworks hturn ?_ (failedTurn_final _ _ now turn)
      hturns hcalls
    exact follows_of_active rfl rfl rfl rfl

end

variable {v : Service} {w w₁ : World} {i : ℕ} {c : Call} {claim : Claim} {p : Phase} {a : Action}

/-- The invariant of turns and the calls that own them. -/
structure Owned (v : Service) (w : World) : Prop where
  claimed : ∀ (j : ℕ) c claim, w.calls[j]? = some c → c.claim = some claim →
    ∃ turn, w.turns[claim.turnId]? = some turn ∧ Bears v j c turn ∧
      (c.phase.works → turnIsTerminal turn.state = false)
  early : ∀ (j : ℕ) c, w.calls[j]? = some c → c.phase.early → c.claim = none
  working : ∀ (j : ℕ) c, w.calls[j]? = some c → c.phase.works → c.claim.isSome
  owner : ∀ (t : ℕ) turn, w.turns[t]? = some turn →
    ∃ c claim, w.calls[turn.executionOwnerId]? = some c ∧ c.claim = some claim ∧ claim.turnId = t
  keys : ∀ (t u : ℕ) r s, w.turns[t]? = some r → w.turns[u]? = some s →
    r.sessionId = s.sessionId → r.idempotencyKey.isSome →
    r.idempotencyKey = s.idempotencyKey → t = u
  sessions : ∀ (t : ℕ) turn, w.turns[t]? = some turn → turn.sessionId < w.sessions.length

theorem initial_owned (v : Service) : Owned v initial where
  claimed j c claim h := by cases h
  early j c h := by cases h
  working j c h := by cases h
  owner t turn h := by cases h
  keys t u r s h := by cases h
  sessions t turn h := by cases h

section Steps

variable {w' : World} {t j : ℕ}

theorem SessionsKept.length (h : SessionsKept w w') : w.sessions.length ≤ w'.sessions.length := by
  by_contra hlt
  obtain ⟨row,hrow⟩ : ∃ row, w.sessions[w'.sessions.length]? = some row :=
    ⟨_,List.getElem?_eq_getElem (by omega)⟩
  obtain ⟨_,hrow',-⟩ := h _ row hrow
  exact absurd (List.getElem?_eq_some_iff.mp hrow').1 (by omega)

theorem Owned.of_eq (h : w.Owned v) (hturns : w'.turns = w.turns) (hcalls : w'.calls = w.calls)
    (hs : SessionsKept w w') : w'.Owned v where
  claimed := by rw [hturns,hcalls]; exact h.claimed
  early := by rw [hcalls]; exact h.early
  working := by rw [hcalls]; exact h.working
  owner := by rw [hturns,hcalls]; exact h.owner
  keys := by rw [hturns]; exact h.keys
  sessions := by
    rw [hturns]
    exact fun t turn ht => (h.sessions t turn ht).trans_le hs.length

theorem set_cases {turns : List TurnRow} {u : ℕ} {turn row : TurnRow}
    (h : (turns.set t turn)[u]? = some row) :
    t = u ∧ row = turn ∨ t ≠ u ∧ turns[u]? = some row := by
  rw [List.getElem?_set] at h
  split_ifs at h with htu hlt
  · exact .inl ⟨htu,(Option.some.inj h).symm⟩
  · exact .inr ⟨htu,h⟩

theorem Owned.submits (h : w.Owned v) (process sessionId : ℕ) (request : SubmitTurnRequest) :
    ({ w with calls := w.calls++[⟨process,sessionId,request,none,.arrived⟩] } : World).Owned v where
  claimed j c claim hj hclaim := by
    rcases Batch.concat_cases hj with ⟨rfl,rfl⟩ | hj
    · cases hclaim
    · exact h.claimed j c claim hj hclaim
  early := Batch.forall_concat (fun _ => rfl) h.early
  working := by
    refine Batch.forall_concat (fun hworks => ?_) h.working
    cases hworks
  owner t turn ht := by
    obtain ⟨c,claim,hc,hclaim⟩ := h.owner t turn ht
    refine ⟨c,claim,?_,hclaim⟩
    exact (List.getElem?_append_left (List.getElem?_eq_some_iff.mp hc).1).trans hc
  keys := h.keys
  sessions := h.sessions

theorem enter_call (hi : w.calls[i]? = some c) :
    (w.enter i p).calls[i]? = some { c with phase := p } := by
  show (w.calls.modify i _)[i]? = _
  rw [List.getElem?_modify,hi]
  simp

theorem enter_other (hij : i ≠ j) : (w.enter i p).calls[j]? = w.calls[j]? := by
  show (w.calls.modify i _)[j]? = _
  rw [List.getElem?_modify_ne _ _ hij]

theorem enter_owner (hi : w.calls[i]? = some c)
    (h : ∃ c claim, w.calls[j]? = some c ∧ c.claim = some claim ∧ claim.turnId = t) :
    ∃ c claim, (w.enter i p).calls[j]? = some c ∧ c.claim = some claim ∧ claim.turnId = t := by
  obtain ⟨c',claim,hc',hclaim,ht⟩ := h
  by_cases hij : i = j
  · subst hij
    rw [hi] at hc'
    cases hc'
    exact ⟨_,claim,enter_call hi,hclaim,ht⟩
  · exact ⟨c',claim,(enter_other hij).trans hc',hclaim,ht⟩

section

variable (h : w.Owned v) (hi : w.calls[i]? = some c)

include h hi

theorem Owned.enters (hworks : p.works → c.phase.works)
    (hearly : p.early → c.phase.early) : (w.enter i p).Owned v where
  claimed j c' claim hj hclaim := by
    rcases Batch.modified hi hj with ⟨rfl,rfl⟩ | ⟨-,hj⟩
    · obtain ⟨turn,ht,hb,hactive⟩ := h.claimed j c claim hi hclaim
      exact ⟨turn,ht,hb.of_call rfl rfl,fun hp => hactive (hworks hp)⟩
    · exact h.claimed j c' claim hj hclaim
  early := Batch.forall_modify hi (fun hp => h.early i c hi (hearly hp)) h.early
  working := Batch.forall_modify hi (fun hp => h.working i c hi (hworks hp)) h.working
  owner t turn ht := enter_owner hi (h.owner t turn ht)
  keys := h.keys
  sessions := h.sessions

theorem Owned.same_owner {c' : Call} {claim' : Claim} (hclaim : c.claim = some claim)
    (hj : w.calls[j]? = some c') (hclaim' : c'.claim = some claim')
    (ht : claim.turnId = claim'.turnId) : i = j := by
  obtain ⟨_,hturn,hb,-⟩ := h.claimed i c claim hi hclaim
  obtain ⟨_,hturn',hb',-⟩ := h.claimed j c' claim' hj hclaim'
  rw [← ht,hturn] at hturn'
  cases hturn'
  exact hb.owner.symm.trans hb'.owner

theorem Owned.settles {r : Result} (hclaim : c.claim = some claim) {turn turn' : TurnRow}
    (hturn : w.turns[claim.turnId]? = some turn) (hfollows : Follows turn turn') (w₁ : World)
    (hturns : w₁.turns = w.turns.set claim.turnId turn') (hcalls : w₁.calls = w.calls)
    (hs : SessionsKept w w₁) : (w₁.enter i (.ended r)).Owned v := by
  have hi₁ : w₁.calls[i]? = some c := by rw [hcalls]; exact hi
  have hlt : claim.turnId < w.turns.length := (List.getElem?_eq_some_iff.mp hturn).1
  have hset {t : ℕ} {row : TurnRow} (ht : w₁.turns[t]? = some row) :
      ∃ row₀, w.turns[t]? = some row₀ ∧ Follows row₀ row := by
    rw [hturns] at ht
    rcases set_cases ht with ⟨rfl,rfl⟩ | ⟨-,ht⟩
    · exact ⟨turn,hturn,hfollows⟩
    · exact ⟨row,ht,.refl row⟩
  refine ⟨?_,?_,?_,?_,?_,?_⟩
  · intro j c' claim' hj hclaim'
    rcases Batch.modified hi₁ hj with ⟨rfl,rfl⟩ | ⟨hij,hj⟩
    · obtain ⟨row,ht,hb,-⟩ := h.claimed j c claim' hi hclaim'
      have he : claim = claim' := Option.some.inj (hclaim.symm.trans hclaim')
      subst he
      rw [hturn] at ht
      cases ht
      refine ⟨turn',?_,(hb.follows hfollows).of_call rfl rfl,by rintro ⟨⟩⟩
      show w₁.turns[claim.turnId]? = _
      rw [hturns,List.getElem?_set_self hlt]
    · rw [hcalls] at hj
      obtain ⟨row,ht,hb,hactive⟩ := h.claimed j c' claim' hj hclaim'
      refine ⟨row,?_,hb,hactive⟩
      have hne : claim.turnId ≠ claim'.turnId := fun he => hij (h.same_owner hi hclaim hj hclaim' he)
      show w₁.turns[claim'.turnId]? = _
      rw [hturns,List.getElem?_set_ne hne]
      exact ht
  · refine Batch.forall_modify hi₁ (fun hp => ?_) (hcalls ▸ h.early)
    cases hp
  · refine Batch.forall_modify hi₁ (fun hp => ?_) (hcalls ▸ h.working)
    cases hp
  · intro t row ht
    obtain ⟨row₀,ht₀,hf⟩ := hset ht
    apply enter_owner hi₁
    rw [hcalls,hf.owner]
    exact h.owner t row₀ ht₀
  · intro t u r s ht hu hsession hsome hkey
    obtain ⟨r₀,ht₀,hr⟩ := hset ht
    obtain ⟨s₀,hu₀,hs₀⟩ := hset hu
    refine h.keys t u r₀ s₀ ht₀ hu₀ ?_ ?_ ?_
    · rw [← hr.session,← hs₀.session]
      exact hsession
    · rw [← hr.key]
      exact hsome
    · rw [← hr.key,← hs₀.key]
      exact hkey
  · intro t row ht
    obtain ⟨row₀,ht₀,hf⟩ := hset ht
    rw [hf.session]
    exact (h.sessions t row₀ ht₀).trans_le hs.length

end

theorem existingTurn_none {turn : TurnRow} (h : w.existingTurn c = none) (ht : w.turns[t]? = some turn)
    (hsession : turn.sessionId = c.sessionId) (hsome : c.request.idempotencyKey.isSome) :
    turn.idempotencyKey ≠ c.request.idempotencyKey := by
  obtain ⟨key,hkey⟩ := Option.isSome_iff_exists.mp hsome
  rw [hkey]
  intro heq
  unfold existingTurn byIdempotencyKey at h
  rw [hkey,Option.bind_some] at h
  cases hf : w.turns.findIdx? fun t =>
      t.sessionId = c.sessionId ∧ t.idempotencyKey = some key with
  | none =>
    have hall := List.findIdx?_eq_none_iff.mp hf turn (List.mem_of_getElem? ht)
    simp [hsession,heq] at hall
  | some =>
    rw [hf,Option.bind_some,Option.map_eq_none_iff] at h
    obtain ⟨hlt,-⟩ := List.findIdx?_eq_some_iff_getElem.mp hf
    rw [List.getElem?_eq_getElem hlt] at h
    cases h

theorem Owned.opens (h : w.Owned v) (hi : w.calls[i]? = some c) {session : SessionRow} {now : ℤ}
    (hsession : w.sessions[c.sessionId]? = some session) (hphase : c.phase = .opening)
    (hnew : w.existingTurn c = none) (w₁ : World)
    (hturns : w₁.turns = w.turns++[openedTurn v i c session now])
    (hcalls : w₁.calls = w.calls.modify i fun c =>
      { c with claim := some ⟨w.turns.length,session.startedAt,session.correlationId,now⟩ })
    (hearly : p.early = false) (hs : SessionsKept w w₁) : (w₁.enter i p).Owned v := by
  have hcalls' : (w₁.enter i p).calls = w.calls.modify i fun c => { c with
      claim := some ⟨w.turns.length,session.startedAt,session.correlationId,now⟩, phase := p } := by
    rw [enter,hcalls,List.modify_modify_eq]
    rfl
  have hnone : c.claim = none := h.early i c hi (by rw [hphase]; rfl)
  have hold {t : ℕ} {turn : TurnRow} (ht : w.turns[t]? = some turn) :
      w₁.turns[t]? = some turn := by
    rw [hturns,List.getElem?_append_left (List.getElem?_eq_some_iff.mp ht).1]
    exact ht
  have hlast : w₁.turns[w.turns.length]? = some (openedTurn v i c session now) := by
    rw [hturns,List.getElem?_concat_length]
  have hcases {t : ℕ} {turn : TurnRow} (ht : w₁.turns[t]? = some turn) :
      t = w.turns.length ∧ turn = openedTurn v i c session now ∨ w.turns[t]? = some turn := by
    rw [hturns] at ht
    exact Batch.concat_cases ht
  refine ⟨?_,?_,?_,?_,?_,?_⟩
  · intro j c' claim hj hclaim
    rw [hcalls'] at hj
    rcases Batch.modified hi hj with ⟨rfl,rfl⟩ | ⟨-,hj⟩
    · cases hclaim
      exact ⟨_,hlast,⟨rfl,rfl,rfl,rfl⟩,fun _ => rfl⟩
    · obtain ⟨turn,ht,hrest⟩ := h.claimed j c' claim hj hclaim
      exact ⟨turn,hold ht,hrest⟩
  · rw [hcalls']
    refine Batch.forall_modify hi (fun hp => ?_) h.early
    rw [hearly] at hp
    cases hp
  · rw [hcalls']
    exact Batch.forall_modify hi (fun _ => rfl) h.working
  · intro t turn ht
    rw [hcalls']
    rcases hcases ht with ⟨rfl,rfl⟩ | ht
    · exact ⟨_,_,(List.getElem?_modify_eq _ i _).trans (congrArg (Option.map _) hi),rfl,rfl⟩
    · obtain ⟨c',claim,hc',hclaim,hid⟩ := h.owner t turn ht
      have hij : i ≠ turn.executionOwnerId := by
        rintro rfl
        rw [hi] at hc'
        cases hc'
        rw [hnone] at hclaim
        cases hclaim
      exact ⟨c',claim,(List.getElem?_modify_ne _ _ hij).trans hc',hclaim,hid⟩
  · intro t u r s ht hu hsame hsome hkey
    rcases hcases ht with ⟨rfl,rfl⟩ | ht <;> rcases hcases hu with ⟨rfl,rfl⟩ | hu
    · rfl
    · exact absurd hkey.symm (existingTurn_none hnew hu hsame.symm hsome)
    · exact absurd hkey (existingTurn_none hnew ht hsame (by rw [hkey] at hsome; exact hsome))
    · exact h.keys t u r s ht hu hsame hsome hkey
  · intro t turn ht
    refine Nat.lt_of_lt_of_le ?_ hs.length
    rcases hcases ht with ⟨rfl,rfl⟩ | ht
    · exact (List.getElem?_eq_some_iff.mp hsession).1
    · exact h.sessions t turn ht

theorem Owned.turn (h : w.Owned v) (ht : Turn v w a w') : w'.Owned v := by
  have hs := ht.sessions
  cases ht with
  | idles => exact h
  | starts | waits => exact h.of_eq rfl rfl hs
  | submits process sessionId request => exact h.submits process sessionId request
  | ends _ sessionId target errorCode =>
    obtain ⟨hturns,hcalls,-⟩ := w.terminalize_fields sessionId target errorCode
    exact h.of_eq hturns hcalls hs
  | advances i c _ w₁ _ hi he =>
    cases he.writes with
    | same _ hturns hcalls hworks hearly =>
      exact (h.of_eq hturns hcalls he.sessions).enters (by rw [hcalls]; exact hi) hworks hearly
    | opens _ _ _ hsession hphase hnew hturns hcalls hearly =>
      exact h.opens hi hsession hphase hnew w₁ hturns hcalls hearly he.sessions
    | settles _ claim _ _ hclaim hworks hturn hfollows _ hturns hcalls =>
      obtain ⟨_,hrow,-,hactive⟩ := h.claimed i c claim hi hclaim
      rw [hturn] at hrow
      cases hrow
      exact h.settles hi hclaim hturn (hfollows (hactive hworks)) w₁ hturns hcalls he.sessions

theorem Owned.step (h : w.Owned v) (a : Action) : (w.step v a).Owned v := h.turn (w.step_turn v a)

theorem Turn.turns (ht : Turn v w a w') (h : w.Owned v) : TurnsKept w w' := by
  intro t row hrow
  cases ht with
  | idles | starts | submits | waits => exact ⟨row,hrow,.refl row⟩
  | ends _ sessionId target errorCode =>
    obtain ⟨hturns,-⟩ := w.terminalize_fields sessionId target errorCode
    exact ⟨row,(congrArg (·[t]?) hturns).trans hrow,.refl row⟩
  | advances i c _ w₁ _ hi he =>
    show ∃ turn', w₁.turns[t]? = some turn' ∧ Follows row turn'
    cases he.writes with
    | same _ hturns => exact ⟨row,by rw [hturns]; exact hrow,.refl row⟩
    | opens _ _ _ _ _ _ hturns =>
      refine ⟨row,?_,.refl row⟩
      rw [hturns,List.getElem?_append_left (List.getElem?_eq_some_iff.mp hrow).1]
      exact hrow
    | settles _ claim _ turn' hclaim hworks hturn hfollows _ hturns =>
      obtain ⟨_,hturn₀,-,hactive⟩ := h.claimed i c claim hi hclaim
      rw [hturn] at hturn₀
      cases hturn₀
      rw [hturns,List.getElem?_set]
      by_cases hid : claim.turnId = t
      · subst hid
        rw [hturn] at hrow
        cases hrow
        refine ⟨turn',?_,hfollows (hactive hworks)⟩
        rw [if_pos rfl,if_pos (List.getElem?_eq_some_iff.mp hturn).1]
      · rw [if_neg hid]
        exact ⟨row,hrow,.refl row⟩

end Steps

end NexusAi.Agents.World
