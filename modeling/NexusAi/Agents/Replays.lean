import NexusAi.Agents.Orphans

/-!
# Repeated turns

Calls that carry one idempotency key. Only the call that opened the turn of the
key goes to the model or to a tool, and what the others are told is what the row
of the turn says, or that they could not ask: the runtime is disabled, the lock of
the session is held in their process, or the database raises.
-/

namespace NexusAi.Agents.World

variable {v : Service} {w w₁ w' : World} {i j t : ℕ} {c : Call} {reply : Reply} {p : Phase}
  {a : Action} {row : TurnRow}

section Owner

/-- A call that has gone to the model or to a tool owns a turn. -/
def Dispatched (w : World) : Prop :=
  ∀ i ∈ w.dispatches, ∃ c, w.calls[i]? = some c ∧ c.claim.isSome

/-- What an owner has returned is what the row of its turn says. -/
def Answered (w : World) : Prop :=
  ∀ (i : ℕ) c claim r, w.calls[i]? = some c → c.claim = some claim →
    c.phase = .ended (.returned r) →
    ∃ turn, w.turns[claim.turnId]? = some turn ∧ turn.state = .completed ∧
      r = responseFromTurn claim.turnId turn

theorem value_nonempty (f : ModelFinishReason) : decide (f.value ≠ "") := by
  cases f <;> decide

theorem finishedResponse_eq {claim : Claim} {outcome : TurnOutcome} {now : ℤ} {turn : TurnRow}
    (h : turn.sessionId = c.sessionId) :
    finishedResponse v c claim outcome now =
      responseFromTurn claim.turnId (completedTurn v c claim outcome now turn) := by
  simp only [finishedResponse,responseFromTurn,completedTurn,h,Option.getD_some,
    Option.filter_some,value_nonempty,if_true]

theorem Effect.dispatches_cases (h : Effect v w i c reply w₁ p) :
    w₁.dispatches = w.dispatches ∨
      w₁.dispatches = w.dispatches++[i] ∧ c.phase.works := by
  cases h with
  | goes | strands | opens | permitsModel | permitsTool | completes | discards => exact .inl rfl
  | expires =>
    exact .inl (w.terminalize_fields c.sessionId .expired
      (some "NXS_AGENT_SESSION_EXPIRED")).2.2.2.2
  | dispatches _ hworks => exact .inr ⟨rfl,hworks⟩
  | fails claim failure turn now =>
    exact .inl (reactivated_fields (w.putTurn claim.turnId
      (failedTurn claim failure.cancelled failure.errorCode now turn)) c.sessionId).2.2.2.2.1

theorem modified_call {calls : List Call} {f : Call → Call} (hj : calls[j]? = some c) :
    ∃ c', (calls.modify i f)[j]? = some c' ∧ (c' = f c ∨ c' = c) := by
  rw [List.getElem?_modify,hj]
  by_cases hij : i = j
  · exact ⟨f c,by simp [hij],.inl rfl⟩
  · exact ⟨c,by simp [hij],.inr rfl⟩

structure Lasts (c c' : Call) : Prop where
  session : c'.sessionId = c.sessionId
  request : c'.request = c.request
  claim : c.claim.isSome → c'.claim.isSome

theorem Lasts.refl (c : Call) : Lasts c c := ⟨rfl,rfl,id⟩

theorem Effect.call_lasts (h : Effect v w i c reply w₁ p) {d : Call} (hj : w.calls[j]? = some d) :
    ∃ d', (w₁.enter i p).calls[j]? = some d' ∧ Lasts d d' := by
  have hmid : ∃ d₁, w₁.calls[j]? = some d₁ ∧ Lasts d d₁ := by
    cases h.writes with
    | same _ _ hcalls | settles _ _ _ _ _ _ _ _ _ _ hcalls =>
      exact ⟨d,by rw [hcalls]; exact hj,.refl d⟩
    | opens _ _ _ _ _ _ _ hcalls =>
      rw [hcalls]
      obtain ⟨_,hd₁,rfl | rfl⟩ := modified_call hj
      · exact ⟨_,hd₁,rfl,rfl,fun _ => rfl⟩
      · exact ⟨_,hd₁,.refl _⟩
  obtain ⟨_,hd₁,hlasts⟩ := hmid
  obtain ⟨_,hd₂,rfl | rfl⟩ := modified_call (i := i) (f := fun c => { c with phase := p }) hd₁
  · exact ⟨_,hd₂,hlasts.session,hlasts.request,hlasts.claim⟩
  · exact ⟨_,hd₂,hlasts⟩

theorem Turn.call_lasts (ht : Turn v w a w') (hj : w.calls[j]? = some c) :
    ∃ c', w'.calls[j]? = some c' ∧ Lasts c c' := by
  cases ht with
  | idles | starts | waits => exact ⟨c,hj,.refl c⟩
  | submits =>
    refine ⟨c,?_,.refl c⟩
    exact (List.getElem?_append_left (List.getElem?_eq_some_iff.mp hj).1).trans hj
  | ends _ sessionId target errorCode =>
    obtain ⟨-,hcalls,-⟩ := w.terminalize_fields sessionId target errorCode
    exact ⟨c,(congrArg (·[j]?) hcalls).trans hj,.refl c⟩
  | advances _ _ _ _ _ _ he => exact he.call_lasts hj

theorem Dispatched.turn (h : w.Dispatched) (ho : w.Owned v) (ht : Turn v w a w') :
    w'.Dispatched := by
  have hold {j : ℕ} (hj : ∃ c, w.calls[j]? = some c ∧ c.claim.isSome) :
      ∃ c, w'.calls[j]? = some c ∧ c.claim.isSome := by
    obtain ⟨c,hc,hclaim⟩ := hj
    obtain ⟨c',hc',hlasts⟩ := ht.call_lasts hc
    exact ⟨c',hc',hlasts.claim hclaim⟩
  intro j hj
  cases ht with
  | idles | starts | waits => exact h j hj
  | submits => exact hold (h j hj)
  | ends _ sessionId target errorCode =>
    obtain ⟨-,-,-,-,hdispatches⟩ := w.terminalize_fields sessionId target errorCode
    exact hold (h j (hdispatches ▸ hj))
  | advances _ c _ w₁ _ hi he =>
    change j ∈ w₁.dispatches at hj
    rcases he.dispatches_cases with hsame | ⟨hmore,hworks⟩
    · exact hold (h j (hsame ▸ hj))
    · rw [hmore,List.mem_append,List.mem_singleton] at hj
      rcases hj with hj | rfl
      · exact hold (h j hj)
      · exact hold ⟨c,hi,ho.working j c hi hworks⟩

theorem Effect.returned {r : AgentResponse} (h : Effect v w i c reply w₁ p)
    (hp : p = .ended (.returned r)) :
    c.phase = .opening ∧ w₁ = w ∨ ∃ claim outcome session turn now, c.claim = some claim ∧
      w.turns[claim.turnId]? = some turn ∧
      w₁ = w.completedWorld v c claim outcome session turn now ∧
      r = finishedResponse v c claim outcome now := by
  cases h with
  | goes _ h => exact .inl ⟨(h.returned r hp).1,rfl⟩
  | strands | discards | fails => cases hp
  | expires _ hphase hp' hp'' =>
    rcases hphase with h | h
    · obtain ⟨e,he⟩ := hp' h
      rw [hp] at he
      cases he
    · exact absurd hp ((hp'' h).2.1 r)
  | opens _ _ _ _ _ _ _ _ hp' =>
    rcases hp' with h | ⟨⟨e,h⟩,-⟩
    · rw [hp] at h
      cases h
    · rw [hp] at h
      cases h
  | permitsModel _ _ _ _ _ _ _ hp' | permitsTool _ _ _ _ _ _ _ hp' => exact absurd hp (hp'.2.1 r)
  | dispatches _ _ hp' => exact absurd hp (unreturned_of_works hp' r)
  | completes claim outcome session turn now _ hclaim _ _ _ hturn hp' =>
    refine .inr ⟨claim,outcome,session,turn,now,hclaim,hturn,rfl,?_⟩
    rcases hp' with h | ⟨e,h⟩
    · rw [hp] at h
      cases h
      rfl
    · rw [hp] at h
      cases h

theorem Answered.kept (h : w.Answered) (hkept : TurnsKept w w') {claim : Claim}
    {r : AgentResponse} (hj : w.calls[j]? = some c) (hclaim : c.claim = some claim)
    (hr : c.phase = .ended (.returned r)) :
    ∃ turn, w'.turns[claim.turnId]? = some turn ∧ turn.state = .completed ∧
      r = responseFromTurn claim.turnId turn := by
  obtain ⟨turn,hturn,hc,hr⟩ := h j c claim r hj hclaim hr
  obtain ⟨_,hturn',hf⟩ := hkept claim.turnId turn hturn
  rw [hf.final (by rw [hc]; rfl)] at hturn'
  exact ⟨turn,hturn',hc,hr⟩

theorem Answered.turn (h : w.Answered) (ho : w.Owned v) (ht : Turn v w a w') :
    w'.Answered := by
  have hkept := ht.turns ho
  cases ht with
  | idles | starts | waits => exact h
  | submits =>
    intro j c claim r hj hclaim hr
    rcases Batch.concat_cases hj with ⟨rfl,rfl⟩ | hj
    · cases hclaim
    · exact h j c claim r hj hclaim hr
  | ends _ sessionId target errorCode =>
    intro j c claim r hj hclaim hr
    obtain ⟨-,hcalls,-⟩ := w.terminalize_fields sessionId target errorCode
    exact h.kept hkept ((congrArg (·[j]?) hcalls).symm.trans hj) hclaim hr
  | advances i c _ _ _ hi he =>
    intro j c' claim r hj hclaim hr
    rcases Batch.modify_cases hj with ⟨c₁,hc₁,rfl,rfl⟩ | ⟨hij,hj⟩
    · rcases he.returned hr with
        ⟨hphase,rfl⟩ | ⟨claim',outcome,session,turn,now,hclaim',hturn,rfl,rfl⟩
      · rw [hi] at hc₁
        cases hc₁
        have hnone := ho.early i c hi (by rw [hphase]; rfl)
        rw [show c.claim = some claim from hclaim] at hnone
        cases hnone
      · change w.calls[i]? = some c₁ at hc₁
        rw [hi] at hc₁
        cases hc₁
        rw [show c.claim = some claim from hclaim] at hclaim'
        cases hclaim'
        obtain ⟨_,hturn₁,hb,-⟩ := ho.claimed i c claim hi hclaim
        rw [hturn] at hturn₁
        cases hturn₁
        refine ⟨completedTurn v c claim outcome now turn,?_,rfl,finishedResponse_eq hb.session⟩
        exact List.getElem?_set_self (List.getElem?_eq_some_iff.mp hturn).1
    · rw [he.bystanders hij] at hj
      exact h.kept hkept hj hclaim hr

end Owner

section Replays

structure Repeats (c : Call) (row : TurnRow) : Prop where
  session : c.sessionId = row.sessionId
  key : c.request.idempotencyKey = row.idempotencyKey
  keyed : row.idempotencyKey.isSome

theorem Repeats.follows {row' : TurnRow} (h : Repeats c row) (hf : Follows row row') :
    Repeats c row' :=
  ⟨h.session.trans hf.session.symm,h.key.trans hf.key.symm,by rw [hf.key]; exact h.keyed⟩

theorem Repeats.of_call {c' : Call} (h : Repeats c row) (hsession : c'.sessionId = c.sessionId)
    (hrequest : c'.request = c.request) : Repeats c' row :=
  ⟨hsession.trans h.session,by rw [hrequest]; exact h.key,h.keyed⟩

theorem Repeats.existingTurn (h : Repeats c row) (ho : w.Owned v)
    (hrow : w.turns[t]? = some row) : w.existingTurn c = some (t,row) := by
  obtain ⟨key,hkey⟩ := Option.isSome_iff_exists.mp h.keyed
  unfold World.existingTurn byIdempotencyKey
  rw [h.key,hkey,Option.bind_some,h.session]
  cases hf : w.turns.findIdx? fun t =>
      t.sessionId = row.sessionId ∧ t.idempotencyKey = some key with
  | none =>
    have hall := List.findIdx?_eq_none_iff.mp hf row (List.mem_of_getElem? hrow)
    simp [hkey] at hall
  | some u =>
    obtain ⟨hlt,hu,-⟩ := List.findIdx?_eq_some_iff_getElem.mp hf
    rw [decide_eq_true_eq] at hu
    have hget : w.turns[u]? = some w.turns[u] := List.getElem?_eq_getElem hlt
    have htu : t = u :=
      ho.keys t u row _ hrow hget hu.1.symm h.keyed (hkey.trans hu.2.symm)
    subst htu
    rw [Option.bind_some,hrow]
    rfl

theorem Repeats.openTurn (h : Repeats c row) (ho : w.Owned v) (hrow : w.turns[t]? = some row)
    (now : ℤ) : w.openTurn v j c now =
      (w,.ended (resolveExistingTurn t row (v.fingerprint c.sessionId c.request.content))) := by
  have hlt : c.sessionId < w.sessions.length := by
    rw [h.session]
    exact ho.sessions t row hrow
  unfold World.openTurn
  rw [List.getElem?_eq_getElem hlt,h.existingTurn ho hrow]

/-- What a call is told that could not ask for its turn: as it arrives, that the runtime is
disabled or the lock held, and as it opens the turn, what the database raised. -/
inductive Excuses (v : Service) (w : World) (j : ℕ) : Action → AgentError → Prop
  | disabled (c : Call) (reply : Reply) (hj : w.calls[j]? = some c) (hphase : c.phase = .arrived)
      (h : v.settings.enabled = false) : Excuses v w j (.advance j reply) .disabled
  | busy (c : Call) (reply : Reply) (hj : w.calls[j]? = some c) (hphase : c.phase = .arrived)
      (h : w.locked c.process c.sessionId) : Excuses v w j (.advance j reply) .busy
  | broken (c : Call) (f : Fault) (landed : Bool) (now : ℤ) (hj : w.calls[j]? = some c)
      (hphase : c.phase = .opening) : Excuses v w j (.advance j (.fault f landed now)) (.fault f)

/-- The next phase of a call whose key stands for a turn. -/
inductive Asks (v : Service) (w : World) (j t : ℕ) (row : TurnRow) (c : Call) (a : Action) :
    Phase → Prop
  | stays : Asks v w j t row c a c.phase
  | opens (hearly : c.phase.early) : Asks v w j t row c a .opening
  | told (hearly : c.phase.early) : Asks v w j t row c a
      (.ended (resolveExistingTurn t row (v.fingerprint c.sessionId c.request.content)))
  | excused (hearly : c.phase.early) (e : AgentError) (he : Excuses v w j a e) :
      Asks v w j t row c a (.ended (.raised e))

section

variable (h : Repeats c row) (ho : w.Owned v) (hrow : w.turns[t]? = some row)
  (hj : w.calls[j]? = some c) (hnone : c.claim = none)

include h ho hrow hj hnone

theorem Repeats.advance (reply : Reply) :
    ∃ p, (w.advance v j c reply).calls[j]? = some { c with phase := p } ∧
      Asks v w j t row c (.advance j reply) p := by
  unfold World.advance
  split
  · rename_i hphase
    have hearly : c.phase.early := by rw [hphase]; rfl
    unfold arrive
    split_ifs with hoff hlocked
    · exact ⟨_,enter_call hj,.excused hearly _ (.disabled c reply hj hphase (by simpa using hoff))⟩
    · exact ⟨_,enter_call hj,.excused hearly _ (.busy c reply hj hphase hlocked)⟩
    · exact ⟨_,enter_call hj,.opens hearly⟩
  · rename_i hphase
    have hearly : c.phase.early := by rw [hphase]; rfl
    cases reply with
    | done =>
      simp only [transact,h.openTurn ho hrow]
      exact ⟨_,enter_call hj,.told hearly⟩
    | prepared | responded => exact ⟨_,hj,.stays⟩
    | fault f landed now =>
      refine ⟨raise f,?_,.excused hearly _ (.broken c f landed now hj hphase)⟩
      cases landed with
      | true =>
        simp only [transact,h.openTurn ho hrow]
        exact enter_call hj
      | false => exact enter_call hj
  · split
    · rename_i hclaim
      rw [hnone] at hclaim
      cases hclaim
    · exact ⟨_,hj,.stays⟩

theorem Repeats.step (a : Action) :
    ∃ p, (w.step v a).calls[j]? = some { c with phase := p } ∧ Asks v w j t row c a p := by
  by_cases hself : ∃ reply, a = .advance j reply
  · obtain ⟨reply,rfl⟩ := hself
    simp only [World.step,hj]
    exact h.advance ho hrow hj hnone reply
  · refine ⟨c.phase,?_,.stays⟩
    have ht := w.step_turn v a
    generalize w.step v a = w' at ht
    cases ht with
    | idles | starts | waits => exact hj
    | submits =>
      exact (List.getElem?_append_left (List.getElem?_eq_some_iff.mp hj).1).trans hj
    | ends _ sessionId target errorCode =>
      exact (congrArg (·[j]?) (w.terminalize_fields sessionId target errorCode).2.1).trans hj
    | advances i _ reply _ _ _ he =>
      have hij : i ≠ j := by
        rintro rfl
        exact hself ⟨reply,rfl⟩
      rw [enter_other hij,he.bystanders hij]
      exact hj

end

end Replays

end NexusAi.Agents.World
