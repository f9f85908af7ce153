import NexusAi.Agents.Owners

/-!
# The fence around a dispatch

A session that has ended gets no permit and no response any more, whatever the
calls under way still do, and every permit is created once.
-/

namespace NexusAi.Agents.World

variable {v : Service} {w w₁ w' : World} {i : ℕ} {c : Call} {reply : Reply} {p : Phase}
  {a : Action}

section Permits

/-- The permits with the columns of their unique constraints. -/
structure Unique (w : World) : Prop where
  models : (w.modelPermits.map fun q => (q.turnId,q.iteration)).Nodup
  tools : (w.toolPermits.map fun q => (q.turnId,q.toolKey,q.argumentsHash)).Nodup

/-- One more permit, of a session that has not ended, or none. -/
inductive Permits (w w₁ : World) : Prop
  | same (hmodels : w₁.modelPermits = w.modelPermits) (htools : w₁.toolPermits = w.toolPermits)
  | model (q : ModelPermit) (hmodels : w₁.modelPermits = w.modelPermits++[q])
      (htools : w₁.toolPermits = w.toolPermits)
      (hlive : ∀ session, w.sessions[q.sessionId]? = some session →
        sessionIsTerminal session.state = false)
      (hfree : (w.modelPermits.any fun r =>
        r.turnId = q.turnId ∧ r.iteration = q.iteration) = false)
  | tool (q : ToolPermit) (hmodels : w₁.modelPermits = w.modelPermits)
      (htools : w₁.toolPermits = w.toolPermits++[q])
      (hlive : ∀ session, w.sessions[q.sessionId]? = some session →
        sessionIsTerminal session.state = false)
      (hfree : (w.toolPermits.any fun r => r.turnId = q.turnId ∧
        r.toolKey = q.toolKey ∧ r.argumentsHash = q.argumentsHash) = false)

theorem revoked_none (h : w.revoked c = none) {session : SessionRow}
    (hs : w.sessions[c.sessionId]? = some session) : sessionIsTerminal session.state = false := by
  rw [revoked,hs,Option.filter_eq_none_iff] at h
  exact Bool.eq_false_iff.mpr (h session rfl)

theorem Effect.permits (h : Effect v w i c reply w₁ p) : Permits w w₁ := by
  cases h with
  | goes | strands | opens | dispatches | completes | discards => exact .same rfl rfl
  | expires =>
    obtain ⟨-,-,hmodels,htools,-⟩ := w.terminalize_fields c.sessionId .expired
      (some "NXS_AGENT_SESSION_EXPIRED")
    exact .same hmodels htools
  | permitsModel _ _ _ _ _ hlive hfree =>
    exact .model _ rfl rfl (fun session hs => revoked_none hlive hs) hfree
  | permitsTool _ _ _ _ _ hlive hfree =>
    exact .tool _ rfl rfl (fun session hs => revoked_none hlive hs) hfree
  | fails claim failure turn now =>
    obtain ⟨-,-,hmodels,htools,-⟩ := reactivated_fields (w.putTurn claim.turnId
      (failedTurn claim failure.cancelled failure.errorCode now turn)) c.sessionId
    exact .same hmodels htools

theorem Turn.permits (h : Turn v w a w') : Permits w w' := by
  cases h with
  | idles | starts | submits | waits => exact .same rfl rfl
  | ends _ sessionId target errorCode =>
    obtain ⟨-,-,hmodels,htools,-⟩ := w.terminalize_fields sessionId target errorCode
    exact .same hmodels htools
  | advances _ _ _ _ _ _ he =>
    cases he.permits with
    | same hmodels htools => exact .same hmodels htools
    | model q hmodels htools hlive hfree => exact .model q hmodels htools hlive hfree
    | tool q hmodels htools hlive hfree => exact .tool q hmodels htools hlive hfree

theorem nodup_concat {A B : Type} {f : A → B} {l : List A} {x : A} (h : (l.map f).Nodup)
    (hx : ∀ y ∈ l, f y ≠ f x) : ((l++[x]).map f).Nodup := by
  rw [List.map_append,List.map_singleton,← List.concat_eq_append,List.nodup_concat]
  refine ⟨?_,h⟩
  rw [List.mem_map]
  rintro ⟨y,hy,he⟩
  exact hx y hy he

theorem Unique.permits (h : w.Unique) (hp : Permits w w') : w'.Unique := by
  cases hp with
  | same hmodels htools => exact ⟨by rw [hmodels]; exact h.models,by rw [htools]; exact h.tools⟩
  | model _ hmodels htools _ hfree =>
    refine ⟨?_,by rw [htools]; exact h.tools⟩
    rw [hmodels]
    refine nodup_concat h.models fun r hr he => ?_
    obtain ⟨hturn,hiteration⟩ := Prod.mk.inj he
    exact List.any_eq_false.mp hfree r hr (decide_eq_true ⟨hturn,hiteration⟩)
  | tool _ hmodels htools _ hfree =>
    refine ⟨by rw [hmodels]; exact h.models,?_⟩
    rw [htools]
    refine nodup_concat h.tools fun r hr he => ?_
    obtain ⟨hturn,hrest⟩ := Prod.mk.inj he
    exact List.any_eq_false.mp hfree r hr (decide_eq_true ⟨hturn,Prod.mk.inj hrest⟩)

def sessionPermits (w : World) (s : ℕ) : List ModelPermit × List ToolPermit :=
  (w.modelPermits.filter fun q => q.sessionId = s,
    w.toolPermits.filter fun q => q.sessionId = s)

theorem Permits.fenced (hp : Permits w w') {s : ℕ} {session : SessionRow}
    (hs : w.sessions[s]? = some session) (hended : sessionIsTerminal session.state) :
    w'.sessionPermits s = w.sessionPermits s := by
  unfold sessionPermits
  have hne {id : ℕ} (hlive : ∀ session, w.sessions[id]? = some session →
      sessionIsTerminal session.state = false) : id ≠ s := by
    rintro rfl
    rw [hlive session hs] at hended
    cases hended
  cases hp with
  | same hmodels htools => rw [hmodels,htools]
  | model _ hmodels htools hlive | tool _ hmodels htools hlive =>
    rw [hmodels,htools,List.filter_append]
    simp [hne hlive]

end Permits

section Responses

/-- No turn is completed and no response is announced. -/
structure Quiet (w w₁ : World) : Prop where
  turns : ∀ (t : ℕ) turn', w₁.turns[t]? = some turn' →
    turn'.state ≠ .completed ∧ turn'.responseText = none ∨
      ∃ turn, w.turns[t]? = some turn ∧ turn'.responseText = turn.responseText ∧
        (turn'.state = .completed → turn.state = .completed)
  ready : ∀ t, .responseReady t ∈ w₁.events → .responseReady t ∈ w.events

theorem Quiet.of_same (hturns : w₁.turns = w.turns)
    (hready : ∀ t, .responseReady t ∈ w₁.events → .responseReady t ∈ w.events) : Quiet w w₁ := by
  refine ⟨?_,hready⟩
  intro t turn' ht
  rw [hturns] at ht
  exact .inr ⟨turn',ht,rfl,id⟩

theorem Quiet.of_failed {claim : Claim} {turn : TurnRow} {cancelled : Bool} {errorCode : String}
    {now : ℤ} (hturn : w.turns[claim.turnId]? = some turn)
    (hturns : w₁.turns = w.turns.set claim.turnId (failedTurn claim cancelled errorCode now turn))
    (hevents : w₁.events = w.events++[.turnFailed claim.turnId errorCode]) : Quiet w w₁ := by
  constructor
  · intro t turn' ht
    rw [hturns] at ht
    rcases set_cases ht with ⟨rfl,rfl⟩ | ⟨-,ht⟩
    · refine .inr ⟨turn,hturn,rfl,?_⟩
      intro h
      cases cancelled <;> cases h
    · exact .inr ⟨turn',ht,rfl,id⟩
  · intro t ht
    rw [hevents] at ht
    simpa using ht

theorem terminalize_quiet (sessionId : ℕ) (target : AgentSessionState)
    (errorCode : Option String) : Quiet w (w.terminalize sessionId target errorCode) := by
  refine .of_same (w.terminalize_fields sessionId target errorCode).1 fun t ht => ?_
  unfold terminalize at ht
  cases hs : w.sessions[sessionId]? with
  | none =>
    rw [hs] at ht
    exact ht
  | some =>
    rw [hs] at ht
    dsimp only at ht
    split_ifs at ht
    · exact ht
    · simpa [emit,putSession] using ht

theorem Effect.completes_or_quiet (h : Effect v w i c reply w₁ p) :
    (∃ claim outcome session turn now, c.claim = some claim ∧ c.phase.works ∧
      w.sessions[c.sessionId]? = some session ∧ sessionIsTerminal session.state = false ∧
      w.turns[claim.turnId]? = some turn ∧
      w₁ = w.completedWorld v c claim outcome session turn now ∧
      (p = .ended (.returned (finishedResponse v c claim outcome now)) ∨
        ∃ e, p = .ended (.raised e))) ∨ Quiet w w₁ := by
  cases h with
  | goes | strands | permitsModel | permitsTool | dispatches =>
    exact .inr (.of_same rfl fun _ h => h)
  | expires => exact .inr (terminalize_quiet _ _ _)
  | opens =>
    refine .inr ⟨?_,?_⟩
    · intro t turn' ht
      rcases Batch.concat_cases ht with ⟨rfl,rfl⟩ | ht
      · exact .inl ⟨by rintro ⟨⟩,rfl⟩
      · exact .inr ⟨turn',ht,rfl,id⟩
    · intro t ht
      simpa [openedWorld,World.claim,emit,putSession] using ht
  | completes claim outcome session turn now _ hclaim hworks hsession hlive hturn hp =>
    exact .inl ⟨claim,outcome,session,turn,now,hclaim,hworks,hsession,hlive,hturn,rfl,hp⟩
  | discards _ _ _ _ _ _ _ hturn => exact .inr (.of_failed hturn rfl rfl)
  | fails claim failure turn now _ _ _ hturn =>
    obtain ⟨hturns,-,-,-,-,hevents⟩ := reactivated_fields (w.putTurn claim.turnId
      (failedTurn claim failure.cancelled failure.errorCode now turn)) c.sessionId
    refine .inr (.of_failed hturn hturns ?_)
    exact congrArg (·++[Event.turnFailed claim.turnId failure.errorCode]) hevents

/-- Text and announcement are those of completed turns. -/
structure Silent (w : World) : Prop where
  texts : ∀ (t : ℕ) turn, w.turns[t]? = some turn → turn.state ≠ .completed →
    turn.responseText = none
  ready : ∀ t, .responseReady t ∈ w.events → ∃ turn, w.turns[t]? = some turn ∧
    turn.state = .completed

theorem Silent.quiet (h : w.Silent) (hq : Quiet w w') (hkept : TurnsKept w w') : w'.Silent := by
  have hstays {t : ℕ} {turn : TurnRow} (ht : w.turns[t]? = some turn)
      (hc : turn.state = .completed) : w'.turns[t]? = some turn := by
    obtain ⟨turn',ht',hf⟩ := hkept t turn ht
    rw [hf.final (by rw [hc]; rfl)] at ht'
    exact ht'
  constructor
  · intro t turn' ht' hopen
    rcases hq.turns t turn' ht' with ⟨-,hnone⟩ | ⟨turn,ht,htext,-⟩
    · exact hnone
    · rw [htext]
      refine h.texts t turn ht fun hc => hopen ?_
      rw [hstays ht hc] at ht'
      cases ht'
      exact hc
  · intro t ht
    obtain ⟨turn,hturn,hc⟩ := h.ready t (hq.ready t ht)
    exact ⟨turn,hstays hturn hc,hc⟩

theorem Silent.completes (h : w.Silent) {claim : Claim} {outcome : TurnOutcome}
    {session : SessionRow} {turn : TurnRow} {now : ℤ}
    (hturn : w.turns[claim.turnId]? = some turn) :
    (w.completedWorld v c claim outcome session turn now).Silent := by
  have hlt : claim.turnId < w.turns.length := (List.getElem?_eq_some_iff.mp hturn).1
  have hset : (w.completedWorld v c claim outcome session turn now).turns =
      w.turns.set claim.turnId (completedTurn v c claim outcome now turn) := rfl
  constructor
  · intro t turn' ht' hopen
    rw [hset] at ht'
    rcases set_cases ht' with ⟨rfl,rfl⟩ | ⟨-,ht⟩
    · exact absurd rfl hopen
    · exact h.texts t turn' ht hopen
  · intro t ht
    rw [hset,List.getElem?_set]
    by_cases hid : claim.turnId = t
    · rw [if_pos hid,if_pos (hid ▸ hlt)]
      exact ⟨_,rfl,rfl⟩
    · rw [if_neg hid]
      apply h.ready t
      simpa [completedWorld,emit,putSession,putTurn,Ne.symm hid] using ht

theorem Silent.turn (h : w.Silent) (ho : w.Owned v) (ht : Turn v w a w') : w'.Silent := by
  have hkept := ht.turns ho
  cases ht with
  | idles => exact h
  | starts | submits | waits => exact ⟨h.texts,h.ready⟩
  | ends _ sessionId target errorCode =>
    have hs := h.quiet (terminalize_quiet sessionId target errorCode) hkept
    exact ⟨hs.texts,hs.ready⟩
  | advances _ c _ _ _ _ he =>
    rcases he.completes_or_quiet with
      ⟨claim,outcome,session,turn,now,-,-,-,-,hturn,rfl,-⟩ | hq
    · have hs : (w.completedWorld v c claim outcome session turn now).Silent := h.completes hturn
      exact ⟨hs.texts,hs.ready⟩
    · have hs := h.quiet hq hkept
      exact ⟨hs.texts,hs.ready⟩

structure Unanswered (s t : ℕ) (session : SessionRow) (w : World) : Prop where
  ended : sessionIsTerminal session.state
  session : w.sessions[s]? = some session
  turn : ∃ turn, w.turns[t]? = some turn ∧ turn.sessionId = s ∧ turn.state ≠ .completed

theorem SessionsKept.stays (h : SessionsKept w w') {s : ℕ} {session : SessionRow}
    (hs : w.sessions[s]? = some session) (hended : sessionIsTerminal session.state) :
    w'.sessions[s]? = some session := by
  obtain ⟨_,hrow,hsame⟩ := h s session hs
  rw [hrow,hsame hended]

theorem Quiet.unanswered (hq : Quiet w w') (hkept : TurnsKept w w') {t : ℕ} {turn : TurnRow}
    (hturn : w.turns[t]? = some turn) (hopen : turn.state ≠ .completed) :
    ∃ turn', w'.turns[t]? = some turn' ∧ turn'.sessionId = turn.sessionId ∧
      turn'.state ≠ .completed := by
  obtain ⟨turn',hturn',hf⟩ := hkept t turn hturn
  refine ⟨turn',hturn',hf.session,?_⟩
  rcases hq.turns t turn' hturn' with ⟨h,-⟩ | ⟨_,hrow,-,hback⟩
  · exact h
  · rw [hturn] at hrow
    cases hrow
    exact fun hc => hopen (hback hc)

theorem Unanswered.turned {s t : ℕ} {session : SessionRow} (h : Unanswered s t session w)
    (ho : w.Owned v) (ht : Turn v w a w') : Unanswered s t session w' := by
  have hkept := ht.turns ho
  refine ⟨h.ended,ht.sessions.stays h.session h.ended,?_⟩
  obtain ⟨turn,hturn,rfl,hopen⟩ := h.turn
  cases ht with
  | idles | starts | submits | waits => exact ⟨turn,hturn,rfl,hopen⟩
  | ends _ sessionId target errorCode =>
    exact (terminalize_quiet sessionId target errorCode).unanswered hkept hturn hopen
  | advances i c _ _ _ hi he =>
    rcases he.completes_or_quiet with
      ⟨claim,outcome,row,turn₁,now,hclaim,-,hrow,hlive,hturn₁,rfl,-⟩ | hq
    · -- the turn that is completed belongs to a session that is live
      have hne : claim.turnId ≠ t := by
        rintro rfl
        obtain ⟨_,hturn₂,hb,-⟩ := ho.claimed i c claim hi hclaim
        rw [hturn] at hturn₂
        cases hturn₂
        have hs := h.session
        rw [hb.session,hrow] at hs
        cases hs
        have hended := h.ended
        rw [hlive] at hended
        cases hended
      refine ⟨turn,?_,rfl,hopen⟩
      show (w.turns.set claim.turnId _)[t]? = _
      rw [List.getElem?_set_ne hne]
      exact hturn
    · exact hq.unanswered hkept hturn hopen

end Responses

section Runs

variable (v)

theorem exec_sound (as : List Action) (w : World) (h : w.Owned v ∧ w.Silent ∧ w.Unique) :
    (Run.exec (step v) as w).Owned v ∧ (Run.exec (step v) as w).Silent ∧
      (Run.exec (step v) as w).Unique := by
  apply Run.exec_invariant (step v) (fun w => w.Owned v ∧ w.Silent ∧ w.Unique) _ as w h
  rintro w a ⟨ho,hs,hu⟩
  have ht := w.step_turn v a
  exact ⟨ho.turn ht,hs.turn ho ht,hu.permits ht.permits⟩

theorem reached_sound (as : List Action) :
    (Run.exec (step v) as initial).Owned v ∧ (Run.exec (step v) as initial).Silent ∧
      (Run.exec (step v) as initial).Unique := by
  refine exec_sound v as initial ⟨initial_owned v,⟨?_,?_⟩,⟨List.nodup_nil,List.nodup_nil⟩⟩
  · intro t turn h
    cases h
  · intro t h
    cases h

variable {v}

theorem exec_fenced (bs : List Action) {s : ℕ} {session : SessionRow}
    (hs : w.sessions[s]? = some session) (hended : sessionIsTerminal session.state) :
    (Run.exec (step v) bs w).sessions[s]? = some session ∧
      (Run.exec (step v) bs w).sessionPermits s = w.sessionPermits s := by
  apply Run.exec_invariant (step v) (fun w' => w'.sessions[s]? = some session ∧
    w'.sessionPermits s = w.sessionPermits s) _ bs w ⟨hs,rfl⟩
  rintro w' a ⟨hs',hp⟩
  have ht := w'.step_turn v a
  exact ⟨ht.sessions.stays hs' hended,(ht.permits.fenced hs' hended).trans hp⟩

theorem exec_final (bs : List Action) (ho : w.Owned v) {t : ℕ} {turn : TurnRow}
    (ht : w.turns[t]? = some turn) (hfinal : turnIsTerminal turn.state) :
    (Run.exec (step v) bs w).turns[t]? = some turn := by
  refine (Run.exec_invariant (step v) (fun w => w.Owned v ∧ w.turns[t]? = some turn) ?_ bs w
    ⟨ho,ht⟩).2
  rintro w' a ⟨ho',ht'⟩
  obtain ⟨_,hturn',hf⟩ := (w'.step_turn v a).turns ho' t turn ht'
  rw [hf.final hfinal] at hturn'
  exact ⟨ho'.step a,hturn'⟩

theorem exec_unanswered (bs : List Action) (ho : w.Owned v) (hsilent : w.Silent) (hu : w.Unique)
    {s t : ℕ} {session : SessionRow} (h : Unanswered s t session w) :
    (∀ turn, (Run.exec (step v) bs w).turns[t]? = some turn → turn.responseText = none) ∧
      .responseReady t ∉ (Run.exec (step v) bs w).events := by
  have hend : (Run.exec (step v) bs w).Owned v ∧
      Unanswered s t session (Run.exec (step v) bs w) := by
    apply Run.exec_invariant (step v) (fun w => w.Owned v ∧ Unanswered s t session w) _ bs w
      ⟨ho,h⟩
    rintro w' a ⟨ho',h'⟩
    exact ⟨ho'.step a,h'.turned ho' (w'.step_turn v a)⟩
  have hs := (exec_sound v bs w ⟨ho,hsilent,hu⟩).2.1
  obtain ⟨turn,hturn,-,hopen⟩ := hend.2.turn
  constructor
  · intro turn' hturn'
    rw [hturn] at hturn'
    cases hturn'
    exact hs.texts t turn hturn hopen
  · intro hready
    obtain ⟨_,hturn',hc⟩ := hs.ready t hready
    rw [hturn] at hturn'
    cases hturn'
    exact hopen hc

/-- However submitted turns, stops, cancellations and expiries of all processes
interleave: an ended session keeps its state and gets no further permit, every
permit is given once, an ended turn keeps its row, and a turn whose session ended
first is never answered. -/
theorem dispatches_fenced (v : Service) (as : List Action) :
    (∀ (s : ℕ) session, (Run.exec (step v) as initial).sessions[s]? = some session →
      sessionIsTerminal session.state → ∀ bs,
        (Run.exec (step v) (as++bs) initial).sessions[s]? = some session ∧
        (Run.exec (step v) (as++bs) initial).sessionPermits s =
          (Run.exec (step v) as initial).sessionPermits s) ∧
    ((Run.exec (step v) as initial).modelPermits.map fun q => (q.turnId,q.iteration)).Nodup ∧
    ((Run.exec (step v) as initial).toolPermits.map fun q =>
      (q.turnId,q.toolKey,q.argumentsHash)).Nodup ∧
    (∀ (t : ℕ) turn, (Run.exec (step v) as initial).turns[t]? = some turn →
      turnIsTerminal turn.state → ∀ bs,
        (Run.exec (step v) (as++bs) initial).turns[t]? = some turn) ∧
    (∀ (t : ℕ) turn session, (Run.exec (step v) as initial).turns[t]? = some turn →
      turnIsTerminal turn.state = false →
      (Run.exec (step v) as initial).sessions[turn.sessionId]? = some session →
      sessionIsTerminal session.state → ∀ bs,
        (∀ turn', (Run.exec (step v) (as++bs) initial).turns[t]? = some turn' →
          turn'.responseText = none) ∧
        .responseReady t ∉ (Run.exec (step v) (as++bs) initial).events) := by
  obtain ⟨ho,hsilent,hu⟩ := reached_sound v as
  refine ⟨?_,hu.models,hu.tools,?_,?_⟩
  · intro s session hs hended bs
    rw [Run.exec_append]
    exact exec_fenced bs hs hended
  · intro t turn ht hfinal bs
    rw [Run.exec_append]
    exact exec_final bs ho ht hfinal
  · intro t turn session ht hactive hs hended bs
    rw [Run.exec_append]
    refine exec_unanswered bs ho hsilent hu ⟨hended,hs,turn,ht,rfl,fun hc => ?_⟩
    rw [hc] at hactive
    cases hactive

def sampleService : Service :=
  ⟨⟨true,3600000,4000,8,16⟩,fun _ content => content,fun _ => true⟩

/-- A turn is at the model when another process cancels its session. -/
def cancelledRun : List Action :=
  [.start 0 none,.submit 0 0 ⟨"hello",some "k",none⟩,.advance 0 (.done 1),.advance 0 (.done 1),
    .advance 0 (.done 1),.advance 0 (.prepared 3),.advance 0 (.done 2),.advance 0 (.done 2),
    .stop 1 0 true,.advanceStop 0 (.done 3),.advanceStop 0 (.done 3)]

def answeredLate : List Action :=
  [.advance 0 (.responded ⟨"hi",.stop,[],5,2⟩),.advance 0 (.done 4)]

theorem cancelledRun_fenced :
    ((Run.exec (step sampleService) cancelledRun initial).sessions.map SessionRow.state =
      [.cancelled]) ∧
    ((Run.exec (step sampleService) cancelledRun initial).turns.map TurnRow.state = [.running]) ∧
    ((Run.exec (step sampleService) (cancelledRun++answeredLate) initial).turns.map
      TurnRow.state = [.cancelled]) ∧
    .responseReady 0 ∉
      (Run.exec (step sampleService) (cancelledRun++answeredLate) initial).events := by
  refine ⟨by decide +kernel,by decide +kernel,by decide +kernel,?_⟩
  refine ((dispatches_fenced sampleService cancelledRun).2.2.2.2 0
    ⟨0,1,.running,"hello",none,none,0,0,0,0,none,some "k","hello",0,none,1⟩
    ⟨.cancelled,some "NXS_AGENT_CANCELLED",0,none,1⟩ ?_ rfl ?_ rfl answeredLate).2
  · decide +kernel
  · decide +kernel

end Runs

/-- Every turn is the turn of one call, that of its owner, with the session, the key and the
content of it. It is open while the owner works on it and has a text only when completed. -/
theorem turns_owned (v : Service) (as : List Action) :
    let w := Run.exec (step v) as initial
    (∀ (t : ℕ) turn, w.turns[t]? = some turn → turn.sessionId < w.sessions.length ∧
      (turn.state ≠ .completed → turn.responseText = none) ∧
      ∃ c claim, w.calls[turn.executionOwnerId]? = some c ∧ c.claim = some claim ∧
        claim.turnId = t ∧ Bears v turn.executionOwnerId c turn ∧
        (c.phase.works → turnIsTerminal turn.state = false) ∧
        ∀ (j : ℕ) d other, w.calls[j]? = some d → d.claim = some other → other.turnId = t →
          turn.executionOwnerId = j) ∧
    ∀ (i : ℕ) c, w.calls[i]? = some c → c.phase.works → c.claim.isSome := by
  obtain ⟨ho,hsilent,-⟩ := reached_sound v as
  refine ⟨fun t turn ht => ⟨ho.sessions t turn ht,hsilent.texts t turn ht,?_⟩,ho.working⟩
  obtain ⟨c,claim,hc,hclaim,rfl⟩ := ho.owner t turn ht
  obtain ⟨turn',ht',hbears,hworks⟩ := ho.claimed _ c claim hc hclaim
  rw [ht] at ht'
  cases ht'
  refine ⟨c,claim,hc,hclaim,rfl,hbears,hworks,fun j d other hd hother hsame => ?_⟩
  exact ho.same_owner hc hclaim hd hother hsame.symm

end NexusAi.Agents.World
