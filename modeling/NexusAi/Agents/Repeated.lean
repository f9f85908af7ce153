import NexusAi.Agents.Replays

/-!
# One execution for each key

However the calls with one key arrive, one of them executes, and the others are
told what came of it.
-/

namespace NexusAi.Agents.World

variable {v : Service} {w w' : World} {i j t : ℕ} {c : Call} {a : Action} {row : TurnRow}

/-- What a call with the key of a turn has been told: that it could not ask, or
what the row said. -/
def Told (v : Service) (t : ℕ) (turn : TurnRow) (excused : AgentError → Prop) (c : Call)
    (r : Result) : Prop :=
  (∃ e, r = .raised e ∧ excused e) ∨ ∃ row, Follows turn row ∧
    r = resolveExistingTurn t row (v.fingerprint c.sessionId c.request.content)

def Late (v : Service) (t : ℕ) (turn : TurnRow) (excused : AgentError → Prop) (j : ℕ)
    (w : World) : Prop :=
  ∀ c, w.calls[j]? = some c → Repeats c turn → c.claim = none ∧
    (c.phase.early ∨ ∃ r, c.phase = .ended r ∧ Told v t turn excused c r)

theorem Turn.new_call (ht : Turn v w a w') (hj : w'.calls[j]? = some c)
    (hnew : w.calls[j]? = none) : c.claim = none ∧ c.phase = .arrived := by
  have hold (h : w.calls[j]? = some c) : c.claim = none ∧ c.phase = .arrived := by
    rw [hnew] at h
    cases h
  cases ht with
  | idles | starts | waits => exact hold hj
  | submits =>
    rcases Batch.concat_cases hj with ⟨rfl,rfl⟩ | hj
    · exact ⟨rfl,rfl⟩
    · exact hold hj
  | ends _ sessionId target errorCode =>
    exact hold ((congrArg (·[j]?) (w.terminalize_fields sessionId target errorCode).2.1).symm.trans
      hj)
  | advances i _ _ _ _ hi he =>
    have hij : i ≠ j := by
      rintro rfl
      rw [hnew] at hi
      cases hi
    rw [enter_other hij,he.bystanders hij] at hj
    exact hold hj

theorem Late.step {turn : TurnRow} {excused excused' : AgentError → Prop}
    (h : Late v t turn excused j w) (ho : w.Owned v) (hrow : w.turns[t]? = some row)
    (hf : Follows turn row) (hmono : ∀ e, excused e → excused' e)
    (hnew : ∀ e, Excuses v w j a e → excused' e) : Late v t turn excused' j (w.step v a) := by
  intro c' hj' hrep
  cases hj : w.calls[j]? with
  | none =>
    obtain ⟨hnone,hphase⟩ := (w.step_turn v a).new_call hj' hj
    exact ⟨hnone,.inl (by rw [hphase]; rfl)⟩
  | some c =>
    obtain ⟨_,hc₁,hlasts⟩ := (w.step_turn v a).call_lasts hj
    rw [hj'] at hc₁
    cases hc₁
    have hrep₀ : Repeats c turn := hrep.of_call hlasts.session.symm hlasts.request.symm
    obtain ⟨hnone,hlate⟩ := h c hj hrep₀
    obtain ⟨p,hp,hasks⟩ := (hrep₀.follows hf).step ho hrow hj hnone a
    rw [hj'] at hp
    cases hp
    refine ⟨hnone,?_⟩
    cases hasks with
    | stays =>
      rcases hlate with hearly | ⟨r,hr,⟨e,he,hex⟩ | htold⟩
      · exact .inl hearly
      · exact .inr ⟨r,hr,.inl ⟨e,he,hmono e hex⟩⟩
      · exact .inr ⟨r,hr,.inr htold⟩
    | opens => exact .inl rfl
    | told => exact .inr ⟨_,rfl,.inr ⟨row,hf,rfl⟩⟩
    | excused _ e he => exact .inr ⟨_,rfl,.inl ⟨e,rfl,hnew e he⟩⟩

def ExcusedIn (v : Service) (w : World) (bs : List Action) (j : ℕ) (e : AgentError) : Prop :=
  ∃ bs₁ a bs₂, bs = bs₁++a::bs₂ ∧ Excuses v (Run.exec (step v) bs₁ w) j a e

theorem ExcusedIn.concat {bs : List Action} {e : AgentError} (h : ExcusedIn v w bs j e)
    (a : Action) : ExcusedIn v w (bs++[a]) j e := by
  obtain ⟨bs₁,b,bs₂,rfl,he⟩ := h
  exact ⟨bs₁,b,bs₂++[a],by simp,he⟩

theorem exec_late (bs : List Action) (ho : w.Owned v) {turn : TurnRow}
    (hturn : w.turns[t]? = some turn)
    (hearly : ∀ c, w.calls[j]? = some c → c.phase.early) :
    (Run.exec (step v) bs w).Owned v ∧
      (∃ row, (Run.exec (step v) bs w).turns[t]? = some row ∧ Follows turn row) ∧
      Late v t turn (ExcusedIn v w bs j) j (Run.exec (step v) bs w) := by
  -- from the last step backwards, as what is excused depends on the steps before it
  induction bs using List.reverseRecOn with
  | nil =>
    refine ⟨ho,⟨turn,hturn,.refl turn⟩,?_⟩
    intro c hj _
    exact ⟨ho.early j c hj (hearly c hj),.inl (hearly c hj)⟩
  | append_singleton bs a ih =>
    obtain ⟨ho',⟨row,hrow,hf⟩,hlate⟩ := ih
    rw [Run.exec_append]
    show (World.step v _ a).Owned v ∧ _
    obtain ⟨row',hrow',hf'⟩ := (World.step_turn v _ a).turns ho' t row hrow
    refine ⟨ho'.step a,⟨row',hrow',hf.trans hf'⟩,?_⟩
    refine hlate.step ho' hrow hf (fun e he => he.concat a) ?_
    intro e he
    exact ⟨bs,a,[],rfl,he⟩

section Main

variable (v)

theorem reached_answered (as : List Action) :
    (Run.exec (step v) as initial).Owned v ∧ (Run.exec (step v) as initial).Dispatched ∧
      (Run.exec (step v) as initial).Answered := by
  apply Run.exec_invariant (step v) (fun w => w.Owned v ∧ w.Dispatched ∧ w.Answered) _ as initial
  · refine ⟨initial_owned v,?_,?_⟩
    · intro i hi
      cases hi
    · intro i c claim r hi
      cases hi
  · rintro w a ⟨ho,hd,ha⟩
    have ht := w.step_turn v a
    exact ⟨ho.turn ht,hd.turn ho ht,ha.turn ho ht⟩

variable {v}

theorem Dispatched.unique (h : w.Dispatched) (ho : w.Owned v) {d : Call}
    (hc : w.calls[i]? = some c) (hd : w.calls[j]? = some d) (hsession : c.sessionId = d.sessionId)
    (hkey : c.request.idempotencyKey = d.request.idempotencyKey)
    (hsome : c.request.idempotencyKey.isSome) (hi : i ∈ w.dispatches)
    (hj : j ∈ w.dispatches) : i = j := by
  obtain ⟨_,hc₁,hclaim⟩ := h i hi
  obtain ⟨_,hd₁,hclaim'⟩ := h j hj
  rw [hc] at hc₁
  cases hc₁
  rw [hd] at hd₁
  cases hd₁
  obtain ⟨claim,hclaim⟩ := Option.isSome_iff_exists.mp hclaim
  obtain ⟨claim',hclaim'⟩ := Option.isSome_iff_exists.mp hclaim'
  obtain ⟨turn,hturn,hb,-⟩ := ho.claimed i c claim hc hclaim
  obtain ⟨turn',hturn',hb',-⟩ := ho.claimed j d claim' hd hclaim'
  refine ho.same_owner hc hclaim hd hclaim' (ho.keys _ _ turn turn' hturn hturn' ?_ ?_ ?_)
  · rw [hb.session,hb'.session,hsession]
  · rw [hb.key]
    exact hsome
  · rw [hb.key,hb'.key,hkey]

theorem resolved (hinj : ∀ s x y, v.fingerprint s x = v.fingerprint s y → x = y) {turn : TurnRow}
    {owner : Call} (hb : Bears v i owner turn) (hsession : c.sessionId = owner.sessionId)
    (hf : Follows turn row) {r : Result}
    (hr : r = resolveExistingTurn t row (v.fingerprint c.sessionId c.request.content)) :
    (c.request.content ≠ owner.request.content → r = .raised .idempotencyConflict) ∧
    (c.request.content = owner.request.content → turn.state = .completed →
      r = .returned (responseFromTurn t turn)) ∧
    (c.request.content = owner.request.content → turn.state = .failed ∨ turn.state = .cancelled →
      r = .raised (.idempotentReplay turn.errorCode)) := by
  have hfp : row.requestFingerprint = v.fingerprint owner.sessionId owner.request.content :=
    hf.fingerprint.trans hb.fingerprint
  rw [hsession] at hr
  unfold resolveExistingTurn at hr
  refine ⟨?_,?_,?_⟩
  · intro hne
    rwa [if_pos fun he => hne (hinj _ _ _ (hfp.symm.trans he)).symm] at hr
  · intro heq hstate
    have hrow := hf.final (by rw [hstate]; rfl)
    subst hrow
    rwa [if_neg (not_not.mpr (by rw [hfp,heq])), if_pos hstate] at hr
  · intro heq hstate
    have hfinal : turnIsTerminal turn.state := by
      rcases hstate with h | h <;> rw [h] <;> rfl
    have hrow := hf.final hfinal
    subst hrow
    have hopen : row.state ≠ .completed := by
      rcases hstate with h | h <;> rw [h] <;> decide
    rwa [if_neg (not_not.mpr (by rw [hfp,heq])), if_neg hopen, if_pos hfinal] at hr

/-- Where different contents have different fingerprints: among the calls with one
key of a session one goes to the model or to tools. What its owner returned is what
the row says. A call that asks once the turn is there executes nothing, and is told
of a conflict, the response or the error code, unless it could not ask. -/
theorem replays_agree (v : Service)
    (hinj : ∀ s x y, v.fingerprint s x = v.fingerprint s y → x = y) (as : List Action) :
    (∀ (i j : ℕ) c d, (Run.exec (step v) as initial).calls[i]? = some c →
      (Run.exec (step v) as initial).calls[j]? = some d → c.sessionId = d.sessionId →
      c.request.idempotencyKey = d.request.idempotencyKey →
      c.request.idempotencyKey.isSome →
      i ∈ (Run.exec (step v) as initial).dispatches →
      j ∈ (Run.exec (step v) as initial).dispatches → i = j) ∧
    ∀ (t : ℕ) turn owner, (Run.exec (step v) as initial).turns[t]? = some turn →
      turn.idempotencyKey.isSome →
      (Run.exec (step v) as initial).calls[turn.executionOwnerId]? = some owner →
      (∀ r, owner.phase = .ended (.returned r) →
        turn.state = .completed ∧ r = responseFromTurn t turn) ∧
      ∀ bs (j : ℕ) c r,
        (∀ c₀, (Run.exec (step v) as initial).calls[j]? = some c₀ → c₀.phase.early) →
        (Run.exec (step v) (as++bs) initial).calls[j]? = some c →
        c.sessionId = owner.sessionId →
        c.request.idempotencyKey = owner.request.idempotencyKey → c.phase = .ended r →
        j ∉ (Run.exec (step v) (as++bs) initial).dispatches ∧
        ((∃ e, r = .raised e ∧ ExcusedIn v (Run.exec (step v) as initial) bs j e) ∨
          (c.request.content ≠ owner.request.content → r = .raised .idempotencyConflict) ∧
          (c.request.content = owner.request.content → turn.state = .completed →
            r = .returned (responseFromTurn t turn)) ∧
          (c.request.content = owner.request.content →
            turn.state = .failed ∨ turn.state = .cancelled →
            r = .raised (.idempotentReplay turn.errorCode))) := by
  obtain ⟨ho,hd,ha⟩ := reached_answered v as
  refine ⟨fun i j c d hc hd' hs hk hsome hi hj => hd.unique ho hc hd' hs hk hsome hi hj,?_⟩
  intro t turn owner hturn hkeyed howner
  obtain ⟨_,claim,howner₁,hclaim,rfl⟩ := ho.owner t turn hturn
  rw [howner] at howner₁
  cases howner₁
  obtain ⟨_,hturn₁,hb,-⟩ := ho.claimed _ owner claim howner hclaim
  rw [hturn] at hturn₁
  cases hturn₁
  constructor
  · intro r hr
    obtain ⟨_,hturn₂,hc,hr⟩ := ha _ owner claim r howner hclaim hr
    rw [hturn] at hturn₂
    cases hturn₂
    exact ⟨hc,hr⟩
  · intro bs j c r hearly hj hsession hkey hphase
    have hd' := (reached_answered v (as++bs)).2.1
    rw [Run.exec_append] at hj hd' ⊢
    obtain ⟨-,-,hlate⟩ := exec_late bs ho hturn hearly
    obtain ⟨hnone,htold⟩ := hlate c hj ⟨hsession.trans hb.session.symm,hkey.trans hb.key.symm,hkeyed⟩
    constructor
    · intro hmem
      obtain ⟨_,hc₁,hsome⟩ := hd' j hmem
      rw [hj] at hc₁
      cases hc₁
      rw [hnone] at hsome
      cases hsome
    · rcases htold with hearly' | ⟨_,hr₁,htold⟩
      · rw [hphase] at hearly'
        cases hearly'
      · rw [hphase] at hr₁
        cases hr₁
        rcases htold with hex | ⟨_,hf,hr⟩
        · exact .inl hex
        · exact .inr (resolved hinj hb hsession hf hr)

theorem sampleService_injective (s : ℕ) (x y : String)
    (h : sampleService.fingerprint s x = sampleService.fingerprint s y) : x = y := h

def completedRun : List Action :=
  [.start 0 none,.submit 0 0 ⟨"hello",some "k",none⟩,.advance 0 (.done 1),.advance 0 (.done 1),
    .advance 0 (.done 1),.advance 0 (.prepared 3),.advance 0 (.done 2),.advance 0 (.done 2),
    .advance 0 (.responded ⟨"hi",.stop,[],5,2⟩),.advance 0 (.done 4),
    .stop 0 0 false,.advanceStop 0 (.done 5),.advanceStop 0 (.done 5)]

def repeatedRequest : List Action :=
  [.submit 1 0 ⟨"hello",some "k",none⟩,.advance 1 (.done 6),.advance 1 (.done 6)]

theorem completedRun_replayed :
    ((Run.exec (step sampleService) (completedRun++repeatedRequest) initial).calls.map Call.phase =
      [.ended (.returned ⟨0,0,"hi","STOP",0,5,2,7,3,none⟩),
        .ended (.returned ⟨0,0,"hi","STOP",0,5,2,7,3,none⟩)]) ∧
    1 ∉ (Run.exec (step sampleService) (completedRun++repeatedRequest) initial).dispatches := by
  refine ⟨by decide +kernel,?_⟩
  have h := (replays_agree sampleService sampleService_injective completedRun).2 0
    ⟨0,1,.completed,"hello",some "hi",some "STOP",5,2,0,3,none,some "k","hello",0,none,1⟩
    ⟨0,0,⟨"hello",some "k",none⟩,some ⟨0,0,none,1⟩,
      .ended (.returned ⟨0,0,"hi","STOP",0,5,2,7,3,none⟩)⟩
    (by decide +kernel) rfl (by decide +kernel)
  refine (h.2 repeatedRequest 1 ⟨1,0,⟨"hello",some "k",none⟩,none,
    .ended (.returned ⟨0,0,"hi","STOP",0,5,2,7,3,none⟩)⟩ _ ?_ ?_ rfl rfl rfl).1
  · have hnone : (Run.exec (step sampleService) completedRun initial).calls[1]? = none := by
      decide +kernel
    intro c hc
    rw [hnone] at hc
    cases hc
  · decide +kernel

/-- The key is used with another content while its turn is at work, and again with
the same content when the turn is completed and a stop holds the lock. -/
def hinderedRun : List Action :=
  [.start 0 none,.submit 0 0 ⟨"hello",some "k",none⟩,.advance 0 (.done 1),.advance 0 (.done 1),
    .submit 0 0 ⟨"other",some "k",none⟩,.advance 1 (.done 1),
    .advance 0 (.done 1),.advance 0 (.prepared 3),.advance 0 (.done 2),.advance 0 (.done 2),
    .advance 0 (.responded ⟨"hi",.stop,[],5,2⟩),.advance 0 (.done 4),
    .stop 0 0 false,.advanceStop 0 (.done 5),
    .submit 0 0 ⟨"hello",some "k",none⟩,.advance 2 (.done 5)]

theorem hinderedRun_busy :
    (Run.exec (step sampleService) hinderedRun initial).calls.map Call.phase =
      [.ended (.returned ⟨0,0,"hi","STOP",0,5,2,7,3,none⟩),.ended (.raised .busy),
        .ended (.raised .busy)] ∧
    (Run.exec (step sampleService) hinderedRun initial).turns.map TurnRow.state = [.completed] := by
  decide +kernel

end Main

end NexusAi.Agents.World
