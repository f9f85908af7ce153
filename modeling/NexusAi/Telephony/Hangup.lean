import NexusAi.Telephony.Order

/-!
# Placing a call and hanging it up

The provider is asked once to create a call, behind the fence of the call's
admission if there is one, and its answer comes later or not at all. Hanging up
is a transaction on the row of the call and then a request to the provider, for
the id that the transaction found.
-/

namespace NexusAi.Telephony

inductive AdmissionState where
  | pending | dispatched | revoked
  deriving DecidableEq

structure AdmissionRow where
  callId : ℕ
  state : AdmissionState

inductive HangupPhase where
  | committed | requested | returned | failed
  deriving DecidableEq

structure Hangup where
  callId : ℕ
  /-- The call had not come to its end when its row was locked. -/
  live : Bool
  /-- The provider had been asked to create the call by then. -/
  asked : Bool
  providerCallId : Option String
  phase : HangupPhase
  deriving DecidableEq

structure Exchange where
  world : World
  admissions : List AdmissionRow
  /-- The calls that the provider was asked to create, and those that it created. -/
  asked : List ℕ
  created : List (ℕ × String)
  hangups : List Hangup
  /-- The hangups that were requested of the provider. -/
  requested : List (ℕ × String)

inductive ExchangeAction where
  | create (accountId : ℕ) (admitted : Bool)
  | dispatch (callId : ℕ)
  | revoke (callId : ℕ) (now : ℤ)
  | ask (callId : ℕ)
  | ring (callId : ℕ) (providerCallId : String)
  | answer (callId : ℕ) (outcome : PlaceOutcome)
  | link (callId : ℕ)
  | mark (callId : ℕ) (now : ℤ)
  | die (callId : ℕ)
  | hangup (callId : ℕ)
  | request (hangup : ℕ)
  | finish (hangup : ℕ)
  | drop (hangup : ℕ)
  | arrive (accountId : ℕ) (inbound : NormalizedInboundCall)
  | check (arrival : ℕ)
  | admitCall (arrival : ℕ) (now : ℤ)
  | receive (accountId : ℕ) (events : List NormalizedCallEvent)
  | process (request : ℕ) (now : ℤ)
  | dropRequest (request : ℕ)

namespace Exchange

def initial : Exchange := ⟨World.initial,[],[],[],[],[]⟩

def row (x : Exchange) (id : ℕ) : Option CallRow := Table.find CallRow.id id x.world.calls

def admission (x : Exchange) (id : ℕ) : Option AdmissionState :=
  (Table.find AdmissionRow.callId id x.admissions).map AdmissionRow.state

def act (x : Exchange) (a : Action) : Exchange := { x with world := x.world.step a }

def fence (x : Exchange) (id : ℕ) (state : AdmissionState) : Exchange :=
  { x with
    admissions := Table.edit AdmissionRow.callId [id] (fun r => ⟨r.callId,state⟩) x.admissions }

def createStep (x : Exchange) (accountId : ℕ) (admitted : Bool) : Exchange :=
  { x with
    world := x.world.step (.create accountId)
    admissions := if admitted then x.admissions++[⟨x.world.calls.length,.pending⟩]
      else x.admissions }

/-- The fence before the provider is called refuses a call at its end. -/
def dispatchStep (x : Exchange) (id : ℕ) : Exchange :=
  match x.admission id, x.row id with
  | some .pending, some row =>
    if isTerminal row.state then x else (x.act (.dispatch id)).fence id .dispatched
  | _, _ => x

def revokeStep (x : Exchange) (id : ℕ) (now : ℤ) : Exchange :=
  match x.admission id with
  | some .pending => (x.act (.revoke id now)).fence id .revoked
  | _ => x

/-- The request to create the call goes out, once. -/
def askStep (x : Exchange) (id : ℕ) : Exchange :=
  if x.world.phases[id]? = some .dialing ∧ id ∉ x.asked ∧
      (x.admission id = none ∨ x.admission id = some .dispatched) then
    { x with asked := x.asked++[id] }
  else x

/-- The provider creates the call that it was asked for. -/
def ringStep (x : Exchange) (id : ℕ) (providerCallId : String) : Exchange :=
  if id ∈ x.asked ∧ id ∉ x.created.map Prod.fst then
    { x with created := x.created++[(id,providerCallId)] }
  else x

/-- Only a call that the provider created is answered with its id. -/
def answerStep (x : Exchange) (id : ℕ) (outcome : PlaceOutcome) : Exchange :=
  match outcome with
  | .accepted providerCallId =>
    if (id,providerCallId) ∈ x.created then x.act (.place id outcome) else x
  | _ => x.act (.place id outcome)

def hangupStep (x : Exchange) (id : ℕ) : Exchange :=
  match x.row id with
  | some row =>
    let found : Hangup := if isTerminal row.state then ⟨id,false,decide (id ∈ x.asked),none,.returned⟩
      else ⟨id,true,decide (id ∈ x.asked),row.providerCallId,.committed⟩
    { x.act (.hangup id) with hangups := x.hangups++[found] }
  | none => x

def enter (x : Exchange) (h : ℕ) (phase : HangupPhase) : Exchange :=
  { x with hangups := x.hangups.modify h fun g => { g with phase := phase } }

def requestStep (x : Exchange) (h : ℕ) : Exchange :=
  match x.hangups[h]? with
  | some ⟨id,_,_,some providerCallId,.committed⟩ =>
    { x with requested := x.requested++[(id,providerCallId)] }.enter h .requested
  | _ => x

def finishStep (x : Exchange) (h : ℕ) : Exchange :=
  match x.hangups[h]? with
  | some ⟨_,_,_,none,.committed⟩ => x.enter h .returned
  | some ⟨_,_,_,_,.requested⟩ => x.enter h .returned
  | _ => x

/-- The caller is gone, or the account's secret cannot be had. -/
def dropStep (x : Exchange) (h : ℕ) : Exchange :=
  match x.hangups[h]? with
  | some ⟨_,_,_,_,.returned⟩ => x
  | _ => x.enter h .failed

def step (x : Exchange) : ExchangeAction → Exchange
  | .create accountId admitted => x.createStep accountId admitted
  | .dispatch id => x.dispatchStep id
  | .revoke id now => x.revokeStep id now
  | .ask id => x.askStep id
  | .ring id providerCallId => x.ringStep id providerCallId
  | .answer id outcome => x.answerStep id outcome
  | .link id => x.act (.link id)
  | .mark id now => x.act (.mark id now)
  | .die id => x.act (.die id)
  | .hangup id => x.hangupStep id
  | .request h => x.requestStep h
  | .finish h => x.finishStep h
  | .drop h => x.dropStep h
  | .arrive accountId inbound => x.act (.arrive accountId inbound)
  | .check k => x.act (.check k)
  | .admitCall k now => x.act (.admitCall k now)
  | .receive accountId events => x.act (.receive accountId events)
  | .process j now => x.act (.process j now)
  | .dropRequest j => x.act (.drop j)

def reach (as : List ExchangeAction) : Exchange := Run.exec step as initial

end Exchange

namespace World

/-- A call gets the provider's id when it is linked, or comes with it. -/
theorem step_linked (w : World) (a : Action) (row' : CallRow) (hrow' : row' ∈ (w.step a).calls)
    (q : String) (hq : row'.providerCallId = some q) :
    (∃ row ∈ w.calls, row.id = row'.id ∧ row.providerCallId = some q) ∨
      (∃ p, w.phases[row'.id]? = some (.accepted p) ∧ q = fitted p) ∨
      row'.id = w.calls.length := by
  cases step_stepped w a with
  | kept hcalls => exact .inl ⟨row',hcalls ▸ hrow',rfl,hq⟩
  | edited _ _ hcalls hname =>
    rw [hcalls] at hrow'
    rcases Table.mem_edit.mp hrow' with ⟨row,hrow,-,rfl⟩ | ⟨hrow,-⟩
    · have hsame := hname row
      simp only [CallRow.name,Prod.mk.injEq] at hsame
      exact .inl ⟨row,hrow,hsame.1.symm,hsame.2.2.symm.trans hq⟩
    · exact .inl ⟨row',hrow,rfl,hq⟩
  | added _ _ hcalls hid =>
    rw [hcalls] at hrow'
    rcases Table.mem_concat hrow' with hrow | rfl
    · exact .inl ⟨row',hrow,rfl,hq⟩
    · exact .inr (.inr hid)
  | linked _ dialed hphase hcalls =>
    rw [hcalls] at hrow'
    rcases Table.mem_edit.mp hrow' with ⟨row,_,hid,rfl⟩ | ⟨hrow,-⟩
    · rw [← List.mem_singleton.mp hid] at hphase
      exact .inr (.inl ⟨dialed,hphase,(Option.some.inj hq).symm⟩)
    · exact .inl ⟨row',hrow,rfl,hq⟩

end World

namespace Exchange

variable {x : Exchange}

/-- What the provider was asked for and created, and what a hangup found of it. -/
structure Sound (x : Exchange) : Prop where
  dialed : x.world.Dialed
  known : ∀ id ∈ x.asked, id < x.world.phases.length
  single : (x.created.map Prod.fst).Nodup
  wanted : ∀ p ∈ x.created, p.1 ∈ x.asked ∧ fitted p.2 = p.2
  accepted : ∀ (id : ℕ) p, x.world.phases[id]? = some (.accepted p) → (id,p) ∈ x.created
  linked : ∀ row ∈ x.world.calls, row.id ∈ x.asked → ∀ q, row.providerCallId = some q →
    (row.id,q) ∈ x.created
  hung : ∀ g ∈ x.hangups, g.live → g.callId < x.world.phases.length ∧
    x.world.phases[g.callId]? ≠ some .dialing ∧
    (g.callId ∈ x.asked → g.asked ∧ ∃ q, g.providerCallId = some q ∧ (g.callId,q) ∈ x.created)
  sent : ∀ g ∈ x.hangups, g.phase = .requested ∨ g.phase = .returned → ∀ q,
    g.providerCallId = some q → (g.callId,q) ∈ x.requested

/-- A hangup of a call that is not at its end finds the provider's id, or a call that
the provider has not been asked for and will not be. The ids of created calls fit. -/
def placed (x : Exchange) : ExchangeAction → Bool
  | .hangup id =>
    match x.row id with
    | some row => isTerminal row.state || row.providerCallId.isSome ||
        (x.world.phases[id]? ≠ some .dialing && id ∉ x.asked)
    | none => true
  | .ring id providerCallId => id ∉ x.asked || id ∈ x.created.map Prod.fst ||
      providerCallId.toList.length ≤ 200
  | _ => true

theorem sound_initial : initial.Sound where
  dialed := World.dialed_initial
  known := by simp [initial]
  single := by simp [initial]
  wanted := by simp [initial]
  accepted := by simp [initial,World.initial]
  linked := by simp [initial]
  hung := by simp [initial]
  sent := by simp [initial]

section

variable (h : x.Sound)

include h

/-- A step of the calls that only answers a creation with its own id. -/
theorem Sound.act {a : Action} (ha : ∀ id p, a = .place id (.accepted p) → (id,p) ∈ x.created) :
    (x.act a).Sound := by
  have hphases := World.step_phases x.world a
  have hdialed := h.dialed.moved (World.step_names x.world a)
  have hacross : x.world.phases.length ≤ (x.world.step a).phases.length := hphases.length
  refine ⟨hdialed,fun id hid => (h.known id hid).trans_le hacross,h.single,h.wanted,?_,?_,?_,h.sent⟩
  · intro id p hp
    rcases hphases.accepted hp with hold | hplace
    · exact h.accepted id p hold
    · exact ha id p hplace
  · intro row hrow hasked q hq
    rcases World.step_linked x.world a row hrow q hq with ⟨old,hold,hid,hprovider⟩ | ⟨p,hp,rfl⟩ | hnew
    · rw [← hid]
      exact h.linked old hold (hid ▸ hasked) q hprovider
    · have hcreated := h.accepted row.id p hp
      rw [(h.wanted _ hcreated).2]
      exact hcreated
    · -- a call that comes now has not been asked for
      have hlt := h.known row.id hasked
      rw [hnew,h.dialed.phased,World.names_length] at hlt
      exact absurd hlt (Nat.lt_irrefl _)
  · intro g hg hlive
    obtain ⟨hlt,hplaced,hasked⟩ := h.hung g hg hlive
    exact ⟨hlt.trans_le hacross,fun hdialing => hplaced (hphases.dialing hlt hdialing),hasked⟩

theorem Sound.of_admissions (rows : List AdmissionRow) : Sound { x with admissions := rows } :=
  ⟨h.dialed,h.known,h.single,h.wanted,h.accepted,h.linked,h.hung,h.sent⟩

theorem Sound.ask (id : ℕ) : (x.askStep id).Sound := by
  unfold askStep
  split_ifs with hask
  swap
  · exact h
  obtain ⟨hdialing,_,-⟩ := hask
  have hmem : ∀ {i}, i ∈ x.asked++[id] → i ∈ x.asked ∨ i = id := by
    intro i hi
    simpa using hi
  refine ⟨h.dialed,?_,h.single,?_,h.accepted,?_,?_,h.sent⟩
  · intro i hi
    rcases hmem hi with hold | rfl
    · exact h.known i hold
    · exact (List.getElem?_eq_some_iff.mp hdialing).1
  · exact fun p hp => ⟨List.mem_append_left _ (h.wanted p hp).1,(h.wanted p hp).2⟩
  · intro row hrow hasked q hq
    rcases hmem hasked with hold | hnew
    · exact h.linked row hrow hold q hq
    · -- a call that is still dialed has no id of the provider's
      rcases h.dialed.unlinked row.name (List.mem_map_of_mem hrow) with hclosed | hnone
      · change x.world.phases[row.id]? = some .closed at hclosed
        rw [hnew,hdialing] at hclosed
        cases hclosed
      · exact absurd (hq.symm.trans hnone) (by simp)
  · intro g hg hlive
    obtain ⟨hlt,hplaced,hasked⟩ := h.hung g hg hlive
    refine ⟨hlt,hplaced,fun hin => hasked ((hmem hin).resolve_right ?_)⟩
    rintro rfl
    exact hplaced hdialing

theorem Sound.ring {id : ℕ} {p : String} (hplaced : x.placed (.ring id p)) :
    (x.ringStep id p).Sound := by
  unfold ringStep
  split_ifs with hring
  swap
  · exact h
  obtain ⟨hasked,hfresh⟩ := hring
  have hp : fitted p = p := by
    simp only [placed,hasked,hfresh,not_true_eq_false,decide_false,Bool.false_or,
      decide_eq_true_eq] at hplaced
    rw [fitted,List.take_of_length_le hplaced,String.ofList_toList]
  refine ⟨h.dialed,h.known,?_,?_,?_,?_,?_,h.sent⟩
  · rw [List.map_append,List.nodup_append]
    refine ⟨h.single,by simp,?_⟩
    intro i hi j hj
    simp only [List.map_cons,List.map_nil,List.mem_singleton] at hj
    rintro rfl
    exact hfresh (hj ▸ hi)
  · intro c hc
    rcases Table.mem_concat hc with hold | rfl
    · exact h.wanted c hold
    · exact ⟨hasked,hp⟩
  · exact fun i q hq => List.mem_append_left _ (h.accepted i q hq)
  · exact fun row hrow hin q hq => List.mem_append_left _ (h.linked row hrow hin q hq)
  · intro g hg hlive
    obtain ⟨hlt,hplaced,hcreated⟩ := h.hung g hg hlive
    refine ⟨hlt,hplaced,fun hin => ?_⟩
    obtain ⟨ha,q,hq,hmem⟩ := hcreated hin
    exact ⟨ha,q,hq,List.mem_append_left _ hmem⟩

theorem Sound.answer (id : ℕ) (outcome : PlaceOutcome) : (x.answerStep id outcome).Sound := by
  unfold answerStep
  split
  · split_ifs with hcreated
    · refine h.act fun i p heq => ?_
      cases heq
      exact hcreated
    · exact h
  · rename_i hother
    refine h.act fun i p heq => ?_
    cases heq
    exact absurd rfl (hother p)

/-- The phase of a hangup moves on, with its request on the way. -/
theorem Sound.enter {i : ℕ} {phase : HangupPhase} {r : List (ℕ × String)}
    (hkept : ∀ p ∈ x.requested, p ∈ r)
    (hsent : phase = .requested ∨ phase = .returned → ∀ g, x.hangups[i]? = some g → ∀ q,
      g.providerCallId = some q → (g.callId,q) ∈ r) :
    Sound ({ x with requested := r }.enter i phase) := by
  refine ⟨h.dialed,h.known,h.single,h.wanted,h.accepted,h.linked,?_,?_⟩
  · intro g hg hlive
    obtain ⟨j,hj⟩ := List.getElem?_of_mem hg
    rcases Batch.modify_cases hj with ⟨d,hd,rfl,rfl⟩ | ⟨-,hold⟩
    · exact h.hung d (List.mem_of_getElem? hd) hlive
    · exact h.hung g (List.mem_of_getElem? hold) hlive
  · intro g hg hphase q hq
    obtain ⟨j,hj⟩ := List.getElem?_of_mem hg
    rcases Batch.modify_cases hj with ⟨d,hd,rfl,rfl⟩ | ⟨-,hold⟩
    · exact hsent hphase d hd q hq
    · exact hkept _ (h.sent g (List.mem_of_getElem? hold) hphase q hq)

theorem Sound.request (i : ℕ) : (x.requestStep i).Sound := by
  unfold requestStep
  split
  · rename_i hi
    refine h.enter (fun p hp => List.mem_append_left _ hp) fun _ g hg q hq => ?_
    rw [hi] at hg
    cases hg
    cases hq
    exact List.mem_append_right _ List.mem_cons_self
  · exact h

theorem Sound.finish (i : ℕ) : (x.finishStep i).Sound := by
  unfold finishStep
  split
  · rename_i hi
    refine h.enter (r := x.requested) (fun p hp => hp) fun _ g hg q hq => ?_
    rw [hi] at hg
    cases hg
    cases hq
  · rename_i hi
    refine h.enter (r := x.requested) (fun p hp => hp) fun _ g hg q hq => ?_
    exact h.sent g (List.mem_of_getElem? hg) (.inl (by rw [hi] at hg; cases hg; rfl)) q hq
  · exact h

theorem Sound.drop (i : ℕ) : (x.dropStep i).Sound := by
  unfold dropStep
  split
  · exact h
  · refine h.enter (r := x.requested) (fun p hp => hp) fun hphase => ?_
    rcases hphase with hphase | hphase <;> cases hphase

end

theorem Sound.found (h : x.Sound) {id : ℕ} {row : CallRow} (hrow : x.row id = some row)
    (hplaced : x.placed (.hangup id)) (hterminal : isTerminal row.state = false) :
    id < x.world.phases.length ∧ x.world.phases[id]? ≠ some .dialing ∧
      (id ∈ x.asked → ∃ q, row.providerCallId = some q ∧ (id,q) ∈ x.created) := by
  have hmem : row ∈ x.world.calls := Table.find_mem hrow
  have hid : row.id = id := Table.find_key hrow
  have hname : row.name ∈ x.world.names := List.mem_map_of_mem hmem
  have hlt : id < x.world.phases.length := by
    have hnumber := List.mem_map_of_mem (f := Prod.fst) hname
    rw [h.dialed.numbered,List.mem_range,← h.dialed.phased] at hnumber
    exact hid ▸ hnumber
  refine ⟨hlt,?_⟩
  simp only [placed,hrow,hterminal,Bool.false_or,Bool.or_eq_true,Bool.and_eq_true,
    decide_eq_true_eq] at hplaced
  rcases hplaced with hlinked | ⟨hopen,hunasked⟩
  · obtain ⟨q,hq⟩ := Option.isSome_iff_exists.mp hlinked
    refine ⟨fun hdialing => ?_,fun hasked => ⟨q,hq,hid ▸ h.linked row hmem (hid ▸ hasked) q hq⟩⟩
    rcases h.dialed.unlinked row.name hname with hclosed | hnone
    · change x.world.phases[row.id]? = some .closed at hclosed
      rw [hid,hdialing] at hclosed
      cases hclosed
    · exact absurd (hq.symm.trans hnone) (by simp)
  · exact ⟨hopen,fun hasked => absurd hasked hunasked⟩

theorem Sound.hangup (h : x.Sound) {id : ℕ} (hplaced : x.placed (.hangup id)) :
    (x.hangupStep id).Sound := by
  unfold hangupStep
  split
  swap
  · exact h
  rename_i row hrow
  have hacted := h.act (a := .hangup id) (fun i p heq => by cases heq)
  refine ⟨hacted.dialed,hacted.known,hacted.single,hacted.wanted,hacted.accepted,hacted.linked,?_,?_⟩
  · intro g hg hlive
    rcases List.mem_append.mp hg with hold | hnew
    · exact hacted.hung g hold hlive
    rw [List.mem_singleton.mp hnew] at hlive ⊢
    cases hterminal : isTerminal row.state with
    | true =>
      rw [hterminal] at hlive
      cases hlive
    | false =>
      obtain ⟨hlt,hopen,hasked⟩ := h.found hrow hplaced hterminal
      have hphases := World.step_phases x.world (.hangup id)
      exact ⟨hlt.trans_le hphases.length,fun hdialing => hopen (hphases.dialing hlt hdialing),
        fun hin => ⟨decide_eq_true hin,hasked hin⟩⟩
  · intro g hg hphase q hq
    rcases Table.mem_concat hg with hold | rfl
    · exact hacted.sent g hold hphase q hq
    · split at hq
      · cases hq
      · rename_i hterminal
        rw [if_neg hterminal] at hphase
        rcases hphase with hphase | hphase <;> cases hphase

theorem Sound.step (h : x.Sound) {a : ExchangeAction} (hplaced : x.placed a) :
    (x.step a).Sound := by
  have hquiet : ∀ b, (∀ id p, b ≠ .place id (.accepted p)) → (x.act b).Sound :=
    fun b hb => h.act fun id p heq => absurd heq (hb id p)
  cases a with
  | create accountId =>
    exact (hquiet (.create accountId) (by simp)).of_admissions _
  | dispatch id =>
    simp only [Exchange.step,dispatchStep]
    split
    · split
      · exact h
      · exact (hquiet (.dispatch id) (by simp)).of_admissions _
    · exact h
  | revoke id now =>
    simp only [Exchange.step,revokeStep]
    split
    · exact (hquiet (.revoke id now) (by simp)).of_admissions _
    · exact h
  | ask id => exact h.ask id
  | ring => exact h.ring hplaced
  | answer id outcome => exact h.answer id outcome
  | link id => exact hquiet (.link id) (by simp)
  | mark id now => exact hquiet (.mark id now) (by simp)
  | die id => exact hquiet (.die id) (by simp)
  | hangup => exact h.hangup hplaced
  | request i => exact h.request i
  | finish i => exact h.finish i
  | drop i => exact h.drop i
  | arrive accountId inbound => exact hquiet (.arrive accountId inbound) (by simp)
  | check k => exact hquiet (.check k) (by simp)
  | admitCall k now => exact hquiet (.admitCall k now) (by simp)
  | receive accountId events => exact hquiet (.receive accountId events) (by simp)
  | process j now => exact hquiet (.process j now) (by simp)
  | dropRequest j => exact hquiet (.drop j) (by simp)

/-- Where every hangup of a call that is not at its end finds the call linked, or never to
be placed, a hangup that has returned is effective: the provider is not asked for the call
afterwards, and was requested to hang up the call that it created. -/
theorem hangup_effective (as : List ExchangeAction)
    (h : Run.Conforms step (fun x a => x.placed a) as initial) :
    ∀ g ∈ (reach as).hangups, g.live → g.phase = .returned →
      (g.callId ∈ (reach as).asked → g.asked) ∧
      ∀ p, (g.callId,p) ∈ (reach as).created → (g.callId,p) ∈ (reach as).requested := by
  have hsound : (reach as).Sound := Run.exec_conforming step _ Sound
    (fun x a hplaced hx => hx.step hplaced) as initial h sound_initial
  intro g hg hlive hreturned
  obtain ⟨-,-,hasked⟩ := hsound.hung g hg hlive
  refine ⟨fun hin => (hasked hin).1,fun p hp => ?_⟩
  obtain ⟨-,q,hq,hcreated⟩ := hasked (hsound.wanted _ hp).1
  have hsame : (g.callId,p) = (g.callId,q) :=
    List.inj_on_of_nodup_map hsound.single hp hcreated rfl
  rw [hsame]
  exact hsound.sent g hg (.inr hreturned) q hq

/-- A call that is hung up after it was linked. -/
def linkedHangup : List ExchangeAction :=
  [.create 3 true,.dispatch 0,.ask 0,.ring 0 "p1",.answer 0 (.accepted "p1"),.link 0,.hangup 0,
    .request 0,.finish 0]

/-- A call that is hung up between the fence and the provider's answer. -/
def earlyHangup : List ExchangeAction :=
  [.create 3 true,.dispatch 0,.hangup 0,.finish 0,.ask 0,.ring 0 "p1",.answer 0 (.accepted "p1"),
    .link 0]

theorem linkedHangup_effective :
    (⟨0,true,true,some "p1",.returned⟩ : Hangup) ∈ (reach linkedHangup).hangups ∧
    (0,"p1") ∈ (reach linkedHangup).created ∧ (0,"p1") ∈ (reach linkedHangup).requested := by
  have hcreated : (0,"p1") ∈ (reach linkedHangup).created := by decide +kernel
  have hhung : (⟨0,true,true,some "p1",.returned⟩ : Hangup) ∈ (reach linkedHangup).hangups := by
    decide +kernel
  exact ⟨hhung,hcreated,
    (hangup_effective linkedHangup (by decide +kernel) _ hhung rfl rfl).2 "p1" hcreated⟩

/-- The call rings at the provider, which was asked for it after the hangup had returned
and never to hang it up; here the call is ending. -/
theorem earlyHangup_rings :
    (reach earlyHangup).hangups = [⟨0,true,false,none,.returned⟩] ∧
    (reach earlyHangup).asked = [0] ∧ (reach earlyHangup).created = [(0,"p1")] ∧
    (reach earlyHangup).requested = [] ∧
    ((reach earlyHangup).row 0).map (fun row => (row.state,row.providerCallId)) =
      some (.ending,some "p1") := by
  decide +kernel

end Exchange

end NexusAi.Telephony
