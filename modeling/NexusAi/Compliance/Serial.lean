import NexusAi.Compliance.Service
import NexusAi.Lib.Run
import NexusAi.Lib.Batch

/-!
# Calls take effect one after another

A call waits for the control row of its organization, runs its transaction on the
committed tables and ends with its commit. Customers are enrolled at any time. The control
row keeps the tables still from the reads of a call to its commit, so the calls of every
interleaving do what they would do one at a time, which is the ledger.
-/

namespace NexusAi.Compliance
open NexusAi.Checked

/-- The readings of the database clock in a transaction, from the delays between them. -/
def reading (start : ℕ) (delays : List ℕ) (k : ℕ) : ℕ := start+(delays.take (k+1)).sum

theorem reading_mono (start : ℕ) (delays : List ℕ) {j k : ℕ} (h : j ≤ k) :
    reading start delays j ≤ reading start delays k := by
  unfold reading
  apply Nat.add_le_add_left
  have hsub : (delays.take (j+1)).Sublist (delays.take (k+1)) := by
    have htake : delays.take (j+1) = (delays.take (k+1)).take (j+1) := by
      rw [List.take_take,min_eq_left (by omega)]
    rw [htake]
    exact List.take_sublist _ _
  exact hsub.sum_le_sum fun _ _ => Nat.zero_le _

theorem reading_le (start : ℕ) (delays : List ℕ) (k : ℕ) :
    start ≤ reading start delays k ∧ reading start delays k ≤ start+delays.sum := by
  unfold reading
  refine ⟨Nat.le_add_right _ _,?_⟩
  apply Nat.add_le_add_left
  exact (List.take_sublist _ _).sum_le_sum fun _ _ => Nat.zero_le _

def affected (effect : Option Effect) (profiles : List Profile) : List Profile :=
  match effect with
  | none => profiles
  | some e => profiles.set e.subjectId e.after

structure Ledger where
  tables : Tables
  profiles : List Profile
  effects : List Effect
  now : ℕ

structure Service where
  principal : Principal
  operation : Operation
  start : ℕ
  delays : List ℕ

namespace Ledger

def initial : Ledger := ⟨.initial,[],[],0⟩

def apply (l : Ledger) (o : Outcome) : Ledger :=
  { l with
    tables := o.tables
    profiles := affected o.effect l.profiles
    effects := l.effects++o.effect.toList }

/-- One service call, from its first clock reading to its commit. -/
def serve (l : Ledger) (s : Service) : Ledger :=
  if s.start < l.now then l
  else
    let after := { l with now := s.start+s.delays.sum }
    match transaction l.tables l.profiles (reading s.start s.delays) s.principal s.operation with
    | .error _ => after
    | .ok o => after.apply o

inductive Change
  | enroll (profile : Profile)
  | serve (service : Service)

def step (l : Ledger) : Change → Ledger
  | .enroll profile => { l with profiles := l.profiles++[profile] }
  | .serve s => l.serve s

end Ledger

inductive Phase
  | waiting
  | holding (start : ℕ) (delays : List ℕ) (outcome : Outcome)
  | ended (answer : Except ComplianceError Answer)

structure Call where
  principal : Principal
  operation : Operation
  phase : Phase

structure World where
  tables : Tables
  profiles : List Profile
  effects : List Effect
  now : ℕ
  calls : List Call

inductive Reply
  | done
  | lost (committed : Bool)

inductive Move
  | enroll (profile : Profile)
  | pass (time : ℕ)
  | call (principal : Principal) (operation : Operation)
  | refuse (i : ℕ) (e : ComplianceError)
  | lock (i : ℕ) (delays : List ℕ)
  | commit (i : ℕ) (reply : Reply)

namespace World

def initial : World := ⟨.initial,[],[],0,[]⟩

def isHeld (w : World) : Bool :=
  w.calls.any fun c => match c.phase with
    | .holding _ _ _ => true
    | _ => false

def enter (w : World) (i : ℕ) (phase : Phase) : World :=
  { w with calls := w.calls.modify i fun c => { c with phase := phase } }

def committed (w : World) (o : Outcome) : World :=
  { w with
    tables := o.tables
    profiles := affected o.effect w.profiles
    effects := w.effects++o.effect.toList }

def step (w : World) : Move → World
  | .enroll profile => { w with profiles := w.profiles++[profile] }
  | .pass time => { w with now := w.now+time }
  | .call principal operation => { w with calls := w.calls++[⟨principal,operation,.waiting⟩] }
  | .refuse i e =>
    match (w.calls[i]?).map Call.phase with
    | some .waiting => w.enter i (.ended (.error e))
    | _ => w
  | .lock i delays =>
    match w.calls[i]? with
    | some ⟨principal,operation,.waiting⟩ =>
      if w.isHeld then w
      else
        let after := { w with now := w.now+delays.sum }
        match transaction w.tables w.profiles (reading w.now delays) principal operation with
        | .error e => after.enter i (.ended (.error e))
        | .ok o => after.enter i (.holding w.now delays o)
    | _ => w
  | .commit i reply =>
    match (w.calls[i]?).map Call.phase with
    | some (.holding _ _ o) =>
      match reply with
      | .done => (w.committed o).enter i (.ended (.ok o.answer))
      | .lost true => (w.committed o).enter i (.ended (.error .lost))
      | .lost false => w.enter i (.ended (.error .lost))
    | _ => w

end World

section Steady

variable {α β : Type}

/-- What is found among the profiles is found when there is one profile more. -/
def Steady (f : List Profile → Except ComplianceError α) : Prop :=
  ∀ ps p a, f ps = .ok a → f (ps++[p]) = .ok a

theorem steady_const (x : Except ComplianceError α) : Steady fun _ => x :=
  fun _ _ _ h => h

theorem Steady.bind {f : List Profile → Except ComplianceError α}
    {g : List Profile → α → Except ComplianceError β} (hf : Steady f)
    (hg : ∀ a, Steady fun ps => g ps a) : Steady fun ps => f ps >>= g ps := by
  intro ps p b h
  obtain ⟨a,ha,hb⟩ := bind_ok.mp h
  exact bind_ok.mpr ⟨a,hf ps p a ha,hg a ps p b hb⟩

theorem steady_lockedTarget (id : ℕ) : Steady fun ps => lockedTarget ps id := by
  intro ps p a h
  have hid := present_ok.mp h
  apply present_ok.mpr
  rw [List.getElem?_append_left (List.getElem?_eq_some_iff.mp hid).1]
  exact hid

theorem steady_createRequest (t : Tables) (payload : SubjectRequestInput) :
    Steady fun ps => createRequest t ps payload := by
  unfold createRequest
  cases t.requests.findIdx? fun r => r.idempotencyKey = payload.idempotencyKey with
  | some => exact steady_const _
  | none => exact (steady_lockedTarget payload.subjectId).bind fun _ => steady_const _

theorem steady_newPlan (t : Tables) (subject : ℕ) (action : Action) (operation : OperationIdentity)
    (requestId : Option ℕ) : Steady fun ps => newPlan t ps subject action operation requestId := by
  refine (steady_const _).bind fun policy => ?_
  refine (steady_const _).bind fun _ => ?_
  refine (steady_const _).bind fun _ => ?_
  exact (steady_lockedTarget subject).bind fun target => steady_const _

theorem steady_revalidate (t : Tables) (plan : Plan) : Steady fun ps => revalidate t ps plan := by
  refine (steady_const _).bind fun policy => ?_
  refine (steady_const _).bind fun _ => ?_
  refine (steady_const _).bind fun _ => ?_
  refine (steady_const _).bind fun _ => ?_
  exact (steady_lockedTarget plan.subjectId).bind fun target => steady_const _

section

variable (t : Tables) (clock : ℕ → ℕ)

theorem steady_evaluateRetention (subject : ℕ) (resource : ResourceClass) (key : String) :
    Steady fun ps => evaluateRetention t ps clock subject resource key := by
  refine (steady_const _).bind fun _ => ?_
  dsimp only
  cases t.plans.findIdx? fun p => p.operationIdentity = .retention key with
  | some => exact steady_const _
  | none =>
    refine (steady_const _).bind fun policy => ?_
    refine (steady_const _).bind fun rule => ?_
    refine (steady_lockedTarget subject).bind fun target => ?_
    by_cases hretain : retentionDue target.createdAt (clock 1) rule = .retain
    · simp only [hretain,if_true]
      exact steady_const _
    · simp only [hretain,if_false]
      exact Steady.bind (steady_newPlan t subject _ _ none) fun plan => steady_const _

theorem steady_claim (id : ℕ) (payload : ClaimInput) :
    Steady fun ps => claim t ps clock id payload := by
  refine (steady_const _).bind fun plan => ?_
  cases t.executions id with
  | none => exact (steady_revalidate t plan).bind fun _ => steady_const _
  | some old =>
    by_cases hclaimed : old.state = .claimed
    · simp only [hclaimed,ne_eq,not_true_eq_false,if_false]
      exact (steady_revalidate t plan).bind fun _ => steady_const _
    · simp only [hclaimed,ne_eq,not_false_eq_true,if_true]
      exact steady_const _

theorem steady_execute (id : ℕ) (fence : ExecutionFence) :
    Steady fun ps => execute t ps clock id fence := by
  refine (steady_const _).bind fun plan => ?_
  refine (steady_const _).bind fun execution => ?_
  refine (steady_const _).bind fun _ => ?_
  by_cases hclaimed : execution.state = .claimed
  · simp only [hclaimed,ne_eq,not_true_eq_false,if_false]
    refine (steady_const _).bind fun _ => ?_
    refine (steady_revalidate t plan).bind fun _ => ?_
    refine (steady_const _).bind fun _ => ?_
    exact (steady_lockedTarget plan.subjectId).bind fun target => steady_const _
  · simp only [hclaimed,ne_eq,not_false_eq_true,if_true]
    exact steady_const _

theorem steady_body (userId : ℕ) (operation : Operation) :
    Steady fun ps => operation.body t ps clock userId := by
  cases operation with
  | createHold subject =>
    exact (steady_lockedTarget subject).bind fun _ => steady_const _
  | createRequest payload => exact steady_createRequest t payload
  | planRequest =>
    refine (steady_const _).bind fun request => ?_
    refine (steady_const _).bind fun _ => ?_
    exact Steady.bind (steady_newPlan t _ _ _ _) fun plan => steady_const _
  | evaluateRetention subject resource key => exact steady_evaluateRetention t clock subject resource key
  | approve =>
    refine (steady_const _).bind fun plan => ?_
    exact (steady_revalidate t plan).bind fun _ => steady_const _
  | claim id payload => exact steady_claim t clock id payload
  | execute id fence => exact steady_execute t clock id fence
  | createPolicy | activatePolicy | retirePolicy | releaseHold | verifyRequest
  | endRequest => exact steady_const _

theorem steady_transaction (principal : Principal) (operation : Operation) :
    Steady fun ps => transaction t ps clock principal operation :=
  (steady_const _).bind fun _ => steady_body t clock principal.userId operation

end

end Steady

namespace World

variable {w : World} {l : Ledger} {i : ℕ}

def Holds (w : World) (i start : ℕ) (delays : List ℕ) (o : Outcome) (c : Call) : Prop :=
  w.calls[i]? = some c ∧ c.phase = .holding start delays o

/-- The ledger has what the world has committed, and a call that has the control row
has run on it. -/
structure Follows (w : World) (l : Ledger) : Prop where
  tables : w.tables = l.tables
  profiles : w.profiles = l.profiles
  effects : w.effects = l.effects
  now : l.now ≤ w.now
  ran : ∀ i start delays o c, w.Holds i start delays o c → l.now ≤ start ∧
    start+delays.sum ≤ w.now ∧
    transaction l.tables l.profiles (reading start delays) c.principal c.operation = .ok o
  alone : ∀ i start delays o c j start' delays' o' c',
    w.Holds i start delays o c → w.Holds j start' delays' o' c' → i = j

theorem initial_follows : Follows initial .initial := by
  constructor
  case ran =>
    intro i start delays o c h
    simp [Holds,initial] at h
  case alone =>
    intro i start delays o c j start' delays' o' c' h
    simp [Holds,initial] at h
  all_goals rfl

theorem not_holds_of_free (h : w.isHeld = false) (i start : ℕ) (delays : List ℕ) (o : Outcome)
    (c : Call) : ¬ w.Holds i start delays o c := by
  rintro ⟨hc,hphase⟩
  have hfree := List.any_eq_false.mp h c (List.mem_of_getElem? hc)
  rw [hphase] at hfree
  exact hfree rfl

variable {delays : List ℕ} {o : Outcome} {c : Call}

theorem enter_holds {phase : Phase} {j start : ℕ} (h : (w.enter i phase).Holds j start delays o c) :
    (i = j ∧ phase = .holding start delays o ∧ ∃ c₀, w.calls[i]? = some c₀ ∧
      c = { c₀ with phase := phase }) ∨ i ≠ j ∧ w.Holds j start delays o c := by
  obtain ⟨hc,hphase⟩ := h
  rcases Batch.modify_cases hc with ⟨c₀,hc₀,hij,hnew⟩ | ⟨hij,hc⟩
  · rw [hnew] at hphase
    rw [← hij] at hc₀
    exact .inl ⟨hij,hphase,c₀,hc₀,hnew⟩
  · exact .inr ⟨hij,hc,hphase⟩

section

variable (h : Follows w l)

include h

theorem Follows.same {w' : World} (htables : w'.tables = w.tables)
    (hprofiles : w'.profiles = w.profiles) (heffects : w'.effects = w.effects)
    (hnow : w.now ≤ w'.now)
    (hholds : ∀ i start delays o c, w'.Holds i start delays o c → w.Holds i start delays o c) :
    Follows w' l := by
  constructor
  case tables => exact htables.trans h.tables
  case profiles => exact hprofiles.trans h.profiles
  case effects => exact heffects.trans h.effects
  case now => exact h.now.trans hnow
  case ran =>
    intro i start delays o c hc
    obtain ⟨hstart,hend,hran⟩ := h.ran i start delays o c (hholds _ _ _ _ _ hc)
    exact ⟨hstart,hend.trans hnow,hran⟩
  case alone =>
    intro i start delays o c j start' delays' o' c' hi hj
    exact h.alone _ _ _ _ _ _ _ _ _ _ (hholds _ _ _ _ _ hi) (hholds _ _ _ _ _ hj)

theorem Follows.ends (answer : Except ComplianceError Answer) :
    Follows (w.enter i (.ended answer)) l := by
  refine h.same rfl rfl rfl le_rfl ?_
  intro j start delays o c hc
  rcases enter_holds hc with ⟨-,hphase,-⟩ | ⟨-,hc⟩
  · cases hphase
  · exact hc

theorem Follows.passes (time : ℕ) : Follows { w with now := w.now+time } l :=
  h.same rfl rfl rfl (Nat.le_add_right _ _) fun _ _ _ _ _ hc => hc

theorem Follows.begins (principal : Principal) (operation : Operation) :
    Follows { w with calls := w.calls++[⟨principal,operation,.waiting⟩] } l := by
  refine h.same rfl rfl rfl le_rfl ?_
  rintro i _ _ o c ⟨hc,hphase⟩
  rcases Batch.concat_cases hc with ⟨-,rfl⟩ | hc
  · cases hphase
  · exact ⟨hc,hphase⟩

theorem Follows.enrolls (profile : Profile) :
    Follows { w with profiles := w.profiles++[profile] } (l.step (.enroll profile)) := by
  constructor
  case profiles => exact congrArg (·++[profile]) h.profiles
  case ran =>
    intro i start delays o c hc
    obtain ⟨hstart,hend,hran⟩ := h.ran i start delays o c hc
    exact ⟨hstart,hend,steady_transaction _ _ _ _ _ profile o hran⟩
  case tables => exact h.tables
  case effects => exact h.effects
  case now => exact h.now
  case alone => exact h.alone

theorem Follows.locks (hfree : w.isHeld = false) (hc : w.calls[i]? = some c)
    (hran : transaction w.tables w.profiles (reading w.now delays) c.principal c.operation = .ok o) :
    Follows ({ w with now := w.now+delays.sum }.enter i (.holding w.now delays o)) l := by
  have hmine : ∀ j start' delays' o' c',
      (({ w with now := w.now+delays.sum }.enter i (.holding w.now delays o)).Holds j start' delays'
        o' c') → i = j ∧ start' = w.now ∧ delays' = delays ∧ o' = o ∧
          c'.principal = c.principal ∧ c'.operation = c.operation := by
    intro j start' delays' o' c' hj
    rcases enter_holds hj with ⟨hij,hphase,c₀,hc₀,hnew⟩ | ⟨-,hj⟩
    · cases hphase
      obtain rfl : c = c₀ := Option.some.inj (hc.symm.trans hc₀)
      rw [hnew]
      exact ⟨hij,rfl,rfl,rfl,rfl,rfl⟩
    · exact absurd hj (not_holds_of_free hfree j start' delays' o' c')
  constructor
  case tables => exact h.tables
  case profiles => exact h.profiles
  case effects => exact h.effects
  case now => exact h.now.trans (Nat.le_add_right _ _)
  case ran =>
    intro j start' delays' o' c' hj
    obtain ⟨-,rfl,rfl,rfl,hprincipal,hoperation⟩ := hmine j start' delays' o' c' hj
    rw [h.tables,h.profiles] at hran
    rw [hprincipal,hoperation]
    exact ⟨h.now,le_rfl,hran⟩
  case alone =>
    intro j _ _ _ _ k _ _ _ _ hj hk
    exact (hmine _ _ _ _ _ hj).1.symm.trans (hmine _ _ _ _ _ hk).1

end

/-- The call that has the control row as a service call of the ledger. -/
def Call.service (c : Call) (start : ℕ) (delays : List ℕ) : Service :=
  ⟨c.principal,c.operation,start,delays⟩

theorem serve_ok {s : Service} (hstart : l.now ≤ s.start)
    (hran : transaction l.tables l.profiles (reading s.start s.delays) s.principal s.operation =
      .ok o) : l.serve s = { l with now := s.start+s.delays.sum }.apply o := by
  unfold Ledger.serve
  rw [if_neg (not_lt.mpr hstart),hran]

theorem Follows.commits (h : Follows w l) {start : ℕ} (hc : w.Holds i start delays o c)
    (answer : Except ComplianceError Answer) :
    Follows ((w.committed o).enter i (.ended answer)) (l.serve (Call.service c start delays)) := by
  obtain ⟨hstart,hend,hran⟩ := h.ran i start delays o c hc
  have hserve : l.serve (Call.service c start delays) =
      { l with now := start+delays.sum }.apply o := serve_ok hstart hran
  rw [hserve]
  -- nobody else has the control row
  have hnone : ∀ j start' delays' o' c',
      ¬ ((w.committed o).enter i (.ended answer)).Holds j start' delays' o' c' := by
    intro j start' delays' o' c' hj
    rcases enter_holds hj with ⟨-,hphase,-⟩ | ⟨hij,hj⟩
    · cases hphase
    · exact hij (h.alone _ _ _ _ _ _ _ _ _ _ hc hj)
  constructor
  case tables => rfl
  case profiles => exact congrArg (affected o.effect) h.profiles
  case effects => exact congrArg (·++o.effect.toList) h.effects
  case now => exact hend
  case ran =>
    intro j start' delays' o' c' hj
    exact absurd hj (hnone j start' delays' o' c')
  case alone =>
    intro j start' delays' o' c' k _ _ _ _ hj
    exact absurd hj (hnone j start' delays' o' c')

theorem step_follows (a : Move) (h : Follows w l) :
    ∃ l', Follows (w.step a) l' ∧ (l' = l ∨ ∃ b, l' = l.step b) := by
  cases a with
  | enroll profile => exact ⟨_,h.enrolls profile,.inr ⟨.enroll profile,rfl⟩⟩
  | pass time => exact ⟨l,h.passes time,.inl rfl⟩
  | call principal operation => exact ⟨l,h.begins principal operation,.inl rfl⟩
  | refuse =>
    simp only [step]
    split
    · exact ⟨l,h.ends _,.inl rfl⟩
    · exact ⟨l,h,.inl rfl⟩
  | lock _ delays =>
    simp only [step]
    split
    · rename_i hc
      split_ifs with hheld
      · exact ⟨l,h,.inl rfl⟩
      · have hfree := Bool.eq_false_iff.mpr hheld
        split
        · exact ⟨l,(h.passes delays.sum).ends _,.inl rfl⟩
        · rename_i o hran
          exact ⟨l,h.locks hfree hc hran,.inl rfl⟩
    · exact ⟨l,h,.inl rfl⟩
  | commit i =>
    simp only [step]
    split
    · rename_i start delays o hphase
      obtain ⟨c,hc,hphase⟩ := Option.map_eq_some_iff.mp hphase
      have hholds : w.Holds i start delays o c := ⟨hc,hphase⟩
      split
      · exact ⟨_,h.commits hholds _,.inr ⟨.serve (Call.service c start delays),rfl⟩⟩
      · exact ⟨_,h.commits hholds _,.inr ⟨.serve (Call.service c start delays),rfl⟩⟩
      · exact ⟨l,h.ends _,.inl rfl⟩
    · exact ⟨l,h,.inl rfl⟩

theorem run_follows (as : List Move) :
    ∃ bs, Follows (Run.exec step as initial) (Run.exec Ledger.step bs .initial) := by
  refine Run.exec_invariant step
    (fun w => ∃ bs, Follows w (Run.exec Ledger.step bs .initial)) ?_ as initial
    ⟨[],initial_follows⟩
  rintro w a ⟨bs,h⟩
  obtain ⟨_,hl',hchange⟩ := step_follows a h
  rcases hchange with rfl | ⟨b,rfl⟩
  · exact ⟨bs,hl'⟩
  · refine ⟨bs++[b],?_⟩
    rw [Run.exec_append]
    exact hl'

end World

end NexusAi.Compliance
