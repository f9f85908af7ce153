import NexusAi.Compliance.Serial

/-!
# What a transaction of the service writes

One case for each kind of write, with what its transaction has checked before.
-/

namespace NexusAi.Compliance
open NexusAi.Checked

variable {t : Tables} {profiles : List Profile} {clock : ℕ → ℕ}

structure Tables.IsActive (t : Tables) (id : ℕ) (policy : Policy) : Prop where
  active : t.activeId = some id
  row : t.policies[id]? = some policy

variable {id : ℕ} {u : Unit} {plan : Plan}

theorem active_ok {policy : Policy} : t.active = .ok (id,policy) ↔ t.IsActive id policy := by
  unfold Tables.active
  simp only [bind_ok,present_ok,pure_ok,Prod.mk.injEq]
  constructor
  · rintro ⟨i,hi,_,hrow,rfl,rfl⟩
    exact ⟨hi,hrow⟩
  · rintro ⟨hi,hrow⟩
    exact ⟨id,hi,policy,hrow,rfl,rfl⟩

theorem Tables.IsActive.state {policy : Policy} (h : t.IsActive id policy) :
    policy.state = .active := by
  obtain ⟨hlt,hstate,-⟩ := List.findIdx?_eq_some_iff_getElem.mp h.active
  have hrow := h.row
  rw [List.getElem?_eq_getElem hlt] at hrow
  rw [← Option.some.inj hrow]
  exact of_decide_eq_true hstate

def Unheld (t : Tables) (subject : ℕ) (action : Action) : Prop :=
  action.destructive → ∀ h ∈ t.holds, h.covers subject = false

theorem checkHolds_ok {subject : ℕ} {action : Action} :
    checkHolds t subject action = .ok u ↔ Unheld t subject action := by
  unfold checkHolds Unheld
  rw [require_ok,List.any_eq_false]
  constructor
  · rintro (hmild | hfree) hdestructive h hh
    · rw [hmild] at hdestructive
      cases hdestructive
    · exact Bool.eq_false_iff.mpr (hfree h hh)
  · intro h
    cases hdestructive : action.destructive with
    | false => exact .inl rfl
    | true => exact .inr fun row hrow => Bool.eq_false_iff.mp (h hdestructive row hrow)

def OnItsWay (t : Tables) (plan : Plan) : Prop :=
  ∀ id, plan.requestId = some id → ∃ row, t.requests[id]? = some row ∧
    (row.state = .planned ∨ row.state = .approved ∨ row.state = .executing) ∧
    row.verifiedBy.isSome

theorem checkRequest_ok : checkRequest t plan = .ok u ↔ OnItsWay t plan := by
  unfold checkRequest OnItsWay
  cases plan.requestId with
  | none => simp
  | some => simp [Tables.request]

/-- What `revalidate` makes sure of. -/
structure Valid (t : Tables) (profiles : List Profile) (plan : Plan) : Prop where
  policy : ∃ policy, t.IsActive plan.policyId policy ∧ plan.policyRevision = policy.revision
  policyEpoch : plan.policyEpoch = t.policyEpoch
  holdEpoch : plan.holdEpoch = t.holdEpoch
  fingerprint : plan.fingerprint = planSemantics plan
  request : OnItsWay t plan
  unheld : Unheld t plan.subjectId plan.action
  target : ∃ target, profiles[plan.subjectId]? = some target ∧ target.version = plan.targetVersion

theorem revalidate_ok : revalidate t profiles plan = .ok u ↔ Valid t profiles plan := by
  unfold revalidate
  simp only [bind_ok,require_ok,checkRequest_ok,checkHolds_ok,lockedTarget,present_ok]
  constructor
  · rintro ⟨⟨_,policy⟩,hactive,-,⟨hid,hrevision,hpe,hhe,hprint⟩,-,hrequest,-,hholds,target,ht,hv⟩
    obtain rfl := hid
    exact ⟨⟨policy,active_ok.mp hactive,hrevision⟩,hpe,hhe,hprint,hrequest,hholds,target,ht,hv⟩
  · rintro ⟨⟨policy,hactive,hrevision⟩,hpe,hhe,hprint,hrequest,hholds,target,ht,hv⟩
    exact ⟨(plan.policyId,policy),active_ok.mpr hactive,(),⟨rfl,hrevision,hpe,hhe,hprint⟩,(),
      hrequest,(),hholds,target,ht,hv⟩

def Approved (t : Tables) (now id : ℕ) (plan : Plan) : Prop :=
  ∃ a, t.approvals id = some a ∧ a.fingerprint = plan.fingerprint ∧ now < a.expiresAt

theorem checkApproval_ok {now : ℕ} :
    checkApproval t now id plan = .ok u ↔ Approved t now id plan := by
  unfold checkApproval Approved
  rw [require_ok]
  cases t.approvals id <;> simp

structure Planned (t : Tables) (profiles : List Profile) (plan : Plan) : Prop where
  policy : ∃ policy, t.IsActive plan.policyId policy ∧ plan.policyRevision = policy.revision
  policyEpoch : plan.policyEpoch = t.policyEpoch
  holdEpoch : plan.holdEpoch = t.holdEpoch
  fingerprint : plan.fingerprint = planSemantics plan
  unheld : Unheld t plan.subjectId plan.action
  target : ∃ target, profiles[plan.subjectId]? = some target ∧ target.version = plan.targetVersion

theorem newPlan_ok {subject : ℕ} {action : Action} {operation : OperationIdentity}
    {requestId : Option ℕ} (h : newPlan t profiles subject action operation requestId = .ok plan) :
    Planned t profiles plan ∧ plan.requestId = requestId ∧ plan.action = action := by
  unfold newPlan at h
  simp only [bind_ok,require_ok,checkHolds_ok,lockedTarget,present_ok,pure_ok] at h
  obtain ⟨⟨_,policy⟩,hactive,-,-,-,hholds,target,htarget,rfl⟩ := h
  exact ⟨⟨⟨policy,active_ok.mp hactive,rfl⟩,rfl,rfl,rfl,hholds,target,htarget,rfl⟩,rfl,rfl⟩

/-- The plan's request, if it has one, is rewritten by `f` from a state that `ok` allows. -/
inductive Carried (t : Tables) (plan : Plan) (ok : RequestState → Prop) (f : Request → Request) :
    Tables → Prop
  | apart (h : plan.requestId = none) : Carried t plan ok f t
  | moved (id : ℕ) (row : Request) (h : plan.requestId = some id) (hrow : t.requests[id]? = some row)
      (hok : ok row.state) : Carried t plan ok f (t.setRequest id (f row))

theorem moveRequest_ok {target : RequestState} {t' : Tables}
    (h : moveRequest t plan target = .ok t') :
    Carried t plan (fun s => target ∈ allowed s) (fun row => { row with state := target }) t' := by
  unfold moveRequest at h
  cases hid : plan.requestId with
  | none =>
    rw [hid] at h
    cases h
    exact .apart hid
  | some id =>
    rw [hid] at h
    simp only [bind_ok,Tables.request,present_ok,requireTransition,require_ok,pure_ok] at h
    obtain ⟨row,hrow,-,hallowed,rfl⟩ := h
    exact .moved id row hid hrow hallowed

def Request.finished (row : Request) (result : Result) : Request :=
  { row with
    result := result
    state := if row.incompleteResources = [] then .completed else .incomplete }

theorem finishRequest_ok {result : Result} {t' : Tables}
    (h : finishRequest t plan result = .ok t') :
    Carried t plan (fun _ => True) (fun row => row.finished result) t' := by
  unfold finishRequest at h
  cases hid : plan.requestId with
  | none =>
    rw [hid] at h
    cases h
    exact .apart hid
  | some id =>
    rw [hid] at h
    simp only [bind_ok,Tables.request,present_ok,pure_ok] at h
    obtain ⟨row,hrow,rfl⟩ := h
    exact .moved id row hid hrow trivial

inductive Writes (t : Tables) (profiles : List Profile) (clock : ℕ → ℕ) : Outcome → Prop
  | keeps (answer : Answer) : Writes t profiles clock ⟨t,none,answer⟩
  | drafts (row : Policy) (answer : Answer) (hstate : row.state = .draft) :
      Writes t profiles clock ⟨{ t with policies := t.policies++[row] },none,answer⟩
  | governs (policies : List Policy) (answer : Answer) :
      Writes t profiles clock
        ⟨{ t with policies := policies, policyEpoch := t.policyEpoch+1 },none,answer⟩
  | holds (rows : List Hold) (answer : Answer) :
      Writes t profiles clock ⟨{ t with holds := rows, holdEpoch := t.holdEpoch+1 },none,answer⟩
  | receives (row : Request) (answer : Answer) (hstate : row.state = .received) :
      Writes t profiles clock ⟨{ t with requests := t.requests++[row] },none,answer⟩
  | verifies (id userId : ℕ) (row : Request) (answer : Answer) (hrow : t.requests[id]? = some row)
      (hstate : row.state = .received) :
      Writes t profiles clock
        ⟨t.setRequest id { row with state := .verified, verifiedBy := some userId },none,answer⟩
  | ends (id : ℕ) (row : Request) (target : RequestState) (answer : Answer)
      (hrow : t.requests[id]? = some row) (hallowed : target ∈ allowed row.state)
      (hterminal : target.terminal) (hearly : row.state ≠ .executing) :
      Writes t profiles clock ⟨t.setRequest id { row with state := target },none,answer⟩
  | plans (id : ℕ) (row : Request) (plan : Plan) (answer : Answer)
      (hrow : t.requests[id]? = some row) (hstate : row.state = .verified)
      (hplan : Planned t profiles plan) (hid : plan.requestId = some id) :
      Writes t profiles clock
        ⟨{ t.setRequest id { row with state := .planned } with plans := t.plans++[plan] },none,answer⟩
  | retains (plan : Plan) (answer : Answer) (hplan : Planned t profiles plan)
      (hid : plan.requestId = none) :
      Writes t profiles clock ⟨{ t with plans := t.plans++[plan] },none,answer⟩
  | approves (id : ℕ) (plan : Plan) (a : Approval) (t' : Tables) (answer : Answer)
      (hplan : t.plans[id]? = some plan) (hvalid : Valid t profiles plan)
      (hnone : t.approvals id = none) (hprint : a.fingerprint = plan.fingerprint)
      (hcarried : Carried t plan (fun s => RequestState.approved ∈ allowed s)
        (fun row => { row with state := .approved }) t') :
      Writes t profiles clock
        ⟨{ t' with approvals := Function.update t.approvals id (some a) },none,answer⟩
  | claims (id : ℕ) (plan : Plan) (x : Execution) (t' : Tables) (answer : Answer)
      (hplan : t.plans[id]? = some plan) (hvalid : Valid t profiles plan)
      (happroved : Approved t (clock 1) id plan) (hnone : t.executions id = none)
      (hclaimed : x.state = .claimed) (hgeneration : x.generation = 1)
      (hcarried : Carried t plan (fun s => RequestState.executing ∈ allowed s)
        (fun row => { row with state := .executing }) t') :
      Writes t profiles clock
        ⟨{ t' with executions := Function.update t.executions id (some x) },none,answer⟩
  | takes (id : ℕ) (plan : Plan) (old x : Execution) (answer : Answer)
      (hplan : t.plans[id]? = some plan) (hvalid : Valid t profiles plan)
      (happroved : Approved t (clock 1) id plan) (hold : t.executions id = some old)
      (hwas : old.state = .claimed) (hclaimed : x.state = .claimed)
      (hgeneration : x.generation = old.generation+1) :
      Writes t profiles clock
        ⟨{ t with executions := Function.update t.executions id (some x) },none,answer⟩
  | applies (id : ℕ) (plan : Plan) (old x : Execution) (fence : ExecutionFence)
      (target after : Profile) (result : Result) (t' : Tables) (answer : Answer)
      (hplan : t.plans[id]? = some plan) (hvalid : Valid t profiles plan)
      (happroved : Approved t (clock 2) id plan) (hold : t.executions id = some old)
      (hclaimed : old.state = .claimed)
      (hfence : old.ownerId = fence.ownerId ∧ old.generation = fence.generation)
      (hlease : clock 3 < old.leaseExpiresAt) (htarget : profiles[plan.subjectId]? = some target)
      (happlied : applied plan.action plan.subjectId target plan.targetVersion = .ok (after,result))
      (hdone : x.state = .completed)
      (hgeneration : x.generation = old.generation)
      (hcarried : Carried t plan (fun _ => True) (fun row => row.finished result) t') :
      Writes t profiles clock
        ⟨{ t' with executions := Function.update t.executions id (some x) },
          some ⟨id,fence,plan.subjectId,target,after,clock 2,clock 3⟩,answer⟩

section Operations

variable {o : Outcome}

theorem verifyRequest_writes {userId id : ℕ} (h : verifyRequest t userId id = .ok o) :
    Writes t profiles clock o := by
  unfold verifyRequest at h
  simp only [bind_ok,Tables.request,present_ok,requireTransition,require_ok,pure_ok] at h
  obtain ⟨row,hrow,-,hallowed,rfl⟩ := h
  refine .verifies id userId row _ hrow ?_
  cases hstate : row.state <;> simp [allowed,hstate] at hallowed ⊢

theorem endRequest_writes {id : ℕ} {target : RequestState} (h : endRequest t id target = .ok o) :
    Writes t profiles clock o := by
  unfold endRequest at h
  simp only [bind_ok,Tables.request,present_ok,requireTransition,require_ok,pure_ok] at h
  obtain ⟨-,htarget,row,hrow,-,hallowed,rfl⟩ := h
  refine .ends id row target _ hrow hallowed ?_ ?_
  · rcases htarget with rfl | rfl | rfl <;> rfl
  · intro hstate
    rw [hstate] at hallowed
    rcases htarget with rfl | rfl | rfl <;> simp [allowed] at hallowed

theorem createRequest_writes {payload : SubjectRequestInput}
    (h : createRequest t profiles payload = .ok o) : Writes t profiles clock o := by
  unfold createRequest at h
  split at h
  · simp only [bind_ok,require_ok,pure_ok] at h
    obtain ⟨_,-,-,-,rfl⟩ := h
    exact .keeps _
  · simp only [bind_ok,pure_ok] at h
    obtain ⟨_,-,rfl⟩ := h
    exact .receives _ _ rfl

theorem planRequest_writes {id : ℕ} (h : planRequest t profiles id = .ok o) :
    Writes t profiles clock o := by
  unfold planRequest at h
  simp only [bind_ok,Tables.request,present_ok,requireTransition,require_ok,pure_ok] at h
  obtain ⟨row,hrow,-,hallowed,plan,hplan,rfl⟩ := h
  obtain ⟨hplanned,hid,-⟩ := newPlan_ok hplan
  refine .plans id row plan _ hrow ?_ hplanned hid
  cases hstate : row.state <;> simp [allowed,hstate] at hallowed ⊢

theorem evaluateRetention_writes {subject : ℕ} {resource : ResourceClass} {key : String}
    (h : evaluateRetention t profiles clock subject resource key = .ok o) :
    Writes t profiles clock o := by
  unfold evaluateRetention at h
  simp only [bind_ok] at h
  obtain ⟨-,-,h⟩ := h
  split at h
  · simp only [bind_ok,require_ok,pure_ok] at h
    obtain ⟨plan,-,-,-,rfl⟩ := h
    exact .keeps _
  · simp only [bind_ok] at h
    obtain ⟨_,-,_,-,_,-,h⟩ := h
    split_ifs at h
    · rw [pure_ok] at h
      rw [← h]
      exact .keeps _
    · simp only [bind_ok,pure_ok] at h
      obtain ⟨plan,hplan,rfl⟩ := h
      obtain ⟨hplanned,hid,-⟩ := newPlan_ok hplan
      exact .retains plan _ hplanned hid

theorem approve_writes {userId id : ℕ} {payload : ApprovalInput}
    (h : approve t profiles clock userId id payload = .ok o) : Writes t profiles clock o := by
  unfold approve at h
  simp only [bind_ok,Tables.plan,present_ok,revalidate_ok,require_ok,pure_ok] at h
  obtain ⟨plan,hplan,-,hvalid,-,hnone,t',hmoved,rfl⟩ := h
  exact .approves id plan _ t' _ hplan hvalid hnone rfl (moveRequest_ok hmoved)

theorem claim_writes {id : ℕ} {payload : ClaimInput}
    (h : claim t profiles clock id payload = .ok o) : Writes t profiles clock o := by
  unfold claim at h
  simp only [bind_ok,Tables.plan,present_ok] at h
  obtain ⟨plan,hplan,h⟩ := h
  split at h
  · rename_i hnone
    simp only [bind_ok,revalidate_ok,checkApproval_ok,pure_ok] at h
    obtain ⟨-,hvalid,-,happroved,t',hmoved,rfl⟩ := h
    exact .claims id plan _ t' _ hplan hvalid happroved hnone rfl rfl (moveRequest_ok hmoved)
  · rename_i old hold
    split_ifs at h with hdone
    · rw [pure_ok] at h
      rw [← h]
      exact .keeps _
    · simp only [bind_ok,revalidate_ok,checkApproval_ok,require_ok,pure_ok] at h
      obtain ⟨-,hvalid,-,happroved,-,-,-,-,rfl⟩ := h
      have hwas := not_not.mp hdone
      exact .takes id plan old _ _ hplan hvalid happroved hold hwas hwas rfl

theorem execute_writes {id : ℕ} {fence : ExecutionFence}
    (h : execute t profiles clock id fence = .ok o) : Writes t profiles clock o := by
  unfold execute at h
  simp only [bind_ok,Tables.plan,present_ok,require_ok] at h
  obtain ⟨plan,hplan,old,hold,-,hfence,h⟩ := h
  split_ifs at h with hdone
  · rw [pure_ok] at h
    rw [← h]
    exact .keeps _
  · simp only [bind_ok,revalidate_ok,checkApproval_ok,lockedTarget,present_ok,require_ok,
      pure_ok] at h
    obtain ⟨-,-,-,hvalid,-,happroved,target,htarget,-,hlease,⟨after,result⟩,happlied,t',hfinished,-,-,
      rfl⟩ := h
    exact .applies id plan old _ fence target after result t' _ hplan hvalid happroved hold
      (not_not.mp hdone) hfence hlease htarget happlied rfl rfl
      (finishRequest_ok hfinished)

theorem transaction_writes {principal : Principal} {operation : Operation}
    (h : transaction t profiles clock principal operation = .ok o) : Writes t profiles clock o := by
  obtain ⟨-,-,h⟩ := bind_ok.mp h
  cases operation with
  | createPolicy =>
    cases h
    exact .drafts _ _ rfl
  | activatePolicy =>
    simp only [Operation.body,activatePolicy,bind_ok,pure_ok] at h
    obtain ⟨_,-,-,-,rfl⟩ := h
    exact .governs _ _
  | retirePolicy =>
    simp only [Operation.body,retirePolicy,bind_ok,pure_ok] at h
    obtain ⟨_,-,-,-,rfl⟩ := h
    exact .governs _ _
  | createHold =>
    simp only [Operation.body,createHold,bind_ok,pure_ok] at h
    obtain ⟨_,-,rfl⟩ := h
    exact .holds _ _
  | releaseHold =>
    simp only [Operation.body,releaseHold,bind_ok,pure_ok] at h
    obtain ⟨_,-,-,-,rfl⟩ := h
    exact .holds _ _
  | createRequest => exact createRequest_writes h
  | verifyRequest => exact verifyRequest_writes h
  | endRequest => exact endRequest_writes h
  | planRequest => exact planRequest_writes h
  | evaluateRetention => exact evaluateRetention_writes h
  | approve => exact approve_writes h
  | claim => exact claim_writes h
  | execute => exact execute_writes h

end Operations

end NexusAi.Compliance
