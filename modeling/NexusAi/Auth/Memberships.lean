import NexusAi.Auth.System

/-!
# Membership administration

Every operation asks for one permission of its actor, read from the actor's
active role assignments in the Organization. It asks neither which role is being
assigned nor whether the actor is still an active member.
-/

namespace NexusAi.Auth
open NexusAi.Checked

structure Directory where
  memberships : List Membership
  assignments : List RoleAssignment
  nextId : ℕ

inductive AdministrationError where
  | permissionDenied (detail : String)
  | membershipConflict (detail : String)
  | membershipRequired (detail : String)
  | membershipInactive (detail : String)

inductive Operation where
  | create (userId : ℕ) (role : String)
  | suspend (userId : ℕ)
  | revoke (userId : ℕ)
  | restore (userId : ℕ)
  | assignRole (userId : ℕ) (role : String)
  | suspendAssignment (assignmentId : ℕ)

/-- An operation on an Organization, with its authenticated actor. -/
structure Order where
  (actor organizationId : ℕ)
  operation : Operation

namespace Directory

def permissionsFor (d : Directory) (organizationId userId : ℕ) : List PermissionKey :=
  (d.assignments.filter fun a => a.organizationId = organizationId ∧ a.userId = userId ∧
    a.status = .active).flatMap fun a => rolePermissions a.role

def require (d : Directory) (organizationId userId : ℕ) (permission : PermissionKey) :
    Except AdministrationError Unit :=
  Checked.require (permission ∈ d.permissionsFor organizationId userId) (.permissionDenied
    ("The caller lacks the '"++permission.value++"' permission in this Organization."))

def insertMembership (d : Directory) (organizationId userId : ℕ) :
    Except AdministrationError Directory :=
  if (forUserInOrganization userId organizationId d.memberships).isSome then
    .error (.membershipConflict "That user already has a membership in this Organization.")
  else .ok { d with
    memberships := d.memberships++[⟨d.nextId,organizationId,userId,.active⟩]
    nextId := d.nextId+1 }

def assign (d : Directory) (organizationId userId : ℕ) (role : RoleKey) :
    Except AdministrationError Directory :=
  if d.assignments.any fun a => a.organizationId = organizationId ∧ a.userId = userId ∧
      a.role = role then
    .error (.membershipConflict "That user already holds that role in this Organization.")
  else .ok { d with
    assignments := d.assignments++[⟨d.nextId,organizationId,userId,role,.active⟩]
    nextId := d.nextId+1 }

def unknownRole (role : String) : AdministrationError :=
  .permissionDenied ("Unknown role '"++role++"'.")

def create (d : Directory) (organizationId userId : ℕ) (role : String) :
    Except AdministrationError Directory := do
  let d ← d.insertMembership organizationId userId
  let role ← present (roleByKey role) (unknownRole role)
  d.assign organizationId userId role

/-- `suspend`, `revoke` and `restore` -/
def setStatus (d : Directory) (organizationId userId : ℕ) (status : MembershipStatus) :
    Except AdministrationError Directory := do
  let membership ← present (forUserInOrganization userId organizationId d.memberships)
    (.membershipRequired "The user is not a member of this Organization.")
  pure { d with
    memberships := Table.edit Membership.id [membership.id] (fun m => { m with status := status })
      d.memberships }

def assignRole (d : Directory) (organizationId userId : ℕ) (role : String) :
    Except AdministrationError Directory := do
  Checked.require (activeIn userId organizationId d.memberships)
    (.membershipInactive "The user has no active membership here.")
  let role ← present (roleByKey role) (unknownRole role)
  d.assign organizationId userId role

def suspendAssignment (d : Directory) (organizationId assignmentId : ℕ) : Directory :=
  { d with assignments := d.assignments.map fun a =>
    if a.id = assignmentId ∧ a.organizationId = organizationId then { a with status := .suspended }
    else a }

def perform (d : Directory) (order : Order) : Except AdministrationError Directory := do
  d.require order.organizationId order.actor .membershipManage
  match order.operation with
  | .create userId role => d.create order.organizationId userId role
  | .suspend userId => d.setStatus order.organizationId userId .suspended
  | .revoke userId => d.setStatus order.organizationId userId .revoked
  | .restore userId => d.setStatus order.organizationId userId .active
  | .assignRole userId role => d.assignRole order.organizationId userId role
  | .suspendAssignment id => pure (d.suspendAssignment order.organizationId id)

def step (d : Directory) (order : Order) : Directory :=
  match d.perform order with
  | .ok d' => d'
  | .error _ => d

def holds (d : Directory) (organizationId userId : ℕ) (permission : PermissionKey) : Bool :=
  permission ∈ d.permissionsFor organizationId userId

def activeMember (d : Directory) (organizationId userId : ℕ) : Bool :=
  activeIn userId organizationId d.memberships

end Directory

def Operation.gives : Operation → Option (ℕ × RoleKey)
  | .create userId role | .assignRole userId role => (roleByKey role).map fun r => (userId,r)
  | _ => none

/-- In an order that succeeds, role:assign is given by or to one who holds it, and who may
manage memberships is an active member. -/
def Directory.entitled (d : Directory) (order : Order) : Bool :=
  match d.perform order with
  | .ok _ =>
    (order.operation.gives.all fun g => PermissionKey.roleAssign ∉ rolePermissions g.2 ||
      d.holds order.organizationId g.1 .roleAssign ||
      d.holds order.organizationId order.actor .roleAssign) &&
    (!d.holds order.organizationId order.actor .membershipManage ||
      d.activeMember order.organizationId order.actor)
  | .error _ => true

namespace Directory

variable {d d' : Directory} {organizationId userId : ℕ} {order : Order}

theorem holds_iff {permission : PermissionKey} :
    d.holds organizationId userId permission ↔ ∃ a ∈ d.assignments,
      a.organizationId = organizationId ∧ a.userId = userId ∧ a.status = .active ∧
        permission ∈ rolePermissions a.role := by
  rw [holds,decide_eq_true_eq]
  simp only [permissionsFor,List.mem_flatMap,List.mem_filter,decide_eq_true_eq]
  constructor
  · rintro ⟨a,⟨ha,ho,hu,hs⟩,hp⟩
    exact ⟨a,ha,ho,hu,hs,hp⟩
  · rintro ⟨a,ha,ho,hu,hs,hp⟩
    exact ⟨a,⟨ha,ho,hu,hs⟩,hp⟩

/-- Every active assignment was there before, or is the one that the order gives. -/
def Extends (d : Directory) (order : Order) (d' : Directory) : Prop :=
  ∀ a ∈ d'.assignments, a.status = .active → a ∈ d.assignments ∨
    (a.organizationId = order.organizationId ∧ order.operation.gives = some (a.userId,a.role))

theorem extends_of_eq (h : d'.assignments = d.assignments) :
    d.Extends order d' := fun _ ha _ => .inl (h ▸ ha)

theorem assign_extends {d₀ : Directory} {role : RoleKey} (h₀ : d.assignments = d₀.assignments)
    (hg : order.operation.gives = some (userId,role))
    (h : d.assign order.organizationId userId role = .ok d') : d₀.Extends order d' := by
  unfold assign at h
  split_ifs at h
  obtain rfl := Except.ok.inj h
  intro a ha _
  rcases List.mem_append.1 ha with ha | ha
  · exact .inl (h₀ ▸ ha)
  · obtain rfl := List.mem_singleton.1 ha
    exact .inr ⟨rfl,hg⟩

theorem insertMembership_assignments (h : d.insertMembership organizationId userId = .ok d') :
    d'.assignments = d.assignments := by
  unfold insertMembership at h
  split_ifs at h
  obtain rfl := Except.ok.inj h
  rfl

theorem setStatus_assignments {status : MembershipStatus}
    (h : d.setStatus organizationId userId status = .ok d') : d'.assignments = d.assignments := by
  simp only [setStatus,bind_ok,present_ok,pure_ok] at h
  obtain ⟨m,-,rfl⟩ := h
  rfl

theorem suspendAssignment_extends (d : Directory) (order : Order) (organizationId id : ℕ) :
    d.Extends order (d.suspendAssignment organizationId id) := by
  intro a ha hs
  obtain ⟨b,hb,rfl⟩ := List.mem_map.1 ha
  by_cases hid : b.id = id ∧ b.organizationId = organizationId
  · rw [if_pos hid] at hs
    cases hs
  · rw [if_neg hid]
    exact .inl hb

theorem perform_manages (h : d.perform order = .ok d') :
    d.holds order.organizationId order.actor .membershipManage := by
  simp only [perform,bind_ok,require,require_ok] at h
  obtain ⟨-,hp,-⟩ := h
  exact decide_eq_true hp

theorem perform_extends (h : d.perform order = .ok d') : d.Extends order d' := by
  simp only [perform,bind_ok] at h
  obtain ⟨-,-,h⟩ := h
  cases hop : order.operation with
  | create =>
    simp only [hop,create,bind_ok,present_ok] at h
    obtain ⟨_,h₁,r,hr,h₂⟩ := h
    exact assign_extends (insertMembership_assignments h₁)
      (by simp [hop,Operation.gives,hr]) h₂
  | assignRole =>
    simp only [hop,assignRole,bind_ok,present_ok] at h
    obtain ⟨-,-,r,hr,h₂⟩ := h
    exact assign_extends rfl (by simp [hop,Operation.gives,hr]) h₂
  | suspend userId | revoke userId | restore userId =>
    simp only [hop] at h
    exact extends_of_eq (setStatus_assignments h)
  | suspendAssignment id =>
    simp only [hop,pure_ok] at h
    subst h
    exact suspendAssignment_extends d order _ id

theorem step_granted (he : d.entitled order)
    (h₀ : d.holds organizationId userId .roleAssign = false)
    (h₁ : (d.step order).holds organizationId userId .roleAssign) :
    order.organizationId = organizationId ∧
      d.holds organizationId order.actor .roleAssign := by
  unfold step at h₁
  split at h₁
  · next h =>
    obtain ⟨a,ha,ho,hu,hs,hp⟩ := holds_iff.1 h₁
    rcases perform_extends h a ha hs with hold | ⟨horg,hg⟩
    · have hheld : d.holds organizationId userId .roleAssign :=
        holds_iff.2 ⟨a,hold,ho,hu,hs,hp⟩
      rw [h₀] at hheld
      cases hheld
    · have horg' : order.organizationId = organizationId := horg.symm.trans ho
      refine ⟨horg',?_⟩
      simp only [entitled,h] at he
      simpa [hg,hp,horg',hu,h₀] using (Bool.and_eq_true_iff.1 he).1
  · rw [h₀] at h₁
    cases h₁

theorem perform_active (he : d.entitled order) (h : d.perform order = .ok d') :
    d.activeMember order.organizationId order.actor := by
  simp only [entitled,h] at he
  simpa [perform_manages h] using (Bool.and_eq_true_iff.1 he).2

theorem exec_granted (orders : List Order) (d : Directory)
    (hc : Run.Conforms step (fun d order => d.entitled order) orders d)
    (h₀ : d.holds organizationId userId .roleAssign = false)
    (h₁ : (Run.exec step orders d).holds organizationId userId .roleAssign) :
    ∃ before order after, orders = before++order::after ∧
      order.organizationId = organizationId ∧
      (Run.exec step before d).holds organizationId order.actor .roleAssign := by
  induction orders generalizing d with
  | nil =>
    rw [show Run.exec step [] d = d from rfl, h₀] at h₁
    cases h₁
  | cons order orders ih =>
    cases hnow : (d.step order).holds organizationId userId .roleAssign with
    | true =>
      obtain ⟨horg,hactor⟩ := step_granted hc.1 h₀ hnow
      exact ⟨[],order,orders,rfl,horg,hactor⟩
    | false =>
      obtain ⟨before,o,after,rfl,horg,hactor⟩ := ih _ hc.2 hnow h₁
      exact ⟨order::before,o,after,rfl,horg,hactor⟩

/-- Over a run of entitled orders role:assign spreads only from those who hold it, and only
active members administer. -/
theorem escalates_never (orders : List Order) (d : Directory)
    (hc : Run.Conforms step (fun d order => d.entitled order) orders d) :
    (∀ organizationId userId, d.holds organizationId userId .roleAssign = false →
      (Run.exec step orders d).holds organizationId userId .roleAssign →
      ∃ before order after, orders = before++order::after ∧
        order.organizationId = organizationId ∧
        (Run.exec step before d).holds organizationId order.actor .roleAssign) ∧
    (∀ before order after d', orders = before++order::after →
      (Run.exec step before d).perform order = .ok d' →
      (Run.exec step before d).activeMember order.organizationId order.actor) := by
  constructor
  · intro organizationId userId h₀ h₁
    exact exec_granted orders d hc h₀ h₁
  · intro before order after d' heq h
    subst heq
    have hthen := ((Run.conforms_append step _ before (order::after) d).1 hc).2
    exact perform_active hthen.1 h

end Directory

/-- Organization 1: user 10 is an owner, user 20 an administrator, user 30 a member. -/
def staffed : Directory where
  memberships := [⟨1,1,10,.active⟩,⟨2,1,20,.active⟩,⟨3,1,30,.active⟩]
  assignments := [⟨4,1,10,.orgOwner,.active⟩,⟨5,1,20,.orgAdmin,.active⟩,
    ⟨6,1,30,.orgMember,.active⟩]
  nextId := 7

/-- The administrator takes in user 40, and the owner makes user 30 an owner. -/
def ownerAppoints : List Order :=
  [⟨20,1,.create 40 "org_member"⟩,⟨10,1,.assignRole 30 "org_owner"⟩]

theorem ownerAppoints_entitled :
    (Run.exec Directory.step ownerAppoints staffed).holds 1 30 .roleAssign ∧
    ∃ before order after, ownerAppoints = before++order::after ∧ order.organizationId = 1 ∧
      (Run.exec Directory.step before staffed).holds 1 order.actor .roleAssign :=
  have hgiven : (Run.exec Directory.step ownerAppoints staffed).holds 1 30 .roleAssign := by
    decide
  ⟨hgiven,(Directory.escalates_never ownerAppoints staffed (by decide)).1 1 30 (by decide) hgiven⟩

/-- An administrator, who does not hold role:assign, takes the owner's role; and once
revoked, still takes others in. -/
theorem adminAppoints_escalates :
    (staffed.holds 1 20 .roleAssign = false ∧
      (staffed.step ⟨20,1,.assignRole 20 "org_owner"⟩).holds 1 20 .roleAssign) ∧
    ((staffed.step ⟨10,1,.revoke 20⟩).activeMember 1 20 = false ∧
      ∃ d', (staffed.step ⟨10,1,.revoke 20⟩).perform ⟨20,1,.create 50 "org_member"⟩ = .ok d') := by
  refine ⟨by decide,by decide,?_⟩
  exact ⟨_,rfl⟩

end NexusAi.Auth
