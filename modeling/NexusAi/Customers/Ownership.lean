import NexusAi.Lib.Run
import NexusAi.Lib.Table
import NexusAi.Lib.Batch

/-!
# One owner for each identity

The calls of the customer service, each transaction cut at the statement that the unique
constraint can refuse. A call that loses the insert rolls its customer back and reads
again in a transaction of its own. An identity is inserted once and keeps its customer,
and every call that is answered is answered with that customer.
-/

namespace NexusAi.Customers

inductive IdentityType where
  | email | phone | externalId
  deriving DecidableEq

inductive IdentityVerificationState where
  | unverified | verified | revoked
  deriving DecidableEq

inductive CustomerStatus where
  | active | suspended
  deriving DecidableEq

inductive IdentityStatus where
  | active | revoked
  deriving DecidableEq

def CustomerStatus.value : CustomerStatus → String
  | .active => "ACTIVE"
  | .suspended => "SUSPENDED"

def IdentityStatus.value : IdentityStatus → String
  | .active => "ACTIVE"
  | .revoked => "REVOKED"

def CustomerStatus.ofValue (text : String) : Option CustomerStatus :=
  [CustomerStatus.active,.suspended].find? (·.value = text)

def IdentityStatus.ofValue (text : String) : Option IdentityStatus :=
  [IdentityStatus.active,.revoked].find? (·.value = text)

structure CustomerRow where
  id : ℕ
  (displayName status : String)

structure IdentityRow where
  (id customerId : ℕ)
  identityType : IdentityType
  normalizedValue : String
  verificationState : IdentityVerificationState
  isPrimary : Bool
  (source status : String)

def IdentityRow.canonical (row : IdentityRow) : IdentityType × String :=
  (row.identityType,row.normalizedValue)

structure Customer where
  id : ℕ
  displayName : String
  status : CustomerStatus
  deriving DecidableEq

structure CustomerIdentity where
  (id customerId : ℕ)
  identityType : IdentityType
  normalizedValue : String
  verificationState : IdentityVerificationState
  isPrimary : Bool
  source : String
  status : IdentityStatus
  deriving DecidableEq

/-- The mapping looks the status up among the identities' and hands it to a field of
the customers'. -/
def toCustomer (row : CustomerRow) : Option Customer := do
  let looked ← IdentityStatus.ofValue row.status
  let status ← CustomerStatus.ofValue looked.value
  return ⟨row.id,row.displayName,status⟩

/-- The mapping looks the status up among the customers' and hands it to a field of
the identities'. -/
def toIdentity (row : IdentityRow) : Option CustomerIdentity := do
  let looked ← CustomerStatus.ofValue row.status
  let status ← IdentityStatus.ofValue looked.value
  return ⟨row.id,row.customerId,row.identityType,row.normalizedValue,row.verificationState,
    row.isPrimary,row.source,status⟩

structure IdentityRequest where
  identityType : IdentityType
  (identityValue identitySource : String)
  defaultCountry : Option String

inductive Activity where
  | customerCreated (customerId : ℕ)
  | identityLinked (customerId identityId : ℕ)

inductive CustomerEvent where
  | created (customerId identityId : ℕ)
  | linked (customerId identityId : ℕ)
  | statusChanged (customerId identityId : ℕ) (state : IdentityVerificationState)
  deriving DecidableEq

inductive CustomerError where
  | valueError | identityConflict | customerNotFound | notFound | invalid
  deriving DecidableEq

inductive CallPhase where
  | started | missing | conflicted
  | resolved (customer : Customer) (created : Bool)
  | linked (identity : CustomerIdentity)
  | raised (error : CustomerError)
  | aborted
  deriving DecidableEq

/-- A call of `resolve_or_create`, or of `link_identity` for a customer, with the
value that its input normalizes to. -/
structure Call where
  customerId : Option ℕ
  displayName : String
  canonical : IdentityType × String
  source : String
  phase : CallPhase

structure Tables where
  customers : List CustomerRow
  identities : List IdentityRow
  activities : List Activity
  outbox : List CustomerEvent

structure World where
  tables : Tables
  calls : List Call

inductive Action where
  | resolveOrCreate (displayName : String) (request : IdentityRequest)
  | linkIdentity (customerId : ℕ) (request : IdentityRequest)
  | read (call : ℕ)
  | insert (call : ℕ)
  | reread (call : ℕ)
  | abort (call : ℕ)
  | setVerificationState (identityId : ℕ) (state : IdentityVerificationState)

namespace Tables

def resolve (t : Tables) (canonical : IdentityType × String) : Option IdentityRow :=
  t.identities.find? fun row => row.canonical = canonical

def customer (t : Tables) (id : ℕ) : Option CustomerRow := Table.find CustomerRow.id id t.customers

/-- `_load_owner`, whose mapping may fail. -/
def loadOwner (t : Tables) (customerId : ℕ) : Except CustomerError Customer :=
  match t.customer customerId with
  | none => .error .customerNotFound
  | some row => match toCustomer row with
    | some customer => .ok customer
    | none => .error .valueError

def refusal (t : Tables) (call : Call) : Option CustomerError :=
  match call.customerId with
  | none => none
  | some customerId => match t.loadOwner customerId with
    | .ok _ => none
    | .error error => some error

def identityRow (t : Tables) (customerId : ℕ) (call : Call) : IdentityRow :=
  ⟨t.identities.length,customerId,call.canonical.1,call.canonical.2,.unverified,
    call.customerId.isNone,call.source,CustomerStatus.active.value⟩

def customerRow (t : Tables) (call : Call) : CustomerRow :=
  ⟨t.customers.length,call.displayName,IdentityStatus.active.value⟩

def inserted (t : Tables) (call : Call) : Tables :=
  match call.customerId with
  | none =>
    let customerId := t.customers.length
    ⟨t.customers++[t.customerRow call],t.identities++[t.identityRow customerId call],
      t.activities++[.customerCreated customerId,.identityLinked customerId t.identities.length],
      t.outbox++[.created customerId t.identities.length]⟩
  | some customerId =>
    ⟨t.customers,t.identities++[t.identityRow customerId call],
      t.activities++[.identityLinked customerId t.identities.length],
      t.outbox++[.linked customerId t.identities.length]⟩

def insertedAnswer (t : Tables) (call : Call) : CallPhase :=
  match call.customerId with
  | none => match toCustomer (t.customerRow call) with
    | some customer => .resolved customer true
    | none => .raised .valueError
  | some customerId => match toIdentity (t.identityRow customerId call) with
    | some identity => .linked identity
    | none => .raised .valueError

/-- The answer of a call that finds an identity. One that it may not link is left to
`other`. -/
def foundAnswer (t : Tables) (call : Call) (row : IdentityRow) (other : CallPhase) : CallPhase :=
  match toIdentity row, call.customerId with
  | none, _ => .raised .valueError
  | some identity, none => match t.loadOwner identity.customerId with
    | .ok customer => .resolved customer false
    | .error error => .raised error
  | some identity, some customerId =>
    if identity.customerId = customerId then .linked identity else other

def setVerificationState (t : Tables) (identityId : ℕ) (state : IdentityVerificationState) :
    Tables :=
  match Table.find IdentityRow.id identityId t.identities with
  | none => t
  | some row => match toIdentity row with
    | none => t
    | some identity => { t with
        identities := Table.edit IdentityRow.id [identityId] (fun r => { r with
          verificationState := state
          status := if state = .revoked then IdentityStatus.revoked.value
            else IdentityStatus.active.value }) t.identities
        outbox := t.outbox++[.statusChanged identity.customerId identityId state] }

end Tables

namespace World

def initial : World := ⟨⟨[],[],[],[]⟩,[]⟩

def enter (w : World) (i : ℕ) (phase : CallPhase) : World :=
  { w with calls := w.calls.modify i fun c => { c with phase := phase } }

def startStep (w : World) (normalize : IdentityRequest → Option String) (customerId : Option ℕ)
    (displayName : String) (request : IdentityRequest) : World :=
  { w with calls := w.calls++[match normalize request with
    | some value => ⟨customerId,displayName,(request.identityType,value),request.identitySource,
        .started⟩
    | none => ⟨customerId,displayName,(request.identityType,request.identityValue),
        request.identitySource,.raised .invalid⟩] }

/-- The reads of a call's first transaction. A call that finds another owner leaves
its transaction as one that loses the insert does. -/
def readStep (w : World) (i : ℕ) : World :=
  match w.calls[i]? with
  | some ⟨customerId,displayName,canonical,source,.started⟩ =>
    let call : Call := ⟨customerId,displayName,canonical,source,.started⟩
    match w.tables.refusal call, w.tables.resolve canonical with
    | some error, _ => w.enter i (.raised error)
    | none, some row => w.enter i (w.tables.foundAnswer call row .conflicted)
    | none, none => w.enter i .missing
  | _ => w

def insertStep (w : World) (i : ℕ) : World :=
  match w.calls[i]? with
  | some ⟨customerId,displayName,canonical,source,.missing⟩ =>
    let call : Call := ⟨customerId,displayName,canonical,source,.missing⟩
    match w.tables.resolve canonical with
    | some _ => w.enter i .conflicted
    | none => match w.tables.insertedAnswer call with
      | .raised error => w.enter i (.raised error)
      | answer => { w with tables := w.tables.inserted call }.enter i answer
  | _ => w

def rereadStep (w : World) (i : ℕ) : World :=
  match w.calls[i]? with
  | some ⟨customerId,displayName,canonical,source,.conflicted⟩ =>
    match w.tables.resolve canonical with
    | some row => w.enter i (w.tables.foundAnswer
        ⟨customerId,displayName,canonical,source,.conflicted⟩ row (.raised .identityConflict))
    | none => w.enter i (.raised .identityConflict)
  | _ => w

/-- A failing transaction or a call that dies before its answer. -/
def abortStep (w : World) (i : ℕ) : World :=
  match w.calls[i]? with
  | some ⟨_,_,_,_,.started⟩ | some ⟨_,_,_,_,.missing⟩ | some ⟨_,_,_,_,.conflicted⟩ =>
    w.enter i .aborted
  | _ => w

def step (normalize : IdentityRequest → Option String) (w : World) : Action → World
  | .resolveOrCreate displayName request => w.startStep normalize none displayName request
  | .linkIdentity customerId request => w.startStep normalize (some customerId) "" request
  | .read i => w.readStep i
  | .insert i => w.insertStep i
  | .reread i => w.rereadStep i
  | .abort i => w.abortStep i
  | .setVerificationState identityId state =>
    { w with tables := w.tables.setVerificationState identityId state }

def reach (normalize : IdentityRequest → Option String) (as : List Action) : World :=
  Run.exec (step normalize) as initial

end World

def Answered (t : Tables) (c : Call) : Prop :=
  match c.phase with
  | .missing => ∀ customerId ∈ c.customerId, ∃ row ∈ t.customers, row.id = customerId
  | .conflicted => ∃ r ∈ t.identities, r.canonical = c.canonical
  | .resolved customer _ => c.customerId = none ∧
      ∃ r ∈ t.identities, r.canonical = c.canonical ∧ r.customerId = customer.id
  | .linked identity => ∃ r ∈ t.identities, r.canonical = c.canonical ∧ r.id = identity.id ∧
      c.customerId = some r.customerId
  | _ => True

/-- The call has reported that it created the customer of this value. -/
def Call.reports (canonical : IdentityType × String) (c : Call) : Bool :=
  match c.phase with
  | .resolved _ true => c.canonical = canonical
  | _ => false

def CustomerEvent.founds : CustomerEvent → Option ℕ
  | .created _ identityId => some identityId
  | .linked _ identityId => some identityId
  | .statusChanged .. => none

theorem toIdentity_some {row : IdentityRow} {identity : CustomerIdentity}
    (h : toIdentity row = some identity) :
    identity.id = row.id ∧ identity.customerId = row.customerId := by
  simp only [toIdentity,Option.bind_eq_bind,Option.bind_eq_some_iff,Option.pure_def,
    Option.some.injEq] at h
  obtain ⟨-,-,-,-,rfl⟩ := h
  exact ⟨rfl,rfl⟩

theorem toCustomer_some {row : CustomerRow} {customer : Customer}
    (h : toCustomer row = some customer) : customer.id = row.id := by
  simp only [toCustomer,Option.bind_eq_bind,Option.bind_eq_some_iff,Option.pure_def,
    Option.some.injEq] at h
  obtain ⟨-,-,-,-,rfl⟩ := h
  rfl

namespace Tables

variable {t : Tables} {c : Call}

theorem resolve_some {canonical : IdentityType × String} {row : IdentityRow}
    (h : t.resolve canonical = some row) : row ∈ t.identities ∧ row.canonical = canonical :=
  ⟨List.mem_of_find?_eq_some h,by simpa using List.find?_some h⟩

theorem resolve_none {canonical : IdentityType × String} (h : t.resolve canonical = none)
    (row : IdentityRow) (hrow : row ∈ t.identities) : row.canonical ≠ canonical := by
  have hnot := List.find?_eq_none.mp h row hrow
  simpa using hnot

theorem loadOwner_ok {customerId : ℕ} {customer : Customer}
    (h : t.loadOwner customerId = .ok customer) : customer.id = customerId := by
  unfold loadOwner at h
  split at h
  · cases h
  · rename_i hrow
    split at h
    · rename_i hfound
      cases h
      rw [toCustomer_some hfound]
      exact Table.find_key hrow
    · cases h

theorem refusal_none (h : t.refusal c = none) :
    ∀ customerId ∈ c.customerId, ∃ row ∈ t.customers, row.id = customerId := by
  intro customerId hcustomer
  have hsome : c.customerId = some customerId := hcustomer
  simp only [refusal,hsome] at h
  cases howner : t.loadOwner customerId with
  | error =>
    rw [howner] at h
    cases h
  | ok =>
    unfold loadOwner at howner
    split at howner
    · cases howner
    · rename_i row hrow
      exact ⟨row,Table.find_mem hrow,Table.find_key hrow⟩

theorem foundAnswer_answered {row : IdentityRow} (hrow : t.resolve c.canonical = some row)
    {other : CallPhase} (hother : other = .conflicted ∨ other = .raised .identityConflict) :
    Answered t { c with phase := t.foundAnswer c row other } ∧
      ∀ canonical, Call.reports canonical { c with phase := t.foundAnswer c row other } = false := by
  obtain ⟨hmem,hcanonical⟩ := resolve_some hrow
  unfold foundAnswer
  split
  · exact ⟨trivial,fun _ => rfl⟩
  · rename_i identity hidentity hcustomer
    split
    · rename_i howner
      refine ⟨⟨hcustomer,row,hmem,hcanonical,?_⟩,fun _ => rfl⟩
      rw [loadOwner_ok howner,(toIdentity_some hidentity).2]
    · exact ⟨trivial,fun _ => rfl⟩
  · rename_i hidentity hcustomer
    split
    · rename_i hsame
      refine ⟨⟨row,hmem,hcanonical,(toIdentity_some hidentity).1.symm,?_⟩,fun _ => rfl⟩
      rw [← (toIdentity_some hidentity).2,hsame]
      exact hcustomer
    · rcases hother with rfl | rfl
      · exact ⟨⟨row,hmem,hcanonical⟩,fun _ => rfl⟩
      · exact ⟨trivial,fun _ => rfl⟩

end Tables

namespace World

inductive Moves (w w' : World) : Prop
  | calls (htables : w'.tables = w.tables)
      (hcalls : ∀ (j : ℕ) c', w'.calls[j]? = some c' → w.calls[j]? = some c' ∨
        Answered w.tables c' ∧ (∀ canonical, c'.reports canonical = false) ∧
          ∀ c canonical, w.calls[j]? = some c → c.reports canonical = false)
      (hlength : w.calls.length ≤ w'.calls.length)
  | inserted (i : ℕ) (c : Call) (hi : w.calls[i]? = some c) (hphase : c.phase = .missing)
      (hnone : w.tables.resolve c.canonical = none)
      (htables : w'.tables = w.tables.inserted c)
      (hcalls : w'.calls = (w.enter i (w.tables.insertedAnswer c)).calls)
  | verified (identityId : ℕ) (state : IdentityVerificationState)
      (htables : w'.tables = w.tables.setVerificationState identityId state)
      (hcalls : w'.calls = w.calls)

section Steps

variable {w : World} {normalize : IdentityRequest → Option String}

theorem moves_self (w : World) : Moves w w :=
  .calls rfl (fun _ _ h => .inl h) le_rfl

theorem moves_enter {i : ℕ} {c : Call} (hi : w.calls[i]? = some c) {phase : CallPhase}
    (hanswered : Answered w.tables { c with phase := phase })
    (hreports : ∀ canonical, Call.reports canonical { c with phase := phase } = false)
    (hnot : ∀ canonical, c.reports canonical = false) : Moves w (w.enter i phase) := by
  refine .calls rfl (fun j c' hc' => ?_) (by simp [enter])
  rcases Batch.modified hi hc' with ⟨rfl,rfl⟩ | ⟨-,hold⟩
  · refine .inr ⟨hanswered,hreports,fun d canonical hd => ?_⟩
    rw [hi] at hd
    exact Option.some.inj hd ▸ hnot canonical
  · exact .inl hold

theorem start_moves (customerId : Option ℕ) (displayName : String) (request : IdentityRequest) :
    Moves w (w.startStep normalize customerId displayName request) := by
  refine .calls rfl (fun j c' hc' => ?_) (by simp [startStep])
  by_cases hj : j < w.calls.length
  · rw [startStep,List.getElem?_append_left hj] at hc'
    exact .inl hc'
  · rw [startStep,List.getElem?_append_right (not_lt.mp hj)] at hc'
    have hnew := List.mem_singleton.mp (List.mem_of_getElem? hc')
    have hnone : w.calls[j]? = none := List.getElem?_eq_none (not_lt.mp hj)
    refine .inr ⟨?_,?_,fun c canonical hc => by rw [hnone] at hc; cases hc⟩
    · rw [hnew]
      split <;> trivial
    · intro canonical
      rw [hnew]
      split <;> rfl

theorem read_moves (w : World) (i : ℕ) : Moves w (w.readStep i) := by
  unfold readStep
  split
  · rename_i customerId displayName canonical source hi
    simp only
    split
    · exact moves_enter hi trivial (fun _ => rfl) fun _ => rfl
    · rename_i hrefusal hrow
      obtain ⟨hanswered,hreports⟩ := Tables.foundAnswer_answered
        (c := ⟨customerId,displayName,canonical,source,.started⟩) hrow (.inl rfl)
      exact moves_enter hi hanswered hreports fun _ => rfl
    · rename_i hrefusal _
      refine moves_enter hi ?_ (fun _ => rfl) fun _ => rfl
      exact Tables.refusal_none hrefusal
  · exact moves_self w

theorem insert_moves (w : World) (i : ℕ) : Moves w (w.insertStep i) := by
  unfold insertStep
  split
  · rename_i hi
    simp only
    split
    · rename_i row hrow
      exact moves_enter hi ⟨row,Tables.resolve_some hrow⟩ (fun _ => rfl) fun _ => rfl
    · rename_i hnone
      split
      · exact moves_enter hi trivial (fun _ => rfl) fun _ => rfl
      · exact .inserted i _ hi rfl hnone rfl rfl
  · exact moves_self w

theorem reread_moves (w : World) (i : ℕ) : Moves w (w.rereadStep i) := by
  unfold rereadStep
  split
  · rename_i customerId displayName canonical source hi
    split
    · rename_i hrow
      obtain ⟨hanswered,hreports⟩ := Tables.foundAnswer_answered
        (c := ⟨customerId,displayName,canonical,source,.conflicted⟩) hrow (.inr rfl)
      exact moves_enter hi hanswered hreports fun _ => rfl
    · exact moves_enter hi trivial (fun _ => rfl) fun _ => rfl
  · exact moves_self w

theorem abort_moves (w : World) (i : ℕ) : Moves w (w.abortStep i) := by
  unfold abortStep
  split
  · rename_i hi
    exact moves_enter hi trivial (fun _ => rfl) fun _ => rfl
  · rename_i hi
    exact moves_enter hi trivial (fun _ => rfl) fun _ => rfl
  · rename_i hi
    exact moves_enter hi trivial (fun _ => rfl) fun _ => rfl
  · exact moves_self w

theorem step_moves (normalize : IdentityRequest → Option String) (w : World) (a : Action) :
    Moves w (w.step normalize a) := by
  cases a with
  | resolveOrCreate displayName request => exact start_moves none displayName request
  | linkIdentity customerId request => exact start_moves (some customerId) "" request
  | read i => exact read_moves w i
  | insert i => exact insert_moves w i
  | reread i => exact reread_moves w i
  | abort i => exact abort_moves w i
  | setVerificationState identityId state => exact .verified identityId state rfl rfl

end Steps

/-- Customers stay, and identities with their values and their owners. -/
structure Kept (t t' : Tables) : Prop where
  customers : ∀ row ∈ t.customers, row ∈ t'.customers
  identities : ∀ r ∈ t.identities, ∃ r' ∈ t'.identities, r'.id = r.id ∧
    r'.canonical = r.canonical ∧ r'.customerId = r.customerId

theorem Kept.refl (t : Tables) : Kept t t := ⟨fun _ h => h,fun r hr => ⟨r,hr,rfl,rfl,rfl⟩⟩

theorem Kept.trans {t t' t'' : Tables} (h : Kept t t') (h' : Kept t' t'') : Kept t t'' := by
  refine ⟨fun row hrow => h'.customers row (h.customers row hrow),fun r hr => ?_⟩
  obtain ⟨r',hr',hid,hcanonical,howner⟩ := h.identities r hr
  obtain ⟨r'',hr'',hid',hcanonical',howner'⟩ := h'.identities r' hr'
  exact ⟨r'',hr'',hid'.trans hid,hcanonical'.trans hcanonical,howner'.trans howner⟩

theorem Kept.answered {t t' : Tables} (h : Kept t t') {c : Call} (hc : Answered t c) :
    Answered t' c := by
  unfold Answered at hc ⊢
  split
  · rename_i hphase
    rw [hphase] at hc
    intro customerId hcustomer
    obtain ⟨row,hrow,hid⟩ := hc customerId hcustomer
    exact ⟨row,h.customers row hrow,hid⟩
  · rename_i hphase
    rw [hphase] at hc
    obtain ⟨r,hr,hcanonical⟩ := hc
    obtain ⟨r',hr',-,hcanonical',-⟩ := h.identities r hr
    exact ⟨r',hr',hcanonical'.trans hcanonical⟩
  · rename_i hphase
    rw [hphase] at hc
    obtain ⟨hcustomer,r,hr,hcanonical,howner⟩ := hc
    obtain ⟨r',hr',-,hcanonical',howner'⟩ := h.identities r hr
    exact ⟨hcustomer,r',hr',hcanonical'.trans hcanonical,howner'.trans howner⟩
  · rename_i hphase
    rw [hphase] at hc
    obtain ⟨r,hr,hcanonical,hid,howner⟩ := hc
    obtain ⟨r',hr',hid',hcanonical',howner'⟩ := h.identities r hr
    exact ⟨r',hr',hcanonical'.trans hcanonical,hid'.trans hid,howner.trans (by rw [howner'])⟩
  · trivial

theorem inserted_kept (t : Tables) (c : Call) : Kept t (t.inserted c) := by
  unfold Tables.inserted
  split
  · exact ⟨fun _ h => List.mem_append_left _ h,
      fun r hr => ⟨r,List.mem_append_left _ hr,rfl,rfl,rfl⟩⟩
  · exact ⟨fun _ h => h,fun r hr => ⟨r,List.mem_append_left _ hr,rfl,rfl,rfl⟩⟩

theorem verified_identities (t : Tables) (identityId : ℕ) (state : IdentityVerificationState) :
    ∃ f : IdentityRow → IdentityRow, (∀ r, (f r).id = r.id ∧ (f r).canonical = r.canonical ∧
        (f r).customerId = r.customerId) ∧
      (t.setVerificationState identityId state).identities =
        Table.edit IdentityRow.id [identityId] f t.identities := by
  unfold Tables.setVerificationState
  have hsame : ∃ f : IdentityRow → IdentityRow, (∀ r, (f r).id = r.id ∧
      (f r).canonical = r.canonical ∧ (f r).customerId = r.customerId) ∧
      t.identities = Table.edit IdentityRow.id [identityId] f t.identities :=
    ⟨id,fun _ => ⟨rfl,rfl,rfl⟩,by simp [Table.edit]⟩
  split
  · exact hsame
  · split
    · exact hsame
    · refine ⟨_,?_,rfl⟩
      exact fun _ => ⟨rfl,rfl,rfl⟩

theorem verified_rest (t : Tables) (identityId : ℕ) (state : IdentityVerificationState) :
    (t.setVerificationState identityId state).customers = t.customers ∧
    ∃ extra, (t.setVerificationState identityId state).outbox = t.outbox++extra ∧
      ∀ e ∈ extra, e.founds = none := by
  have hsame : t.customers = t.customers ∧ ∃ extra, t.outbox = t.outbox++extra ∧
      ∀ e ∈ extra, CustomerEvent.founds e = none := ⟨rfl,[],by simp,by simp⟩
  unfold Tables.setVerificationState
  split
  · exact hsame
  · split
    · exact hsame
    · exact ⟨rfl,_,rfl,by simp [CustomerEvent.founds]⟩

theorem moves_kept {w w' : World} (h : Moves w w') : Kept w.tables w'.tables := by
  cases h with
  | calls htables => rw [htables]; exact Kept.refl _
  | inserted _ _ _ _ _ htables => rw [htables]; exact inserted_kept _ _
  | verified identityId state htables =>
    rw [htables]
    obtain ⟨f,hf,hidentities⟩ := verified_identities w.tables identityId state
    refine ⟨fun row hrow => (verified_rest w.tables identityId state).1 ▸ hrow,fun r hr => ?_⟩
    rw [hidentities]
    by_cases hid : r.id ∈ [identityId]
    · exact ⟨f r,Table.mem_edit.mpr (.inl ⟨r,hr,hid,rfl⟩),hf r⟩
    · exact ⟨r,Table.mem_edit.mpr (.inr ⟨hr,hid⟩),rfl,rfl,rfl⟩

end World

end NexusAi.Customers
