import NexusAi.Lib.Run
import NexusAi.Lib.Table

/-!
# Conversations

A conversation with an external key is found by it and created once. Whatever
else happens to conversations, one that a key has resolved to stays the one that
it resolves to.
-/

namespace NexusAi.Customers

inductive ConversationStatus where
  | pending | opened | closed
  deriving DecidableEq

structure ConversationRow where
  id : ℕ
  customerId : Option ℕ
  channel : String
  status : ConversationStatus
  (providerNamespace externalThreadId subject : Option String)
  version : ℕ

structure CreateConversationRequest where
  customerId : Option ℕ
  channel : String
  (providerNamespace externalThreadId subject : Option String)

inductive ConversationError where
  | customerConflict | notFound | stateConflict

def CreateConversationRequest.hasKey (request : CreateConversationRequest) : Bool :=
  request.providerNamespace.any (· ≠ "") && request.externalThreadId.any (· ≠ "")

def byExternalKey (request : CreateConversationRequest) (rows : List ConversationRow) :
    Option ConversationRow :=
  rows.find? fun row => row.channel = request.channel ∧
    row.providerNamespace = request.providerNamespace ∧
    row.externalThreadId = request.externalThreadId

/-- A request that names no customer takes whom the thread belongs to. -/
def threadCompatible (existing : ConversationRow) (request : CreateConversationRequest) : Bool :=
  request.customerId = none ∨ existing.customerId = request.customerId

def ConversationRow.fresh (id : ℕ) (request : CreateConversationRequest) : ConversationRow :=
  ⟨id,request.customerId,request.channel,.pending,request.providerNamespace,
    request.externalThreadId,request.subject,1⟩

def openOrResolve (request : CreateConversationRequest) (rows : List ConversationRow) :
    Except ConversationError (ConversationRow × Bool) × List ConversationRow :=
  match if request.hasKey then byExternalKey request rows else none with
  | some existing =>
    if threadCompatible existing request then (.ok (existing,false),rows)
    else (.error .customerConflict,rows)
  | none =>
    let row := ConversationRow.fresh rows.length request
    (.ok (row,true),rows++[row])

def allowedConversationTransitions : ConversationStatus → List ConversationStatus
  | .pending => [.opened,.closed]
  | .opened => [.closed]
  | .closed => [.opened]

def ConversationRow.moved (target : ConversationStatus) (row : ConversationRow) :
    ConversationRow :=
  { row with
    status := target
    version := row.version+1 }

def transition (id : ℕ) (target : ConversationStatus) (rows : List ConversationRow) :
    Except ConversationError Unit × List ConversationRow :=
  match Table.find ConversationRow.id id rows with
  | none => (.error .notFound,rows)
  | some row =>
    if target ∈ allowedConversationTransitions row.status then
      (.ok (),Table.edit ConversationRow.id [id] (ConversationRow.moved target) rows)
    else (.error .stateConflict,rows)

def close (id : ℕ) (rows : List ConversationRow) :
    Except ConversationError Unit × List ConversationRow :=
  if (Table.find ConversationRow.id id rows).any (·.status = .closed) then (.ok (),rows)
  else transition id .closed rows

def reopen (id : ℕ) (rows : List ConversationRow) :
    Except ConversationError Unit × List ConversationRow :=
  transition id .opened rows

inductive ConversationAction where
  | openOrResolve (request : CreateConversationRequest)
  | close (id : ℕ)
  | reopen (id : ℕ)

def conversationStep (rows : List ConversationRow) : ConversationAction → List ConversationRow
  | .openOrResolve request => (openOrResolve request rows).2
  | .close id => (close id rows).2
  | .reopen id => (reopen id rows).2

/-- The key of a request is that of the conversation with this id, which belongs to
this customer. -/
def Resolves (request : CreateConversationRequest) (customerId : Option ℕ) (id : ℕ)
    (rows : List ConversationRow) : Prop :=
  ∃ row, byExternalKey request rows = some row ∧ row.id = id ∧ row.customerId = customerId

section Steps

variable {request : CreateConversationRequest} {customerId : Option ℕ} {id : ℕ}
  {rows : List ConversationRow}

section

variable (h : Resolves request customerId id rows)

include h

theorem Resolves.append (more : List ConversationRow) :
    Resolves request customerId id (rows++more) := by
  obtain ⟨row,hrow,hid,hcustomer⟩ := h
  refine ⟨row,?_,hid,hcustomer⟩
  rw [byExternalKey,List.find?_append,← byExternalKey,hrow]
  rfl

theorem Resolves.transition (other : ℕ) (target : ConversationStatus) :
    Resolves request customerId id (Customers.transition other target rows).2 := by
  unfold Customers.transition
  split
  · exact h
  · split
    · obtain ⟨row,hrow,hid,hcustomer⟩ := h
      have hfind : byExternalKey request
          (Table.edit ConversationRow.id [other] (ConversationRow.moved target) rows) =
            (byExternalKey request rows).map
              fun row => if row.id ∈ [other] then row.moved target else row := by
        refine Table.find_edit_of ?_ rows
        exact fun _ _ => rfl
      rw [hrow] at hfind
      simp only [Option.map_some] at hfind
      refine ⟨_,hfind,?_,?_⟩
      · split
        · exact hid
        · exact hid
      · split
        · exact hcustomer
        · exact hcustomer
    · exact h

theorem Resolves.step (a : ConversationAction) :
    Resolves request customerId id (conversationStep rows a) := by
  cases a with
  | openOrResolve =>
    simp only [conversationStep,openOrResolve]
    split
    · split <;> exact h
    · exact h.append _
  | close other =>
    simp only [conversationStep,close]
    split
    · exact h
    · exact h.transition other .closed
  | reopen other => exact h.transition other .opened

end

theorem openOrResolve_resolves {row : ConversationRow} {created : Bool}
    (hkey : request.hasKey) (hcustomer : request.customerId ≠ none)
    (h : (openOrResolve request rows).1 = .ok (row,created)) :
    Resolves request request.customerId row.id (openOrResolve request rows).2 := by
  simp only [openOrResolve,hkey,if_true] at h ⊢
  split at h
  · rename_i hexisting
    split at h
    · rename_i hcompatible
      cases h
      rw [if_pos hcompatible]
      simp only [threadCompatible,decide_eq_true_eq] at hcompatible
      exact ⟨row,hexisting,rfl,hcompatible.resolve_left hcustomer⟩
    · cases h
  · rename_i hnone
    cases h
    refine ⟨_,?_,rfl,rfl⟩
    rw [byExternalKey,List.find?_append,← byExternalKey,hnone]
    simp [ConversationRow.fresh]

theorem Resolves.openOrResolve (h : Resolves request request.customerId id rows)
    (hkey : request.hasKey) :
    ∃ row, (Customers.openOrResolve request rows).1 = .ok (row,false) ∧ row.id = id := by
  obtain ⟨row,hrow,hid,hcustomer⟩ := h
  refine ⟨row,?_,hid⟩
  simp [Customers.openOrResolve,hkey,hrow,threadCompatible,hcustomer]

end Steps

end NexusAi.Customers
