import NexusAi.Customers.Conversations
import NexusAi.Lib.Text
import NexusAi.Messaging.System

/-!
# Email threads

An inbound email names the thread it belongs to by the first of its references. A
reply carries on the references of the message that it replies to, and both sides
keep twenty of them: an inbound email the first twenty, a reply the last twenty.
Unicode normalization is a parameter.
-/

namespace NexusAi.Messaging

open NexusAi.Customers NexusAi.Texts

/-- `text.strip().strip("<>")` -/
def bare (text : String) : String :=
  stripOf (fun c => c = '<' ∨ c = '>') (stripOf isSpace text)

section Headers

variable (nfc : String → String)

def scrubHeaderToken (value : String) : String :=
  clip 255 (String.ofList ((nfc value).toList.filter fun c =>
    0x20 < c.toNat ∧ c.toNat ≠ 0x7f))

/-- A value that has a line break or NUL in it or is too long is refused. -/
def sanitizeHeaderValue (value : String) : Option String :=
  if (nfc value).toList.any (fun c => c ∈ ['\r','\n','\x00']) then none
  else if 255 < (nfc value).toList.length then none
  else some (nfc value)

structure EmailEnvelopeFields where
  (messageIdHeader inReplyTo : Option String)
  references : List String
  deriving DecidableEq

/-- What an email webhook says about a message's place in its thread. -/
structure EmailPayload where
  (sender messageId inReplyTo : String)
  references : List String

structure NormalizedInbound where
  (providerMessageId externalThreadHint : String)
  email : EmailEnvelopeFields
  deriving DecidableEq

def threadRoot (messageId : String) (inReplyTo : Option String) (references : List String) :
    String :=
  match ((references++[inReplyTo.getD "",messageId]).map bare).find? (· ≠ "") with
  | some cleaned => clip 128 cleaned
  | none => clip 128 messageId

def token (raw : String) : String := scrubHeaderToken nfc (bare raw)

def normalizeInbound (payload : EmailPayload) : Option NormalizedInbound :=
  let providerMessageId := token nfc payload.messageId
  if stripOf isSpace payload.sender = "" ∨ providerMessageId = "" then none
  else
    let references := ((payload.references.map (token nfc)).filter (· ≠ "")).take 20
    let inReplyTo := if token nfc payload.inReplyTo = "" then none
      else some (token nfc payload.inReplyTo)
    some ⟨providerMessageId,threadRoot providerMessageId inReplyTo references,
      some (clip 255 providerMessageId),inReplyTo,references⟩

/-- The references of a reply before they are cut: those of the parent and the
parent itself. -/
def threadReferences (parentId : String) (references : List String) : List String :=
  if parentId ≠ "" ∧ parentId ∉ references then references++[parentId] else references

def emailThreadFields (uuid : String) (parent : NormalizedInbound) : Option EmailEnvelopeFields :=
  let parentId := match parent.email.messageIdHeader with
    | some header => if header = "" then clip 200 parent.providerMessageId else header
    | none => clip 200 parent.providerMessageId
  match sanitizeHeaderValue nfc parentId,
      (parent.email.references.filter (· ≠ "")).mapM (sanitizeHeaderValue nfc) with
  | some parentId, some references =>
    let chain := threadReferences parentId references
    some ⟨some (uuid++"@nexus.messaging"),if parentId = "" then none else some parentId,
      chain.drop (chain.length-20)⟩
  | _, _ => none

/-- The customer's answer to a reply, under an id of the customer's own. -/
def answerTo (sender : String) (reply : EmailEnvelopeFields) (messageId : String) : EmailPayload :=
  ⟨sender,messageId,reply.messageIdHeader.getD "",
    reply.references++reply.messageIdHeader.toList⟩

end Headers

def validNamespace (text : String) : Bool :=
  match text.toList with
  | c::cs => c.isLower && cs.all (fun d => d.isLower || d.isDigit || d ∈ ['_','.','-']) &&
      cs.length ≤ 47
  | [] => false

/-- The request of `resolve_inbound_conversation`. Its model strips the thread id and
refuses an empty one. -/
def conversationRequest (provider : String) (customerId : ℕ) (hint : String) :
    Option CreateConversationRequest :=
  let threadId := stripOf isSpace (clip 128 hint)
  if threadId = "" ∨ 128 < threadId.toList.length ∨ !validNamespace (clip 47 provider) then none
  else some ⟨some customerId,"email",some (clip 47 provider),some threadId,none⟩

/-- The conversation that an inbound email goes to, with the conversations after. -/
def resolveInboundConversation (provider : String) (customerId : ℕ) (hint : String)
    (rows : List ConversationRow) : Option ℕ × List ConversationRow :=
  match conversationRequest provider customerId hint with
  | none => (none,rows)
  | some request => match openOrResolve request rows with
    | (.ok (row,_),rows) => (some row.id,rows)
    | (.error _,rows) => (none,rows)

/-- A thread: its inbound emails with the conversations they went to, and the reply
that the customer has not answered yet. -/
structure Thread where
  conversations : List ConversationRow
  inbound : List (NormalizedInbound × Option ℕ)
  reply : Option EmailEnvelopeFields

inductive ThreadAction where
  | reply (uuid : String)
  | answer (messageId : String)
  | other (action : ConversationAction)

structure Correspondence where
  provider : String
  customerId : ℕ
  sender : String

namespace Thread

variable (nfc : String → String) (who : Correspondence)

def receive (t : Thread) (inbound : NormalizedInbound) : Thread :=
  let resolved := resolveInboundConversation who.provider who.customerId inbound.externalThreadHint
    t.conversations
  ⟨resolved.2,t.inbound++[(inbound,resolved.1)],none⟩

def start (rows : List ConversationRow) (first : NormalizedInbound) : Thread :=
  receive who ⟨rows,[],none⟩ first

def step (t : Thread) : ThreadAction → Thread
  | .reply uuid => match t.inbound.getLast? with
    | some (parent,_) => match emailThreadFields nfc uuid parent with
      | some fields => { t with reply := some fields }
      | none => t
    | none => t
  | .answer messageId => match t.reply with
    | some reply => match normalizeInbound nfc (answerTo who.sender reply messageId) with
      | some inbound => receive who t inbound
      | none => t
    | none => t
  | .other action => { t with conversations := conversationStep t.conversations action }

end Thread

end NexusAi.Messaging
