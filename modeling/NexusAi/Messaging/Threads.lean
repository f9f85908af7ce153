import NexusAi.Messaging.Email

/-!
# A thread stays in its conversation

The id of the first email stays the first reference of every later one as long as
no reply has to cut its references. It is then the root that every inbound email
of the thread names.
-/

namespace NexusAi.Messaging

open NexusAi.Customers

variable {nfc : String → String} {who : Correspondence}

def settled (nfc : String → String) (id : String) : Bool :=
  bare id = id ∧ scrubHeaderToken nfc id = id ∧ sanitizeHeaderValue nfc id = some id

/-- The email that a reply goes to has room for one more reference. -/
def Thread.short (t : Thread) : ThreadAction → Bool
  | .reply _ => t.inbound.getLast?.all fun p => p.1.email.references.length < 20
  | _ => true

theorem threadRoot_cons {id : String} (hbare : bare id = id) (hne : id ≠ "") (messageId : String)
    (inReplyTo : Option String) (references : List String) :
    threadRoot messageId inReplyTo (id::references) = clip 128 id := by
  simp [threadRoot,hbare,hne]

theorem bare_empty : bare "" = "" := by
  decide

theorem threadRoot_first {id : String} (hbare : bare id = id) (hne : id ≠ "") :
    threadRoot id none [] = clip 128 id := by
  simp [threadRoot,hbare,hne,bare_empty]

theorem sanitizeHeaderValue_length {value text : String}
    (h : sanitizeHeaderValue nfc value = some text) : text.toList.length ≤ 255 := by
  unfold sanitizeHeaderValue at h
  split_ifs at h with hforbidden hlong
  rw [← Option.some.inj h]
  exact not_lt.mp hlong

theorem clip_short {n : ℕ} {text : String} (h : text.toList.length ≤ n) : clip n text = text := by
  simp [clip,List.take_of_length_le h]

/-- What an email of the thread has for its first reference: it is the first one and
has none, or it has the first one. -/
def Follows (id : String) (email : EmailEnvelopeFields) : Prop :=
  (email.references = [] ∧ email.messageIdHeader = some id) ∨ email.references.head? = some id

theorem threadReferences_head {parentId id : String} {references : List String}
    (h : references.head? = some id) : (threadReferences parentId references).head? = some id := by
  cases references with
  | nil => cases h
  | cons =>
    unfold threadReferences
    split <;> exact h

theorem threadReferences_length (parentId : String) (references : List String) :
    (threadReferences parentId references).length ≤ references.length+1 := by
  unfold threadReferences
  split <;> simp

theorem mapM_some {A B : Type} {f : A → Option B} {as : List A} {bs : List B}
    (h : as.mapM f = some bs) : bs.length = as.length ∧ bs.head? = as.head?.bind f := by
  induction as generalizing bs with
  | nil =>
    cases h
    exact ⟨rfl,rfl⟩
  | cons _ _ ih =>
    simp only [List.mapM_cons,Option.pure_def,Option.bind_eq_bind,Option.bind_eq_some_iff] at h
    obtain ⟨b,hb,_,hbs',hbs⟩ := h
    cases hbs
    exact ⟨by simp [(ih hbs').1],by simp [hb]⟩

theorem reply_follows {id uuid : String} (hid : settled nfc id) (hne : id ≠ "")
    {parent : NormalizedInbound} (hparent : Follows id parent.email)
    (hshort : parent.email.references.length < 20) {fields : EmailEnvelopeFields}
    (h : emailThreadFields nfc uuid parent = some fields) : fields.references.head? = some id := by
  simp only [settled,decide_eq_true_eq] at hid
  simp only [emailThreadFields] at h
  split at h
  · rename_i parentId references hsanitized hreferences
    cases h
    obtain ⟨_,hhead⟩ := mapM_some hreferences
    have hcut : (threadReferences parentId references).length-20 = 0 := by
      have hle := threadReferences_length parentId references
      have hfilter := List.length_filter_le (fun r => r ≠ "") parent.email.references
      omega
    simp only [hcut,List.drop_zero]
    rcases hparent with ⟨hempty,hheader⟩ | hfirst
    · -- the first email: the parent itself becomes the first reference
      simp only [hheader,hne,if_false,hid.2.2] at hsanitized
      cases hsanitized
      simp only [hempty,List.filter_nil,List.mapM_nil,Option.pure_def] at hreferences
      cases hreferences
      simp [threadReferences,hne]
    · refine threadReferences_head ?_
      rw [hhead]
      cases hrefs : parent.email.references with
      | nil =>
        rw [hrefs] at hfirst
        cases hfirst
      | cons =>
        rw [hrefs] at hfirst
        cases hfirst
        simp [hne,hid.2.2]
  · cases h

variable {payload : EmailPayload}

theorem normalizeInbound_some {inbound : NormalizedInbound}
    (h : normalizeInbound nfc payload = some inbound) :
    inbound.providerMessageId ≠ "" ∧
    inbound.email.messageIdHeader = some (clip 255 inbound.providerMessageId) ∧
    inbound.email.references = ((payload.references.map (token nfc)).filter (· ≠ "")).take 20 ∧
    inbound.externalThreadHint = threadRoot inbound.providerMessageId
      (if token nfc payload.inReplyTo = "" then none else some (token nfc payload.inReplyTo))
      inbound.email.references := by
  simp only [normalizeInbound] at h
  split_ifs at h with hmissing hreply
  · rw [← Option.some.inj h]
    exact ⟨fun hempty => hmissing (.inr hempty),rfl,rfl,by rw [if_pos hreply]⟩
  · rw [← Option.some.inj h]
    exact ⟨fun hempty => hmissing (.inr hempty),rfl,rfl,by rw [if_neg hreply]⟩

theorem answer_follows {id sender messageId : String} (hid : settled nfc id) (hne : id ≠ "")
    {reply : EmailEnvelopeFields} (hreply : reply.references.head? = some id)
    {inbound : NormalizedInbound}
    (h : normalizeInbound nfc (answerTo sender reply messageId) = some inbound) :
    Follows id inbound.email ∧ inbound.externalThreadHint = clip 128 id := by
  simp only [settled,decide_eq_true_eq] at hid
  have htoken : token nfc id = id := by
    rw [token,hid.1,hid.2.1]
  obtain ⟨-,-,hreferences,hhint⟩ := normalizeInbound_some h
  obtain ⟨more,hmore⟩ : ∃ more, inbound.email.references = id::more := by
    cases hrefs : reply.references with
    | nil =>
      rw [hrefs] at hreply
      cases hreply
    | cons =>
      rw [hrefs] at hreply
      cases hreply
      rw [hreferences]
      simp [answerTo,hrefs,htoken,hne]
  refine ⟨.inr (by rw [hmore]; rfl),?_⟩
  rw [hhint,hmore]
  exact threadRoot_cons hid.1 hne _ _ _

/-- The invariant of a thread with this first email in this conversation. -/
structure Rooted (who : Correspondence) (id hint : String) (conversationId : ℕ) (t : Thread) :
    Prop where
  resolves : ∃ request, conversationRequest who.provider who.customerId hint = some request ∧
    Resolves request (some who.customerId) conversationId t.conversations
  inbound : ∀ p ∈ t.inbound, p.1.externalThreadHint = hint ∧ p.2 = some conversationId
  latest : ∀ p ∈ t.inbound.getLast?, Follows id p.1.email
  reply : ∀ fields ∈ t.reply, fields.references.head? = some id

theorem conversationRequest_some {provider hint : String} {customerId : ℕ}
    {request : CreateConversationRequest}
    (h : conversationRequest provider customerId hint = some request) :
    request.hasKey ∧ request.customerId = some customerId := by
  simp only [conversationRequest] at h
  split_ifs at h with hbad
  cases h
  simp only [not_or,Bool.not_eq_true,Bool.not_eq_false'] at hbad
  refine ⟨?_,rfl⟩
  have hnamespace : clip 47 provider ≠ "" := by
    intro hempty
    rw [hempty] at hbad
    exact absurd hbad.2.2 (by decide)
  simp [CreateConversationRequest.hasKey,hnamespace,hbad.1]

section Steps

variable {id hint : String} {conversationId : ℕ} {t : Thread}

theorem Rooted.receive (hw : Rooted who id hint conversationId t) {inbound : NormalizedInbound}
    (hfollows : Follows id inbound.email) (hhint : inbound.externalThreadHint = hint) :
    Rooted who id hint conversationId (Thread.receive who t inbound) := by
  obtain ⟨request,hrequest,hresolves⟩ := hw.resolves
  obtain ⟨hkey,hcustomer⟩ := conversationRequest_some hrequest
  rw [← hcustomer] at hresolves
  obtain ⟨_,hrow,hid⟩ := hresolves.openOrResolve hkey
  have hafter : Resolves request request.customerId conversationId
      (openOrResolve request t.conversations).2 :=
    hresolves.step (.openOrResolve request)
  have hresolved : resolveInboundConversation who.provider who.customerId hint t.conversations =
      (some conversationId,(openOrResolve request t.conversations).2) := by
    simp only [resolveInboundConversation,hrequest]
    cases hopen : openOrResolve request t.conversations with
    | mk =>
      rw [hopen] at hrow
      simp only at hrow
      subst hrow
      simp [hid]
  have hreceived : Thread.receive who t inbound =
      ⟨(openOrResolve request t.conversations).2,t.inbound++[(inbound,some conversationId)],none⟩ := by
    simp only [Thread.receive,hhint,hresolved]
  rw [hreceived]
  refine ⟨⟨request,hrequest,hcustomer ▸ hafter⟩,?_,?_,by simp⟩
  · intro p hp
    rcases Table.mem_concat hp with hold | rfl
    · exact hw.inbound p hold
    · exact ⟨hhint,rfl⟩
  · intro p hp
    simp only [List.getLast?_concat,Option.mem_def,Option.some.injEq] at hp
    exact hp ▸ hfollows

theorem Rooted.step (hid : settled nfc id) (hne : id ≠ "") (hhint : hint = clip 128 id)
    (hw : Rooted who id hint conversationId t) {a : ThreadAction} (hshort : t.short a) :
    Rooted who id hint conversationId (Thread.step nfc who t a) := by
  cases a with
  | reply =>
    simp only [Thread.step]
    split
    · rename_i hlast
      split
      · rename_i hfields
        refine ⟨hw.resolves,hw.inbound,hw.latest,?_⟩
        intro fields' hfields'
        cases hfields'
        simp only [Thread.short,hlast,Option.all_some,decide_eq_true_eq] at hshort
        exact reply_follows hid hne (hw.latest _ hlast) hshort hfields
      · exact hw
    · exact hw
  | answer =>
    simp only [Thread.step]
    split
    · rename_i reply hreply
      split
      · rename_i inbound hinbound
        obtain ⟨hfollows,hroot⟩ := answer_follows hid hne (hw.reply reply hreply) hinbound
        exact hw.receive hfollows (hroot.trans hhint.symm)
      · exact hw
    · exact hw
  | other action =>
    obtain ⟨request,hrequest,hresolves⟩ := hw.resolves
    exact ⟨⟨request,hrequest,hresolves.step action⟩,hw.inbound,hw.latest,hw.reply⟩

end Steps

theorem first_root {first : NormalizedInbound}
    (hreferences : payload.references = []) (hreply : token nfc payload.inReplyTo = "")
    (hfirst : normalizeInbound nfc payload = some first)
    (hid : settled nfc first.providerMessageId) :
    first.providerMessageId ≠ "" ∧ Follows first.providerMessageId first.email ∧
      first.externalThreadHint = clip 128 first.providerMessageId := by
  obtain ⟨hne,hheader,hrefs,hhint⟩ := normalizeInbound_some hfirst
  simp only [settled,decide_eq_true_eq] at hid
  have hempty : first.email.references = [] := by
    rw [hrefs,hreferences]
    rfl
  refine ⟨hne,.inl ⟨hempty,?_⟩,?_⟩
  · rw [hheader,clip_short (sanitizeHeaderValue_length hid.2.2)]
  · rw [hhint,hempty,if_pos hreply]
    exact threadRoot_first hid.1 hne

theorem resolveInbound_resolves {provider hint : String} {customerId conversationId : ℕ}
    {rows : List ConversationRow}
    (h : (resolveInboundConversation provider customerId hint rows).1 = some conversationId) :
    ∃ request, conversationRequest provider customerId hint = some request ∧
      Resolves request (some customerId) conversationId
        (resolveInboundConversation provider customerId hint rows).2 := by
  unfold resolveInboundConversation at h ⊢
  cases hrequest : conversationRequest provider customerId hint with
  | none =>
    rw [hrequest] at h
    cases h
  | some request =>
    obtain ⟨hkey,hcustomer⟩ := conversationRequest_some hrequest
    rw [hrequest] at h
    simp only at h ⊢
    have hresolves : ∀ row created, (openOrResolve request rows).1 = .ok (row,created) →
        Resolves request request.customerId row.id (openOrResolve request rows).2 :=
      fun _ _ => openOrResolve_resolves hkey (by rw [hcustomer]; simp)
    cases hopen : openOrResolve request rows with
    | mk outcome =>
      rw [hopen] at h hresolves
      cases outcome with
      | error => cases h
      | ok result =>
        cases h
        exact ⟨request,rfl,hcustomer ▸ hresolves result.1 result.2 rfl⟩

theorem rooted_start {first : NormalizedInbound}
    {rows : List ConversationRow} {conversationId : ℕ}
    (hreferences : payload.references = []) (hreply : token nfc payload.inReplyTo = "")
    (hfirst : normalizeInbound nfc payload = some first)
    (hresolved : (resolveInboundConversation who.provider who.customerId first.externalThreadHint
      rows).1 = some conversationId)
    (hid : settled nfc first.providerMessageId) :
    Rooted who first.providerMessageId first.externalThreadHint conversationId
      (Thread.start who rows first) := by
  obtain ⟨-,hfollows,-⟩ := first_root hreferences hreply hfirst hid
  have hstart : Thread.start who rows first = ⟨(resolveInboundConversation who.provider
      who.customerId first.externalThreadHint rows).2,[(first,some conversationId)],none⟩ := by
    simp only [Thread.start,Thread.receive,hresolved,List.nil_append]
  have hresolves := resolveInbound_resolves hresolved
  -- the table after it is a name from here on, so that nothing computes it
  generalize (resolveInboundConversation who.provider who.customerId first.externalThreadHint
    rows).2 = after at hstart hresolves
  rw [hstart]
  refine ⟨hresolves,?_,?_,?_⟩
  · intro p hp
    rw [List.mem_singleton.mp hp]
    exact ⟨rfl,rfl⟩
  · intro p hp
    simp only [List.getLast?_singleton,Option.mem_def,Option.some.injEq] at hp
    exact hp ▸ hfollows
  · simp

/-- In a thread in which every email that we reply to has room for one more reference,
and whose first email has an id that normalization leaves as it is, every inbound email
names the root that the first one named and goes to its conversation. -/
theorem thread_stays (nfc : String → String) (who : Correspondence) (rows : List ConversationRow)
    (payload : EmailPayload) (hreferences : payload.references = [])
    (hreply : token nfc payload.inReplyTo = "") (first : NormalizedInbound)
    (hfirst : normalizeInbound nfc payload = some first)
    (hid : settled nfc first.providerMessageId) (conversationId : ℕ)
    (hresolved : (resolveInboundConversation who.provider who.customerId first.externalThreadHint
      rows).1 = some conversationId)
    (as : List ThreadAction)
    (h : Run.Conforms (Thread.step nfc who) (fun t a => t.short a) as
      (Thread.start who rows first)) :
    ∀ p ∈ (Run.exec (Thread.step nfc who) as (Thread.start who rows first)).inbound,
      p.1.externalThreadHint = first.externalThreadHint ∧ p.2 = some conversationId := by
  obtain ⟨hne,-,hhint⟩ := first_root hreferences hreply hfirst hid
  have hrooted := Run.exec_conforming (Thread.step nfc who) (fun t a => t.short a)
    (Rooted who first.providerMessageId first.externalThreadHint conversationId)
    (fun t a hshort hw => hw.step hid hne hhint hshort) as _ h
    (rooted_start hreferences hreply hfirst hresolved hid)
  exact hrooted.inbound

def sampleWho : Correspondence := ⟨"generic_http",7,"ann@x"⟩

def samplePayload : EmailPayload := ⟨"ann@x","<m1@x>","",[]⟩

def sampleFirst : NormalizedInbound := ⟨"m1@x","m1@x",some "m1@x",none,[]⟩

/-- Our replies and the customer's answers, a number of rounds of them. -/
def rounds (n : ℕ) : List ThreadAction :=
  (List.range n).flatMap fun k => [.reply ("o"++toString k),.answer ("<a"++toString k++"@x>")]

def sampleThread (n : ℕ) : Thread :=
  Run.exec (Thread.step id sampleWho) (rounds n) (Thread.start sampleWho [] sampleFirst)

/-- Ten rounds stay in the conversation. -/
theorem tenRounds_stay :
    (∀ p ∈ (sampleThread 10).inbound, p.1.externalThreadHint = "m1@x" ∧ p.2 = some 0) ∧
    (sampleThread 10).inbound.length = 11 :=
  ⟨thread_stays id sampleWho [] samplePayload rfl (by decide +kernel) sampleFirst
    (by decide +kernel) (by decide +kernel) 0 (by decide +kernel) (rounds 10)
    (by decide +kernel),by decide +kernel⟩

/-- The eleventh reply drops the first email's id to keep twenty references, and the
answer to it goes to a new conversation under the id of our first reply. -/
theorem eleventhRound_leaves :
    (sampleThread 11).inbound.map (fun p => (p.1.externalThreadHint,p.2)) =
      List.replicate 11 ("m1@x",some 0)++[("o0@nexus.messaging",some 1)] := by
  decide +kernel

end NexusAi.Messaging
