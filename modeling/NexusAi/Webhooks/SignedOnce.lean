import NexusAi.Lib.Batch
import NexusAi.Lib.Checked
import NexusAi.Lib.Run

/-!
# Signed webhooks

A request to an endpoint with a signature scheme and a timestamp header is verified
against the text that its own headers make of it, and claims a receipt under an id that it
also takes from its headers, which are not signed. With a timestamp that is a number and a
signed text that splits in one way, an accepted request is one that was signed and came in
time. The digest and how texts are read are parameters.
-/

namespace NexusAi.Webhooks
open NexusAi.Checked

structure Endpoint where
  (signatureHeader timestampHeader : String)
  (toleranceSeconds maxBodyBytes : ℕ)

inductive FloatValue where
  | finite (x : ℚ)
  | infinite
  | nan
  deriving DecidableEq

structure Primitives where
  strip : String → String
  lower : String → String
  float : String → Option FloatValue
  hmac : List UInt8 → String
  sha256 : List UInt8 → String

inductive WebhookError where
  | payloadRejected (detail : String)
  | signatureInvalid (detail : String)
  | replay (detail : String)
  deriving DecidableEq

abbrev Headers := List (String × String)

def outside (now : ℚ) (tolerance : ℕ) : FloatValue → Bool
  | .finite x => tolerance < |now-x|
  | .infinite => true
  | .nan => false

def signedPayload (timestamp : String) (body : List UInt8) : List UInt8 :=
  (timestamp++".").toUTF8.data.toList++body

namespace Primitives

variable (py : Primitives)

def get (headers : Headers) (name : String) : Option String :=
  (headers.reverse.find? fun h => py.lower h.1 = name).map Prod.snd

def dropMark (signature mark : String) : String :=
  if mark.toList.isPrefixOf (py.lower signature).toList then
    String.ofList (signature.toList.drop mark.length)
  else signature

def digest (provided : String) : String :=
  py.lower (["sha256=","hmac-sha256="].foldl py.dropMark (py.strip provided))

def verifyHmacSha256 (now : ℚ) (tolerance : ℕ) (body : List UInt8)
    (provided timestamp : Option String) : Except WebhookError Unit := do
  require (provided.getD "" ≠ "") (.signatureInvalid "the request is unsigned")
  let payload ← match timestamp with
    | none => pure body
    | some text => do
      let value ← present (py.float text)
        (.signatureInvalid "the signature timestamp is malformed")
      require (outside now tolerance value = false)
        (.replay "the signature timestamp is outside the tolerance window")
      pure (signedPayload text body)
  require (py.hmac payload = py.digest (provided.getD ""))
    (.signatureInvalid "the signature did not verify")

def externalId (headers : Headers) (body : List UInt8) : String :=
  let named := ["x-nxs-webhook-id","webhook-id","x-request-id","x-github-delivery"].findSome?
    fun candidate => (py.get headers candidate).bind fun value =>
      if value = "" then none
      else some ("hdr:"++candidate++":"++String.ofList (value.toList.take 150))
  named.getD ("body:"++py.sha256 body)

end Primitives

inductive Phase where
  | claiming (externalId : String)
  | accepted (externalId : String) (replayed : Bool)
  | refused (error : WebhookError)
  | aborted
  deriving DecidableEq

def Phase.externalId : Phase → Option String
  | .claiming externalId | .accepted externalId _ => some externalId
  | _ => none

structure Call where
  timestamp : Option String
  body : List UInt8
  receivedAt : ℚ
  phase : Phase
  deriving DecidableEq

structure World where
  clock : ℚ
  receipts : List String
  calls : List Call

inductive Action where
  | receive (headers : Headers) (body : List UInt8)
  | claim (call : ℕ)
  | abort (call : ℕ)
  | pass (seconds : ℚ≥0)

namespace World

def initial (clock : ℚ) : World := ⟨clock,[],[]⟩

def enter (w : World) (i : ℕ) (phase : Phase) : World :=
  { w with calls := w.calls.modify i fun c => { c with phase := phase } }

section

variable (py : Primitives) (endpoint : Endpoint)

def timestampOf (headers : Headers) : Option String :=
  py.get headers (py.lower endpoint.timestampHeader)

def receivePhase (now : ℚ) (headers : Headers) (body : List UInt8) : Phase :=
  if endpoint.maxBodyBytes < body.length then
    .refused (.payloadRejected "the webhook body exceeds the configured limit")
  else match py.verifyHmacSha256 now endpoint.toleranceSeconds body
      (py.get headers (py.lower endpoint.signatureHeader)) (timestampOf py endpoint headers) with
    | .error error => .refused error
    | .ok _ => .claiming (py.externalId headers body)

def receiveStep (w : World) (headers : Headers) (body : List UInt8) : World :=
  { w with calls := w.calls++[⟨timestampOf py endpoint headers,body,w.clock,
      receivePhase py endpoint w.clock headers body⟩] }

/-- The unique receipt of an external id, inserted with the event. -/
def claimStep (w : World) (i : ℕ) (externalId : String) : World :=
  if externalId ∈ w.receipts then w.enter i (.accepted externalId true)
  else { w with receipts := w.receipts++[externalId] }.enter i (.accepted externalId false)

def step (w : World) : Action → World
  | .receive headers body => w.receiveStep py endpoint headers body
  | .claim i =>
    match (w.calls[i]?).map Call.phase with
    | some (.claiming externalId) => w.claimStep i externalId
    | _ => w
  | .abort i =>
    match (w.calls[i]?).map Call.phase with
    | some (.claiming _) => w.enter i .aborted
    | _ => w
  | .pass seconds => { w with clock := w.clock+seconds }

/-- The digest is unforgeable: one that is presented is of a text that was signed. -/
def Unforged (signed : List (String × List UInt8)) : Action → Prop
  | .receive headers _ => ∀ provided payload,
      py.get headers (py.lower endpoint.signatureHeader) = some provided →
      py.hmac payload = py.digest provided → ∃ p ∈ signed, signedPayload p.1 p.2 = payload
  | _ => True

/-- A request that is let in carries a timestamp that is a number, its text splits in one way
among the signed ones, and its headers give it the id that it was let in with before. -/
def regular (signed : List (String × List UInt8)) (w : World) : Action → Bool
  | .receive headers body =>
    (receivePhase py endpoint w.clock headers body).externalId.isNone ||
    (timestampOf py endpoint headers).any fun text =>
      py.float text ≠ some .nan &&
      (signed.all fun p => signedPayload p.1 p.2 = signedPayload text body →
        p = (text,body)) &&
      w.calls.all fun c => c.timestamp = some text → c.body = body →
        ∀ e ∈ c.phase.externalId, e = py.externalId headers body
  | _ => true

end

end World

variable {py : Primitives} {endpoint : Endpoint} {signed : List (String × List UInt8)}

theorem verify_ok {now : ℚ} {tolerance : ℕ} {body : List UInt8} {provided : Option String}
    {text : String} {u : Unit}
    (h : py.verifyHmacSha256 now tolerance body provided (some text) = .ok u) :
    ∃ signature value, provided = some signature ∧ py.float text = some value ∧
      outside now tolerance value = false ∧
      py.hmac (signedPayload text body) = py.digest signature := by
  simp only [Primitives.verifyHmacSha256,bind_ok,require_ok,present_ok,pure_ok] at h
  obtain ⟨-,hsigned,value,hvalue,-,hinside,_,rfl,hmac⟩ := h
  cases provided with
  | none => exact absurd rfl hsigned
  | some signature => exact ⟨signature,value,rfl,hvalue,hinside,hmac⟩

theorem within_of_inside {now : ℚ} {tolerance : ℕ} {value : FloatValue} (hnan : value ≠ .nan)
    (h : outside now tolerance value = false) :
    ∃ x, value = .finite x ∧ |now-x| ≤ tolerance := by
  cases value with
  | finite x => exact ⟨x,rfl,not_lt.mp (of_decide_eq_false h)⟩
  | infinite => cases h
  | nan => exact absurd rfl hnan

/-- The body was signed, with a timestamp within the tolerance of when it came. -/
def Call.Genuine (py : Primitives) (endpoint : Endpoint) (signed : List (String × List UInt8))
    (c : Call) : Prop :=
  ∃ text x, c.timestamp = some text ∧ (text,c.body) ∈ signed ∧
    py.float text = some (.finite x) ∧ |c.receivedAt-x| ≤ endpoint.toleranceSeconds

namespace World

variable {w : World}

structure Sound (py : Primitives) (endpoint : Endpoint) (signed : List (String × List UInt8))
    (w : World) : Prop where
  genuine : ∀ c ∈ w.calls, c.phase.externalId.isSome → c.Genuine py endpoint signed
  agree : ∀ c ∈ w.calls, ∀ d ∈ w.calls, c.timestamp = d.timestamp → c.body = d.body →
    ∀ e f, c.phase.externalId = some e → d.phase.externalId = some f → e = f
  claimed : ∀ c ∈ w.calls, ∀ e, c.phase = .accepted e false → e ∈ w.receipts
  once : ∀ (i j : ℕ) c d e, w.calls[i]? = some c → w.calls[j]? = some d →
    c.phase = .accepted e false → d.phase = .accepted e false → i = j

section

variable {headers : Headers} {body : List UInt8} {e : String}
  (hregular : w.regular py endpoint signed (.receive headers body))
  (h : (receivePhase py endpoint w.clock headers body).externalId = some e)

include hregular h

theorem regular_admitted : ∃ text, timestampOf py endpoint headers = some text ∧
    py.float text ≠ some .nan ∧
    (∀ p ∈ signed, signedPayload p.1 p.2 = signedPayload text body → p = (text,body)) ∧
    ∀ c ∈ w.calls, c.timestamp = some text → c.body = body →
      ∀ f ∈ c.phase.externalId, f = py.externalId headers body := by
  simp only [regular,h,Option.isNone_some,Bool.false_or] at hregular
  obtain ⟨text,htext,hrest⟩ := (Option.any_eq_true _ _).mp hregular
  simp only [Bool.and_eq_true,List.all_eq_true,decide_eq_true_eq,and_assoc] at hrest
  exact ⟨text,htext,hrest⟩

theorem receivePhase_genuine (hunforged : Unforged py endpoint signed (.receive headers body)) :
    e = py.externalId headers body ∧
      Call.Genuine py endpoint signed ⟨timestampOf py endpoint headers,body,w.clock,.aborted⟩ := by
  obtain ⟨text,htext,hnan,hsplit,-⟩ := regular_admitted hregular h
  unfold receivePhase at h
  split_ifs at h
  · cases h
  · rw [htext] at h
    split at h
    · cases h
    · next hverified =>
      obtain rfl := Option.some.inj h
      obtain ⟨signature,_,hprovided,hvalue,hinside,hmac⟩ := verify_ok hverified
      obtain ⟨p,hp,hpayload⟩ := hunforged signature _ hprovided hmac
      obtain ⟨x,rfl,hx⟩ := within_of_inside (fun h => hnan (h ▸ hvalue)) hinside
      exact ⟨rfl,text,x,htext,hsplit p hp hpayload ▸ hp,hvalue,hx⟩

end

section

variable (h : w.Sound py endpoint signed)

include h

theorem Sound.receives {headers : Headers} {body : List UInt8}
    (hunforged : Unforged py endpoint signed (.receive headers body))
    (hregular : w.regular py endpoint signed (.receive headers body)) :
    (w.receiveStep py endpoint headers body).Sound py endpoint signed := by
  have hid := fun e he => receivePhase_genuine (e := e) hregular he hunforged
  have hbefore : ∀ c ∈ w.calls, c.timestamp = timestampOf py endpoint headers → c.body = body →
      ∀ e f, c.phase.externalId = some e →
        (receivePhase py endpoint w.clock headers body).externalId = some f → e = f := by
    intro c hc htimestamp hbody e f he hf
    obtain ⟨_,htext,-,-,hsame⟩ := regular_admitted hregular hf
    rw [(hid f hf).1]
    exact hsame c hc (htimestamp.trans htext) hbody e he
  have hfresh : ∀ e r, receivePhase py endpoint w.clock headers body ≠ .accepted e r := by
    intro e r heq
    unfold receivePhase at heq
    split_ifs at heq
    split at heq <;> cases heq
  constructor
  · intro c hc hsome
    rcases List.mem_append.mp hc with hc | hc
    · exact h.genuine c hc hsome
    · obtain rfl := List.mem_singleton.mp hc
      obtain ⟨e,he⟩ := Option.isSome_iff_exists.mp hsome
      exact (hid e he).2
  · intro c hc d hd htimestamp hbody e f he hf
    rcases List.mem_append.mp hc with hc | hc <;> rcases List.mem_append.mp hd with hd | hd
    · exact h.agree c hc d hd htimestamp hbody e f he hf
    · obtain rfl := List.mem_singleton.mp hd
      exact hbefore c hc htimestamp hbody e f he hf
    · obtain rfl := List.mem_singleton.mp hc
      exact (hbefore d hd htimestamp.symm hbody.symm f e hf he).symm
    · obtain rfl := List.mem_singleton.mp hc
      obtain rfl := List.mem_singleton.mp hd
      exact Option.some.inj (he.symm.trans hf)
  · intro c hc e he
    rcases List.mem_append.mp hc with hc | hc
    · exact h.claimed c hc e he
    · obtain rfl := List.mem_singleton.mp hc
      exact absurd he (hfresh e false)
  · intro i j c d e hi hj hc hd
    rcases Batch.concat_cases hi with ⟨-,rfl⟩ | hi
    · exact absurd hc (hfresh e false)
    · rcases Batch.concat_cases hj with ⟨-,rfl⟩ | hj
      · exact absurd hd (hfresh e false)
      · exact h.once i j c d e hi hj hc hd

theorem Sound.enters {i : ℕ} {c : Call} (hi : w.calls[i]? = some c) {p : Phase}
    (hid : ∀ e, p.externalId = some e → c.phase.externalId = some e) {receipts : List String}
    (hreceipts : ∀ e ∈ w.receipts, e ∈ receipts)
    (hclaimed : ∀ e, p = .accepted e false → e ∈ receipts ∧ e ∉ w.receipts) :
    ({ w with receipts := receipts }.enter i p).Sound py endpoint signed := by
  have hmem : ∀ d ∈ (w.calls.modify i fun c => { c with phase := p }), d ∈ w.calls ∨
      d = { c with phase := p } := fun d hd => (Batch.mem_modify hi hd).symm
  have hc := List.mem_of_getElem? hi
  -- what is known of the calls by their ids was known before
  have hback : ∀ d ∈ (w.calls.modify i fun c => { c with phase := p }), ∀ e,
      d.phase.externalId = some e → ∃ d₀ ∈ w.calls, d₀.phase.externalId = some e ∧
        d₀.timestamp = d.timestamp ∧ d₀.body = d.body ∧ d₀.receivedAt = d.receivedAt := by
    intro d hd e he
    rcases hmem d hd with hd | rfl
    · exact ⟨d,hd,he,rfl,rfl,rfl⟩
    · exact ⟨c,hc,hid e he,rfl,rfl,rfl⟩
  constructor
  · intro d hd hsome
    obtain ⟨e,he⟩ := Option.isSome_iff_exists.mp hsome
    obtain ⟨d₀,hd₀,he₀,htimestamp,hbody,hreceived⟩ := hback d hd e he
    obtain ⟨text,x,hgenuine⟩ := h.genuine d₀ hd₀ (by rw [he₀]; rfl)
    rw [htimestamp,hbody,hreceived] at hgenuine
    exact ⟨text,x,hgenuine⟩
  · intro a ha b hb htimestamp hbody e f he hf
    obtain ⟨a₀,ha₀,he₀,hat,hab,-⟩ := hback a ha e he
    obtain ⟨b₀,hb₀,hf₀,hbt,hbb,-⟩ := hback b hb f hf
    exact h.agree a₀ ha₀ b₀ hb₀ (hat.trans (htimestamp.trans hbt.symm))
      (hab.trans (hbody.trans hbb.symm)) e f he₀ hf₀
  · intro d hd e he
    rcases hmem d hd with hd | rfl
    · exact hreceipts e (h.claimed d hd e he)
    · exact (hclaimed e he).1
  · intro j k a b e hj hk ha hb
    have hclash : ∀ {j : ℕ} {a : Call}, w.calls[j]? = some a → a.phase = .accepted e false →
        p ≠ .accepted e false := by
      intro j a hj ha hp
      exact (hclaimed e hp).2 (h.claimed a (List.mem_of_getElem? hj) e ha)
    rcases Batch.modify_cases hj with ⟨_,_,rfl,rfl⟩ | ⟨-,hj₀⟩ <;>
      rcases Batch.modify_cases hk with ⟨_,_,rfl,rfl⟩ | ⟨-,hk₀⟩
    · rfl
    · exact absurd ha (hclash hk₀ hb)
    · exact absurd hb (hclash hj₀ ha)
    · exact h.once j k a b e hj₀ hk₀ ha hb

theorem Sound.step {a : Action} (hunforged : Unforged py endpoint signed a)
    (hregular : w.regular py endpoint signed a) :
    (w.step py endpoint a).Sound py endpoint signed := by
  cases a with
  | receive => exact h.receives hunforged hregular
  | claim =>
    simp only [World.step]
    split
    · next externalId hphase =>
      obtain ⟨c,hi,hc⟩ := Option.map_eq_some_iff.mp hphase
      have hid : ∀ replayed e, (Phase.accepted externalId replayed).externalId = some e →
          c.phase.externalId = some e := by
        intro replayed e he
        rw [hc]
        exact he
      unfold claimStep
      split_ifs with hthere
      · exact h.enters hi (hid true) (fun _ he => he) (by simp)
      · refine h.enters hi (hid false) (fun _ he => List.mem_append_left _ he) ?_
        rintro e ⟨⟩
        exact ⟨by simp,hthere⟩
    · exact h
  | abort =>
    simp only [World.step]
    split
    · next externalId hphase =>
      obtain ⟨c,hi,-⟩ := Option.map_eq_some_iff.mp hphase
      exact h.enters hi (by simp [Phase.externalId]) (fun _ he => he) (by simp)
    · exact h
  | pass => exact ⟨h.genuine,h.agree,h.claimed,h.once⟩

end

/-- In every run of regular requests with digests that are not forged, what is accepted as new
was signed and came in time, and no signed pair is accepted as new twice. -/
theorem signed_once (py : Primitives) (endpoint : Endpoint) (signed : List (String × List UInt8))
    (clock : ℚ) (as : List Action) (hunforged : ∀ a ∈ as, Unforged py endpoint signed a)
    (hregular : Run.Conforms (step py endpoint)
      (fun w a => w.regular py endpoint signed a) as (initial clock)) :
    let w := Run.exec (step py endpoint) as (initial clock)
    (∀ c ∈ w.calls, ∀ e, c.phase = .accepted e false → ∃ text x, c.timestamp = some text ∧
      (text,c.body) ∈ signed ∧ py.float text = some (.finite x) ∧
        |c.receivedAt-x| ≤ endpoint.toleranceSeconds) ∧
    (∀ p ∈ signed, ∀ (i j : ℕ) c d e f, w.calls[i]? = some c → w.calls[j]? = some d →
      c.phase = .accepted e false → d.phase = .accepted f false →
      c.timestamp = some p.1 → c.body = p.2 → d.timestamp = some p.1 → d.body = p.2 → i = j) := by
  intro w
  have hsound : w.Sound py endpoint signed := by
    have hboth := Run.conforms_and (step py endpoint) _ _ as (initial clock)
      (Run.conforms_of_forall _ (Unforged py endpoint signed) as _ hunforged) hregular
    exact Run.exec_conforming (step py endpoint) _ (Sound py endpoint signed)
      (fun _ _ hok h => h.step hok.1 hok.2) as (initial clock) hboth
      ⟨by simp [initial],by simp [initial],by simp [initial],by simp [initial]⟩
  constructor
  · intro c hc e he
    exact hsound.genuine c hc (by rw [he]; rfl)
  · intro p hp i j c d e f hi hj hc hd hct hcb hdt hdb
    have heq : e = f := hsound.agree c (List.mem_of_getElem? hi) d (List.mem_of_getElem? hj)
      (hct.trans hdt.symm) (hcb.trans hdb.symm) e f (by rw [hc]; rfl) (by rw [hd]; rfl)
    exact hsound.once i j c d e hi hj hc (heq ▸ hd)

end World

/-- Digests are the texts themselves, all in lower case, and the only timestamp is 100. -/
def samplePrimitives : Primitives where
  strip := id
  lower := id
  float := fun text => if text = "100" then some (.finite 100) else none
  hmac := fun payload => String.ofList (payload.map Char.ofUInt8)
  sha256 := fun body => String.ofList (body.map Char.ofUInt8)

theorem ofUInt8_injective : Function.Injective Char.ofUInt8 := by
  intro a b h
  have hval : a.toUInt32 = b.toUInt32 := congrArg Char.val h
  exact UInt8.toNat_inj.mp (by simpa using congrArg UInt32.toNat hval)

theorem hmac_injective : Function.Injective samplePrimitives.hmac := by
  intro a b h
  exact (List.map_injective_iff.mpr ofUInt8_injective) (String.ofList_injective h)

def sampleEndpoint : Endpoint := ⟨"signature","timestamp",300,1000⟩

def sampleSigned : List (String × List UInt8) := [("100",[120])]

def signedHeaders : Headers := [("signature","100.x"),("timestamp","100")]

theorem signedHeaders_unforged (headers : Headers) (body : List UInt8)
    (h : samplePrimitives.get headers "signature" = some "100.x") :
    World.Unforged samplePrimitives sampleEndpoint sampleSigned (.receive headers body) := by
  intro provided payload hprovided hmac
  obtain rfl := Option.some.inj (h.symm.trans hprovided)
  refine ⟨("100",[120]),by simp [sampleSigned],hmac_injective ?_⟩
  rw [hmac]
  decide +kernel

def copiedRun : List Action :=
  [.receive signedHeaders [120],.receive signedHeaders [120],.claim 0,.claim 1]

theorem copiedRun_once :
    (Run.exec (World.step samplePrimitives sampleEndpoint) copiedRun (.initial 120)).calls.map
        Call.phase = [.accepted "body:x" false,.accepted "body:x" true] ∧
    ∀ p ∈ sampleSigned, ∀ (i j : ℕ) c d e f,
      (Run.exec (World.step samplePrimitives sampleEndpoint) copiedRun (.initial 120)).calls[i]? =
        some c →
      (Run.exec (World.step samplePrimitives sampleEndpoint) copiedRun (.initial 120)).calls[j]? =
        some d →
      c.phase = .accepted e false → d.phase = .accepted f false → c.timestamp = some p.1 →
      c.body = p.2 → d.timestamp = some p.1 → d.body = p.2 → i = j := by
  refine ⟨by decide +kernel,?_⟩
  refine (World.signed_once samplePrimitives sampleEndpoint sampleSigned 120 copiedRun ?_
    (by decide +kernel)).2
  simp only [copiedRun,List.forall_mem_cons]
  exact ⟨signedHeaders_unforged _ _ (by decide +kernel),
    signedHeaders_unforged _ _ (by decide +kernel),trivial,trivial,by simp⟩

/-- The copy carries an id of its own, and another one carries the signed text as its body
and no timestamp, long after. -/
def alteredRun : List Action :=
  [.receive signedHeaders [120],.receive (("x-request-id","1")::signedHeaders) [120],.claim 0,
    .claim 1,.pass 100000,.receive [("signature","100.x")] [49,48,48,46,120],.claim 2]

/-- Every digest was seen before, and all three are accepted as new. -/
theorem alteredRun_accepts :
    (∀ a ∈ alteredRun, World.Unforged samplePrimitives sampleEndpoint sampleSigned a) ∧
    (Run.exec (World.step samplePrimitives sampleEndpoint) alteredRun (.initial 120)).calls =
      [⟨some "100",[120],120,.accepted "body:x" false⟩,
        ⟨some "100",[120],120,.accepted "hdr:x-request-id:1" false⟩,
        ⟨none,[49,48,48,46,120],100120,.accepted "body:100.x" false⟩] := by
  refine ⟨?_,by decide +kernel⟩
  simp only [alteredRun,List.forall_mem_cons]
  exact ⟨signedHeaders_unforged _ _ (by decide +kernel),
    signedHeaders_unforged _ _ (by decide +kernel),trivial,trivial,trivial,
    signedHeaders_unforged _ _ (by decide +kernel),trivial,by simp⟩

end NexusAi.Webhooks
