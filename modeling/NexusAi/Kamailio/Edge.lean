import NexusAi.Lib.Run

/-!
# The edge between its peers and the resolver

An initial INVITE that passed the checks on its form reserves a slot, asks the
resolver for a target, writes its entry into the table of dialogs and is relayed.
Requests within a dialog are held against its entry. Replies are handled on their
own: a final one is reported to the resolver and then ends the dialog. Handlers run
in several processes, so every access to shared memory and every call of the resolver
is a step of its own.

What the resolver and the transaction layer answer is an input, except that the
resolver grants the relay of a route or permit once. The key of an entry stands for
the hash of the call id and the tag of the caller.
-/

namespace NexusAi.Kamailio

inductive Direction
  | inbound | outbound
  deriving DecidableEq

inductive Transport
  | udp | tcp | tls
  deriving DecidableEq

inductive Method
  | invite | ack | bye | update | prack | info | options
  deriving DecidableEq

structure Address where
  text : String
  (isLoopback isLinkLocal isMulticast isUnspecified isReserved : Bool)
  isPrivate : Bool
  deriving DecidableEq

/-- A decision of the resolver. The owner is the route or the permit that it was made
for. A transport that is not known is absent. -/
structure Decision where
  owner : ℕ
  handle : Option String
  address : Address
  port : ℕ
  transport : Option Transport
  certificate : Option String
  deriving DecidableEq

structure Edge where
  (dialogs pendingResolvers : ℕ)
  tlsTargets : List ((String × ℕ) × String)

def Edge.accepts (e : Edge) (direction : Direction) (d : Decision) : Bool :=
  !(d.address.isLoopback || d.address.isLinkLocal || d.address.isMulticast ||
      d.address.isUnspecified || d.address.isReserved ||
      (direction = .inbound && !d.address.isPrivate)) &&
    match d.transport with
    | none => false
    | some .tls => d.certificate.isSome &&
        e.tlsTargets.lookup (d.address.text,d.port) = d.certificate
    | some _ => true

/-- Whether the destination of a decision can be written down and its handle passed
on. -/
def Decision.relayable (d : Decision) : Bool :=
  d.transport.isSome && (1024 ≤ d.port ∧ d.port ≤ 65535) && d.handle.isSome

structure Entry where
  (owner forward : ℕ)
  forwardInvite : Option ℕ
  reverse : ℕ
  reverseInvite : Option ℕ

def Entry.sequence (s : Entry) (reverse : Bool) : ℕ := if reverse then s.reverse else s.forward

def Entry.invite (s : Entry) (reverse : Bool) : Option ℕ :=
  if reverse then s.reverseInvite else s.forwardInvite

/-- The entry after a request with this sequence number was let through. -/
def Entry.advance (s : Entry) (method : Method) (reverse : Bool) (sequence : ℕ) : Entry :=
  match reverse, decide (method = .invite) with
  | true, true => { s with reverse := sequence, reverseInvite := some sequence }
  | true, false => { s with reverse := sequence }
  | false, true => { s with forward := sequence, forwardInvite := some sequence }
  | false, false => { s with forward := sequence }

abbrev Key := String × String

/-- Where the handler of an initial INVITE stands, and what became of its dialog. -/
inductive Phase
  | arrived
  | reserved
  | asking
  | decided (d : Decision)
  | issuing (d : Decision)
  | managing (d : Decision)
  | relaying (d : Decision)
  | relayed (d : Decision)
  | unwinding
  | refused
  deriving DecidableEq

/-- An initial INVITE, with the sequence number of the last reliable provisional reply
to it. -/
structure Invite where
  direction : Direction
  key : Key
  sequence : ℕ
  reliableSequence : Option ℕ
  phase : Phase

/-- A relayed request: the dialog that its attributes name. -/
structure Transaction where
  dialog : ℕ
  method : Method
  initial : Bool

inductive ResultState
  | established | ended | failed

def resultState (t : Transaction) (status : ℕ) : Option ResultState :=
  if t.method = .invite ∧ 200 ≤ status ∧ status < 300 then some .established
  else if t.method = .bye ∧ 200 ≤ status ∧ status < 300 then some .ended
  else if t.method = .invite ∧ 300 ≤ status ∧ t.initial then some .failed
  else none

def ResultState.final : ResultState → Bool
  | established => false
  | ended | failed => true

inductive ReplyPhase
  | reporting
  | awaiting
  | finishing
  | releasing
  | handled
  deriving DecidableEq

structure ReplyHandler where
  dialog : ℕ
  state : ResultState
  phase : ReplyPhase

structure World where
  (dialogs pending : ℕ)
  entries : List (Key × Entry)
  granted : List ℕ
  invites : List Invite
  transactions : List Transaction
  replies : List ReplyHandler

/-- What a step is answered with: by the resolver, or by the transaction layer. -/
inductive Answer
  | done
  | decides (d : Decision) (initialRelayGranted : Bool)
  | raises
  deriving DecidableEq

inductive Action
  | invite (direction : Direction) (key : Key) (sequence : ℕ)
  | route (i : ℕ) (answer : Answer)
  | request (dialog : ℕ) (method : Method) (reverse : Bool) (sequence : ℕ)
      (rack : Option (ℕ × ℕ))
  | reply (transaction status : ℕ) (reliable : Option ℕ)
  | result (j : ℕ) (answer : Answer)

def reserve (count maximum : ℕ) : Option ℕ := if maximum ≤ count then none else some (count+1)

def release (count : ℕ) : ℕ := count-1

namespace World

def initial : World := ⟨0,0,[],[],[],[],[]⟩

def enter (w : World) (i : ℕ) (phase : Phase) : World :=
  { w with invites := w.invites.modify i fun c => { c with phase := phase } }

def enterReply (w : World) (j : ℕ) (phase : ReplyPhase) : World :=
  { w with replies := w.replies.modify j fun h => { h with phase := phase } }

/-- A call of the resolver begins, or is refused for want of capacity. -/
def call (e : Edge) (w : World) (i : ℕ) (waiting : Phase) : World :=
  match reserve w.pending e.pendingResolvers with
  | none => w.enter i .unwinding
  | some pending => { w with pending := pending }.enter i waiting

def grant (w : World) (i : ℕ) (d : Decision) (initialRelayGranted : Bool) (next : Phase) : World :=
  if initialRelayGranted = false ∨ d.owner ∈ w.granted then w.enter i .unwinding
  else { w with granted := d.owner::w.granted }.enter i next

/-- The steps of `route` from the reservation on, with its cleanup. -/
def routeStep (e : Edge) (w : World) (i : ℕ) (c : Invite) (answer : Answer) : World :=
  match c.phase, answer with
  | .arrived, _ =>
    match reserve w.dialogs e.dialogs with
    | none => w.enter i .refused
    | some dialogs => { w with dialogs := dialogs }.enter i .reserved
  | .reserved, .raises => w.enter i .unwinding
  | .reserved, _ => w.call e i .asking
  | .asking, .decides d initialRelayGranted =>
    let w := { w with pending := release w.pending }
    match c.direction with
    | .inbound => w.enter i (.decided d)
    | .outbound => w.grant i d initialRelayGranted (.decided d)
  | .asking, _ => { w with pending := release w.pending }.enter i .unwinding
  | .decided d, _ =>
    if e.accepts c.direction d then
      match c.direction with
      | .inbound => if d.handle.isSome then w.call e i (.issuing d) else w.enter i .unwinding
      | .outbound => w.enter i (.managing d)
    else w.enter i .unwinding
  | .issuing d, .decides _ initialRelayGranted =>
    { w with pending := release w.pending }.grant i d initialRelayGranted (.managing d)
  | .issuing _, _ => { w with pending := release w.pending }.enter i .unwinding
  | .managing d, _ =>
    match w.entries.lookup c.key with
    | some _ => w.enter i .unwinding
    | none =>
      { w with
        entries := (c.key,⟨d.owner,c.sequence,some c.sequence,0,none⟩)::w.entries
      }.enter i (.relaying d)
  | .relaying d, answer =>
    if d.relayable ∧ answer ≠ .raises then
      { w with
        transactions := w.transactions++[(⟨i,.invite,true⟩ : Transaction)]
      }.enter i (.relayed d)
    else w.enter i .unwinding
  | .unwinding, _ => { w with dialogs := release w.dialogs }.enter i .refused
  | .relayed _, _ => w
  | .refused, _ => w

/-- Whether a request within a dialog may pass, with the entry and the reliable
sequence number after it. -/
def validateDialogSequence (state : Entry) (reliable : Option ℕ) (method : Method)
    (reverse : Bool) (sequence : ℕ) (rack : Option (ℕ × ℕ)) : Option (Entry × Option ℕ) :=
  match method with
  | .ack => if state.invite reverse = some sequence then some (state,reliable) else none
  | .prack =>
    if sequence ≤ state.sequence reverse then none
    else
      match reliable, state.invite reverse with
      | some number, some invite =>
        if rack = some (number,invite) then some (state.advance method reverse sequence,none)
        else none
      | _, _ => none
  | _ =>
    if sequence ≤ state.sequence reverse then none
    else some (state.advance method reverse sequence,reliable)

def setEntry (entries : List (Key × Entry)) (key : Key) (state : Entry) : List (Key × Entry) :=
  entries.map fun p => if p.1 = key then (key,state) else p

def requestStep (w : World) (dialog : ℕ) (method : Method) (reverse : Bool) (sequence : ℕ)
    (rack : Option (ℕ × ℕ)) : World :=
  match w.invites[dialog]? with
  | some ⟨_,key,_,reliable,.relayed d⟩ =>
    match w.entries.lookup key with
    | none => w
    | some state =>
      if state.owner = d.owner then
        match validateDialogSequence state reliable method reverse sequence rack with
        | none => w
        | some (state,reliable) =>
          { w with
            entries := setEntry w.entries key state
            invites := w.invites.modify dialog fun c => { c with reliableSequence := reliable }
            transactions := w.transactions++[⟨dialog,method,false⟩] }
      else w
  | _ => w

/-- A reply from where it is expected: a reliable provisional one is noted, one that
makes a result is reported. -/
def replyStep (w : World) (transaction status : ℕ) (reliable : Option ℕ) : World :=
  match w.transactions[transaction]? with
  | none => w
  | some t =>
    match resultState t status with
    | some state => { w with replies := w.replies++[⟨t.dialog,state,.reporting⟩] }
    | none =>
      match reliable with
      | some number =>
        if t.method = .invite ∧ 100 < status ∧ status < 200 ∧ 1 ≤ number ∧
            number ≤ 2147483647 then
          { w with
            invites := w.invites.modify t.dialog fun c =>
              if (c.reliableSequence.all fun current => current ≤ number) then
                { c with reliableSequence := some number }
              else c }
        else w
      | none => w

/-- The entry of the dialog is taken out if it is still the dialog's own. -/
def finishDialog (w : World) (j dialog : ℕ) : World :=
  match w.invites[dialog]? with
  | some ⟨_,key,_,_,.relayed d⟩ =>
    match w.entries.lookup key with
    | some state =>
      if state.owner = d.owner then
        { w with entries := w.entries.filter fun p => p.1 ≠ key }.enterReply j .releasing
      else w.enterReply j .handled
    | none => w.enterReply j .handled
  | _ => w.enterReply j .handled

def resultStep (e : Edge) (w : World) (j : ℕ) (h : ReplyHandler) (answer : Answer) : World :=
  match h.phase, answer with
  | .reporting, _ =>
    match reserve w.pending e.pendingResolvers with
    | none => w.enterReply j .handled
    | some pending => { w with pending := pending }.enterReply j .awaiting
  | .awaiting, .raises => { w with pending := release w.pending }.enterReply j .handled
  | .awaiting, _ =>
    { w with pending := release w.pending }.enterReply j
      (if h.state.final then .finishing else .handled)
  | .finishing, _ => w.finishDialog j h.dialog
  | .releasing, _ => { w with dialogs := release w.dialogs }.enterReply j .handled
  | .handled, _ => w

def step (e : Edge) (w : World) : Action → World
  | .invite direction key sequence =>
    { w with invites := w.invites++[⟨direction,key,sequence,none,.arrived⟩] }
  | .route i answer =>
    match w.invites[i]? with
    | some c => w.routeStep e i c answer
    | none => w
  | .request dialog method reverse sequence rack =>
    w.requestStep dialog method reverse sequence rack
  | .reply transaction status reliable => w.replyStep transaction status reliable
  | .result j answer =>
    match w.replies[j]? with
    | some h => w.resultStep e j h answer
    | none => w

end World

end NexusAi.Kamailio
