import NexusAi.Lib.Checked
import NexusAi.Lib.Table

/-!
# The governed outbound executor

One exchange sends a request and follows a bounded number of redirects, with one
set of headers for every hop. What the network and the upstreams do on each hop
is an input, together with whether any byte of the request had left by then. The
total time may run out on every hop. A URL is kept in its parts, and how a
location is joined to it belongs to the HTTP library.
-/

namespace NexusAi.Integrations

structure Url where
  (scheme host : String)
  port : ℕ
  path : String
  query : List (String × String)
  deriving DecidableEq

def Url.origin (url : Url) : String × String × ℕ := (url.scheme,url.host,url.port)

abbrev Headers := List (String × String)

namespace Headers

def set (name value : String) (headers : Headers) : Headers :=
  Table.upsert Prod.fst (name,value) (fun _ => (name,value)) headers

def setDefault (name value : String) (headers : Headers) : Headers :=
  if name ∈ headers.map Prod.fst then headers else headers++[(name,value)]

/-- `{**a, **b}` -/
def merge (a b : Headers) : Headers := b.foldl (fun acc h => set h.1 h.2 acc) a

end Headers

def reservedRequestHeaders : List String :=
  ["authorization","proxy-authorization","host","content-length","connection",
    "transfer-encoding","keep-alive","upgrade","te","trailer","cookie","expect"]

def reserved (name : String) : Bool := name.toLower ∈ reservedRequestHeaders

inductive FailureKind where
  | preSend | inFlight | upstream5xx | upstream429 | terminal
  deriving DecidableEq

inductive IntegrationError where
  | connection (detail : String)
  | timeout (detail : String)
  | tls (detail : String)
  | redirectBlocked (detail : String)
  | responseTooLarge (detail : String)
  | destinationBlocked (reason : String)
  | upstream (detail : String)

/-- What leaves the executor: a transport failure with its kind, or another error. -/
inductive SendError where
  | failure (kind : FailureKind) (error : IntegrationError)
  | raised (error : IntegrationError)

structure OutboundRequest where
  method : String
  url : Url
  headers : Headers
  body : Option (List UInt8)
  contentType : Option String

structure RawResponse where
  statusCode : ℕ
  headers : Headers
  body : List UInt8
  finalUrl : Url

inductive BodyOutcome where
  | complete (bytes : List UInt8)
  | dropped
  | cut

structure Response where
  status : ℕ
  location : Option String
  headers : Headers
  body : BodyOutcome

/-- The errors of the network layer that come after a connection was established. -/
inductive NetworkErrorKind where
  | read | write | close

/-- What becomes of one hop. The policy may refuse its target; an error of the transport
may have a text that speaks of TLS. -/
inductive HopOutcome where
  | blocked (reason : String)
  | connectTimeout
  | connectError (tls : Bool)
  | networkError (kind : NetworkErrorKind) (tls sent : Bool)
  | readTimeout
  | httpError (sent : Bool)
  | cut (sent : Bool)
  | response (response : Response)

def HopOutcome.transmitted : HopOutcome → Bool
  | .blocked _ | .connectTimeout | .connectError _ => false
  | .networkError _ _ sent | .httpError sent | .cut sent => sent
  | .readTimeout | .response _ => true

structure Wire where
  method : String
  url : Url
  headers : Headers
  body : Option (List UInt8)
  transmitted : Bool

structure ExecutorSettings where
  (maxRedirects maxRequestBytes maxResponseBytes : ℕ)
  userAgent : String

def isRedirect (status : ℕ) : Bool := status ∈ [301,302,303,307,308]

def brokenLine (text : String) : Bool := text.toList.any fun c => c = '\n' || c = '\r'

def sanitiseHeaders (headers : Headers) : Except IntegrationError Headers :=
  let kept := headers.filter fun h => !reserved h.1
  if kept.any fun h => brokenLine h.2 || brokenLine h.1 then
    .error (.connection "a request header value is malformed")
  else .ok kept

/-- The headers of every hop: those that are not reserved, with the authorization that the
request carries. -/
def requestHeaders (settings : ExecutorSettings) (request : OutboundRequest) :
    Except IntegrationError Headers := do
  let clean ← sanitiseHeaders request.headers
  let authorized :=
    match request.headers.find? fun h => h.1.toLower = "authorization" with
    | some h => clean.set "Authorization" h.2
    | none => clean
  let typed :=
    match request.contentType, request.body with
    | some contentType, some _ => authorized.setDefault "Content-Type" contentType
    | _, _ => authorized
  pure (typed.setDefault "User-Agent" settings.userAgent)

def hostHeader (url : Url) : String :=
  if url.port = 80 ∨ url.port = 443 then url.host else url.host++":"++toString url.port

def readBounded (limit : ℕ) (body : BodyOutcome) : Except SendError (List UInt8) :=
  match body with
  | .complete bytes => if limit < bytes.length then
      .error (.raised (.responseTooLarge "the upstream response exceeds the configured size limit"))
    else .ok bytes
  | .dropped => .error (.failure .inFlight
      (.connection "the upstream connection dropped mid-response"))
  | .cut => .error (.failure .inFlight (.timeout "the outbound request timed out"))

/-- The response of a hop, or the failure that the executor raises for it. -/
def hopResponse : HopOutcome → Except SendError Response
  | .blocked reason => .error (.raised (.destinationBlocked reason))
  | .connectTimeout => .error (.failure .preSend (.timeout "connection timed out"))
  | .connectError tls | .networkError _ tls _ => .error (if tls then
      .failure .terminal (.tls "TLS verification failed")
    else .failure .preSend (.connection "could not connect to the upstream"))
  | .readTimeout => .error (.failure .inFlight (.timeout "the upstream read timed out"))
  | .httpError _ => .error (.failure .inFlight (.connection "the outbound request failed"))
  | .cut _ => .error (.failure .inFlight (.timeout "the outbound request timed out"))
  | .response response => .ok response

theorem hopResponse_ok {outcome : HopOutcome} {response : Response} :
    hopResponse outcome = .ok response ↔ outcome = .response response := by
  cases outcome <;> simp [hopResponse]

/-- Where a response redirects to. An empty location is none. -/
def Response.target (response : Response) : Option String :=
  response.location.filter fun location => location ≠ ""

def answer (settings : ExecutorSettings) (url : Url) (response : Response) :
    Except SendError RawResponse := do
  let bytes ← readBounded settings.maxResponseBytes response.body
  pure ⟨response.status,response.headers.filter fun h => !reserved h.1,bytes,url⟩

def wireOf (request : OutboundRequest) (headers : Headers) (url : Url) (outcome : HopOutcome) :
    Wire :=
  ⟨request.method,url,headers.set "Host" (hostHeader url),request.body,outcome.transmitted⟩

section

variable (join : Url → String → Url)

/-- The hops from one on, with the number of redirects that may still be followed. -/
def sendHops (settings : ExecutorSettings) (request : OutboundRequest) (headers : Headers)
    (upstream : ℕ → HopOutcome) : ℕ → ℕ → Url → Except SendError RawResponse × List Wire
  | left, hop, url =>
    let wire := wireOf request headers url (upstream hop)
    match hopResponse (upstream hop) with
    | .error error => (.error error,[wire])
    | .ok response =>
      if !isRedirect response.status then (answer settings url response,[wire])
      else match response.target, left with
        | some location, left+1 =>
          let rest := sendHops settings request headers upstream left (hop+1) (join url location)
          (rest.1,wire::rest.2)
        | _, _ => (.error (.raised
            (.redirectBlocked "the upstream returned a redirect that is not allowed")),[wire])

section Hops

variable {join} {settings : ExecutorSettings} {request : OutboundRequest} {headers : Headers}
variable {upstream : ℕ → HopOutcome} {hop : ℕ}

theorem sendHops_error {error : SendError} (h : hopResponse (upstream hop) = .error error)
    (left : ℕ) (url : Url) : sendHops join settings request headers upstream left hop url =
      (.error error,[wireOf request headers url (upstream hop)]) := by
  rw [sendHops,h]

variable {response : Response}

theorem sendHops_answer (h : upstream hop = .response response)
    (hstatus : isRedirect response.status = false) (left : ℕ) (url : Url) :
    sendHops join settings request headers upstream left hop url =
      (answer settings url response,[wireOf request headers url (upstream hop)]) := by
  rw [sendHops,h]
  simp [hopResponse,hstatus]

theorem sendHops_follow (h : upstream hop = .response response)
    (hstatus : isRedirect response.status) {location : String}
    (htarget : response.target = some location) (left : ℕ) (url : Url) :
    sendHops join settings request headers upstream (left+1) hop url =
      ((sendHops join settings request headers upstream left (hop+1) (join url location)).1,
        wireOf request headers url (upstream hop)::
          (sendHops join settings request headers upstream left (hop+1) (join url location)).2) := by
  conv_lhs => rw [sendHops]
  simp only [h,hopResponse,hstatus,htarget,Bool.not_true,Bool.false_eq_true,if_false]

theorem sendHops_refused (h : upstream hop = .response response)
    (hstatus : isRedirect response.status) {left : ℕ}
    (hstop : response.target = none ∨ left = 0) (url : Url) :
    sendHops join settings request headers upstream left hop url =
      (.error (.raised (.redirectBlocked "the upstream returned a redirect that is not allowed")),
        [wireOf request headers url (upstream hop)]) := by
  rw [sendHops,h]
  simp only [hopResponse,hstatus,Bool.not_true,Bool.false_eq_true,if_false]
  rcases hstop with hnone | rfl
  · rw [hnone]
  · cases response.target <;> rfl

end Hops

def send (settings : ExecutorSettings) (request : OutboundRequest) (upstream : ℕ → HopOutcome) :
    Except SendError RawResponse × List Wire :=
  if settings.maxRequestBytes < (request.body.getD []).length then
    (.error (.raised (.connection "the request body exceeds the configured limit")),[])
  else match requestHeaders settings request with
    | .error error => (.error (.raised error),[])
    | .ok headers =>
      sendHops join settings request headers upstream settings.maxRedirects 0 request.url

end

end NexusAi.Integrations
