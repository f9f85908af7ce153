import Mathlib.Data.List.DropRight
import NexusAi.Integrations.Repeats

/-!
# Where an integration's credentials go

The auth profile of an integration adds one header or one query parameter to a request
for the integration's own base URL. The headers go along on every hop of the exchange, and
a redirect may lead a hop to any origin that the destination policy lets through.
-/

namespace NexusAi.Integrations
open NexusAi.Checked

inductive AuthProfileType where
  | none | apiKey | bearerToken | basic | oauth2ClientCredentials | customHeader
  deriving DecidableEq

inductive CredentialType where
  | apiKey | bearerToken | basicAuth | oauth2Client | hmacSecret | providerSecretSet
  deriving DecidableEq

inductive ApiKeyLocation where
  | header | query
  deriving DecidableEq

structure ProfileFields where
  profileType : AuthProfileType
  (credentialRef headerName : Option String)
  apiKeyLocation : ApiKeyLocation
  (queryParamName valuePrefix tokenUrl : Option String)

def ProfileFields.keyed (p : ProfileFields) : Bool :=
  p.profileType = .apiKey ∨ p.profileType = .customHeader

def ProfileFields.coherent (p : ProfileFields) : Bool :=
  (decide (p.profileType = .none) == p.credentialRef.isNone) &&
  (!p.keyed || ((p.apiKeyLocation ≠ .header || p.headerName.isSome) &&
    p.headerName.all (fun name => !reserved name) &&
    (p.apiKeyLocation ≠ .query || p.queryParamName.isSome))) &&
  (p.profileType ≠ .oauth2ClientCredentials || p.tokenUrl.any (· ≠ ""))

structure AuthProfile extends ProfileFields where
  checked : toProfileFields.coherent

structure SecretMaterial where
  credentialType : CredentialType
  fields : List (String × String)

structure PreparedAuth where
  headers : Headers
  queryParams : List (String × String)
  deriving DecidableEq

inductive AuthError where
  | profileInvalid (detail : String)
  | credentialUnavailable (detail : String)
  deriving DecidableEq

def SecretMaterial.field (material : SecretMaterial) (name : String) : Except AuthError String :=
  present (material.fields.lookup name)
    (.credentialUnavailable ("credential has no '"++name++"' field"))

/-- `_EXPECTED_CREDENTIAL` -/
def expectedCredential : AuthProfileType → Option CredentialType
  | .none => none
  | .apiKey | .customHeader => some .apiKey
  | .bearerToken => some .bearerToken
  | .basic => some .basicAuth
  | .oauth2ClientCredentials => some .oauth2Client

def cleanValue (value : String) : Except AuthError String :=
  if brokenLine value then .error (.profileInvalid "a credential value is malformed") else .ok value

def bearer (token : String) : PreparedAuth := ⟨[("Authorization","Bearer "++token)],[]⟩

def apiKeyAuth (profile : ProfileFields) (material : SecretMaterial) :
    Except AuthError PreparedAuth := do
  let key ← cleanValue (← material.field "api_key")
  let value := profile.valuePrefix.getD ""++key
  match profile.apiKeyLocation with
  | .query =>
    let name ← present profile.queryParamName
      (.profileInvalid "query key without a parameter name")
    pure ⟨[],[(name,value)]⟩
  | .header =>
    let name ← present profile.headerName (.profileInvalid "header key without a header name")
    pure ⟨[(name,value)],[]⟩

/-- The vault's answer and the token of the OAuth endpoint, or of the cache, are inputs. -/
def prepare (base64 : String → String) (profile : ProfileFields)
    (vault : Except AuthError SecretMaterial) (accessToken : Except AuthError String) :
    Except AuthError PreparedAuth :=
  if profile.profileType = .none then .ok ⟨[],[]⟩
  else do
    let material ← vault
    require (expectedCredential profile.profileType = some material.credentialType)
      (.credentialUnavailable "the referenced credential is the wrong type for this auth profile")
    match profile.profileType with
    | .bearerToken => return bearer (← cleanValue (← material.field "token"))
    | .basic =>
      let username ← material.field "username"
      let password ← material.field "password"
      pure ⟨[("Authorization","Basic "++base64 (username++":"++password))],[]⟩
    | .oauth2ClientCredentials => return bearer (← cleanValue (← accessToken))
    | _ => apiKeyAuth profile material

def rstrip (path : String) : String :=
  String.ofList (path.toList.rdropWhile fun c => c = '/')

def buildUrl (base : Url) (path : String) (queryPairs : List (String × String)) : Url :=
  { base with
    path := rstrip base.path++(if path.startsWith "/" then path else "/"++path)
    query := queryPairs }

/-- A request for an operation of an integration: its URL was built on the base URL, and no
header of the operation is a reserved one. -/
structure Invocation where
  base : Url
  request : OutboundRequest
  built : request.url = base ∨ ∃ path queryPairs, request.url = buildUrl base path queryPairs
  unreserved : ∀ h ∈ request.headers, reserved h.1 = false

def mergeAuth (outbound : OutboundRequest) (prepared : PreparedAuth) : OutboundRequest :=
  { outbound with
    headers := Headers.merge outbound.headers prepared.headers
    url := { outbound.url with query := outbound.url.query++prepared.queryParams } }

section Prepared

variable {base64 : String → String} {profile : AuthProfile}
variable {vault : Except AuthError SecretMaterial} {accessToken : Except AuthError String}
variable {prepared : PreparedAuth}

theorem apiKeyAuth_headers {profile : ProfileFields} {material : SecretMaterial}
    (h : apiKeyAuth profile material = .ok prepared) : prepared.headers = [] ∨
      ∃ name value, prepared.headers = [(name,value)] ∧ profile.headerName = some name := by
  simp only [apiKeyAuth,bind_ok] at h
  obtain ⟨_,_,_,_,h⟩ := h
  cases hlocation : profile.apiKeyLocation with
  | query =>
    simp only [hlocation,bind_ok,pure_ok] at h
    obtain ⟨_,_,rfl⟩ := h
    exact .inl rfl
  | header =>
    simp only [hlocation,bind_ok,pure_ok,present_ok] at h
    obtain ⟨name,hname,rfl⟩ := h
    exact .inr ⟨name,_,rfl,hname⟩

theorem AuthProfile.open_header (hkeyed : profile.keyed) {name : String}
    (h : profile.headerName = some name) : reserved name = false := by
  have hchecked := profile.checked
  simp only [ProfileFields.coherent,hkeyed,h,Bool.and_eq_true,Bool.not_true,
    Bool.false_or,Option.all_some] at hchecked
  simpa using hchecked.1.2.1.2

theorem prepare_headers
    (h : prepare base64 profile.toProfileFields vault accessToken = .ok prepared) :
    prepared.headers = [] ∨ ∃ name value, prepared.headers = [(name,value)] ∧
      (reserved name = false ∨ name = "Authorization") := by
  unfold prepare at h
  split_ifs at h with hnone
  · cases h
    exact .inl rfl
  · simp only [bind_ok] at h
    obtain ⟨material,_,_,_,h⟩ := h
    have hkey (hkeyed : profile.keyed)
        (h : apiKeyAuth profile.toProfileFields material = .ok prepared) : prepared.headers = [] ∨
          ∃ name value, prepared.headers = [(name,value)] ∧
            (reserved name = false ∨ name = "Authorization") := by
      refine (apiKeyAuth_headers h).imp_right ?_
      rintro ⟨name,value,hheaders,hname⟩
      exact ⟨name,value,hheaders,.inl (AuthProfile.open_header hkeyed hname)⟩
    cases htype : profile.profileType with
    | none => exact absurd htype hnone
    | apiKey | customHeader =>
      exact hkey (by simp [ProfileFields.keyed,htype]) (by simpa [htype] using h)
    | bearerToken | basic | oauth2ClientCredentials =>
      simp only [htype,bind_ok,pure_ok] at h
      obtain ⟨_,_,_,_,rfl⟩ := h
      exact .inr ⟨_,_,rfl,.inr rfl⟩

end Prepared

def PreparedAuth.CarriedBy (prepared : PreparedAuth) (w : Wire) : Prop :=
  (∃ h ∈ prepared.headers, h ∈ w.headers) ∨ ∃ p ∈ prepared.queryParams, p ∈ w.url.query

instance (prepared : PreparedAuth) (w : Wire) : Decidable (prepared.CarriedBy w) :=
  inferInstanceAs (Decidable (_ ∨ _))

/-- What an auth profile added goes to the origin of the base URL only. -/
def Contained (base : Url) (prepared : PreparedAuth) (wires : List Wire) : Prop :=
  ∀ w ∈ wires, w.transmitted → prepared.CarriedBy w → w.url.origin = base.origin

instance (base : Url) (prepared : PreparedAuth) (wires : List Wire) :
    Decidable (Contained base prepared wires) :=
  inferInstanceAs (Decidable (∀ w ∈ wires, _))

section Chains

variable (join : Url → String → Url)

def redirectFrom (url : Url) : HopOutcome → Option Url
  | .response r => if isRedirect r.status then r.target.map (join url) else none
  | _ => none

/-- The URL of a hop, when the redirects of the hops before it lead there. -/
def hopUrl (upstream : ℕ → HopOutcome) : ℕ → ℕ → Url → ℕ → Option Url
  | _, _, url, 0 => some url
  | 0, _, _, _+1 => none
  | left+1, hop, url, n+1 =>
    (redirectFrom join url (upstream hop)).bind fun next => hopUrl upstream left (hop+1) next n

variable {join} {settings : ExecutorSettings} {request : OutboundRequest} {headers : Headers}
variable {upstream : ℕ → HopOutcome}

theorem sendHops_last {left hop : ℕ} {url : Url}
    (h : redirectFrom join url (upstream hop) = none ∨ left = 0) :
    (sendHops join settings request headers upstream left hop url).2 =
      [wireOf request headers url (upstream hop)] := by
  cases hresponse : hopResponse (upstream hop) with
  | error => rw [sendHops_error hresponse]
  | ok response =>
    have houtcome := hopResponse_ok.mp hresponse
    cases hstatus : isRedirect response.status with
    | false => rw [sendHops_answer houtcome hstatus]
    | true =>
      have hstop : response.target = none ∨ left = 0 := by
        refine h.imp_left fun hnone => ?_
        simpa [redirectFrom,houtcome,hstatus] using hnone
      rw [sendHops_refused houtcome hstatus hstop]

theorem sendHops_next {left hop : ℕ} {url next : Url}
    (h : redirectFrom join url (upstream hop) = some next) :
    (sendHops join settings request headers upstream (left+1) hop url).2 =
      wireOf request headers url (upstream hop)::
        (sendHops join settings request headers upstream left (hop+1) next).2 := by
  cases houtcome : upstream hop with
  | response =>
    rw [houtcome,redirectFrom] at h
    split_ifs at h with hstatus
    obtain ⟨_,hlocation,rfl⟩ := Option.map_eq_some_iff.mp h
    rw [sendHops_follow houtcome hstatus hlocation,houtcome]
  | _ =>
    rw [houtcome] at h
    cases h

theorem sendHops_getElem (left n hop : ℕ) (url : Url) :
    (sendHops join settings request headers upstream left hop url).2[n]? =
      (hopUrl join upstream left hop url n).map fun u =>
        wireOf request headers u (upstream (hop+n)) := by
  induction left generalizing n hop url with
  | zero =>
    rw [sendHops_last (.inr rfl)]
    cases n <;> simp [hopUrl]
  | succ _ ih =>
    cases hredirect : redirectFrom join url (upstream hop) with
    | none =>
      rw [sendHops_last (.inl hredirect)]
      cases n <;> simp [hopUrl,hredirect]
    | some =>
      rw [sendHops_next hredirect]
      cases n with
      | zero => simp [hopUrl]
      | succ n =>
        rw [List.getElem?_cons_succ,ih,show hop+1+n = hop+(n+1) by omega]
        simp [hopUrl,hredirect]

theorem mem_sendHops {left : ℕ} {url : Url} {w : Wire} :
    w ∈ (sendHops join settings request headers upstream left 0 url).2 ↔
      ∃ n u, hopUrl join upstream left 0 url n = some u ∧
        wireOf request headers u (upstream n) = w := by
  simp [List.mem_iff_getElem?,sendHops_getElem]

end Chains

section Added

variable {name value : String} {headers : Headers}

theorem mem_set {h : String × String} :
    h ∈ Headers.set name value headers ↔ h = (name,value) ∨ (h ∈ headers ∧ h.1 ≠ name) := by
  unfold Headers.set Table.upsert
  split_ifs with hfind
  · have hnew := Table.find_none hfind
    simp only [List.mem_append,List.mem_singleton]
    constructor
    · rintro (hold | rfl)
      · exact .inr ⟨hold,hnew h hold⟩
      · exact .inl rfl
    · rintro (rfl | ⟨hold,_⟩)
      · exact .inr rfl
      · exact .inl hold
  · obtain ⟨row,hrow⟩ := Option.ne_none_iff_exists'.mp hfind
    have hmem := Table.find_mem hrow
    have hkey := Table.find_key hrow
    rw [Table.mem_edit]
    simp only [List.mem_singleton]
    constructor
    · rintro (⟨_,_,_,rfl⟩ | hold)
      · exact .inl rfl
      · exact .inr hold
    · rintro (rfl | hold)
      · exact .inl ⟨row,hmem,hkey,rfl⟩
      · exact .inr hold

theorem mem_setDefault {h : String × String} (hmem : h ∈ headers) :
    h ∈ Headers.setDefault name value headers := by
  unfold Headers.setDefault
  split_ifs
  · exact hmem
  · exact List.mem_append_left _ hmem

theorem sanitiseHeaders_mem {given : Headers} (h : sanitiseHeaders given = .ok headers)
    {added : String × String} (hmem : added ∈ given) (hopen : reserved added.1 = false) :
    added ∈ headers := by
  simp only [sanitiseHeaders] at h
  split_ifs at h
  cases h
  exact List.mem_filter.mpr ⟨hmem,by simp [hopen]⟩

theorem authorization_lower : "Authorization".toLower = "authorization" := by decide +kernel

theorem host_lower : "Host".toLower = "host" := by decide +kernel

theorem reserved_authorization {name : String} (h : name.toLower = "authorization") :
    reserved name := by
  simp [reserved,h,reservedRequestHeaders]

theorem requestHeaders_mem {settings : ExecutorSettings} {request : OutboundRequest}
    (h : requestHeaders settings request = .ok headers) (hmem : (name,value) ∈ request.headers)
    (hname : reserved name = false ∨ (name = "Authorization" ∧
      ∀ h ∈ request.headers, h.1.toLower = "authorization" → h.2 = value)) :
    (name,value) ∈ headers := by
  simp only [requestHeaders,Checked.bind_ok,Checked.pure_ok] at h
  obtain ⟨clean,hclean,rfl⟩ := h
  apply mem_setDefault
  cases hfound : request.headers.find? fun h => h.1.toLower = "authorization" with
  | some found =>
    have hin : (name,value) ∈ clean.set "Authorization" found.2 := by
      rcases hname with hopen | ⟨rfl,honly⟩
      · have hne : name ≠ "Authorization" := by
          rintro rfl
          rw [reserved_authorization authorization_lower] at hopen
          cases hopen
        exact mem_set.mpr (.inr ⟨sanitiseHeaders_mem hclean hmem hopen,hne⟩)
      · have hlower := List.find?_some hfound
        rw [decide_eq_true_eq] at hlower
        rw [honly found (List.mem_of_find?_eq_some hfound) hlower]
        exact mem_set.mpr (.inl rfl)
    split
    · exact mem_setDefault hin
    · exact hin
  | none =>
    have hin : (name,value) ∈ clean := by
      rcases hname with hopen | ⟨rfl,-⟩
      · exact sanitiseHeaders_mem hclean hmem hopen
      · exact absurd (List.find?_eq_none.mp hfound _ hmem) (by simp [authorization_lower])
    split
    · exact mem_setDefault hin
    · exact hin

end Added

section Prepared

variable {base64 : String → String} {profile : AuthProfile}
variable {vault : Except AuthError SecretMaterial} {accessToken : Except AuthError String}
variable {prepared : PreparedAuth}

theorem Invocation.carried (invocation : Invocation)
    (h : prepare base64 profile.toProfileFields vault accessToken = .ok prepared)
    {settings : ExecutorSettings} {headers : Headers}
    (hheaders : requestHeaders settings (mergeAuth invocation.request prepared) = .ok headers)
    (hadded : prepared.headers ≠ []) (url : Url) (outcome : HopOutcome) :
    prepared.CarriedBy (wireOf (mergeAuth invocation.request prepared) headers url outcome) := by
  rcases prepare_headers h with hnone | ⟨name,value,hone,hname⟩
  · exact absurd hnone hadded
  · have hmerged : (mergeAuth invocation.request prepared).headers =
        Headers.set name value invocation.request.headers := by
      simp [mergeAuth,hone,Headers.merge]
    have honly : ∀ h ∈ (mergeAuth invocation.request prepared).headers,
        h.1.toLower = "authorization" → h.2 = value := by
      intro h hmem hlower
      rw [hmerged,mem_set] at hmem
      rcases hmem with rfl | ⟨hmem,_⟩
      · rfl
      · have hopen := invocation.unreserved h hmem
        rw [reserved_authorization hlower] at hopen
        cases hopen
    have hsent : (name,value) ∈ headers := by
      refine requestHeaders_mem hheaders ?_ (hname.imp_right fun heq => ⟨heq,honly⟩)
      rw [hmerged]
      exact mem_set.mpr (.inl rfl)
    have hhost : name ≠ "Host" := by
      rintro rfl
      simp [reserved,host_lower,reservedRequestHeaders] at hname
    exact .inl ⟨(name,value),by simp [hone],mem_set.mpr (.inr ⟨hsent,hhost⟩)⟩

theorem Invocation.not_carried (invocation : Invocation) {headers : Headers} {url : Url}
    {outcome : HopOutcome} (hheaders : prepared.headers = [])
    (hquery : ∀ p ∈ prepared.queryParams, p ∉ url.query) :
    ¬prepared.CarriedBy (wireOf (mergeAuth invocation.request prepared) headers url outcome) := by
  rintro (⟨h,hmem,_⟩ | ⟨p,hmem,hp⟩)
  · simp [hheaders] at hmem
  · exact hquery p hmem hp

theorem Invocation.origin (invocation : Invocation) (prepared : PreparedAuth) :
    (mergeAuth invocation.request prepared).url.origin = invocation.base.origin := by
  rcases invocation.built with hurl | ⟨_,_,hurl⟩
  · simp [mergeAuth,Url.origin,hurl]
  · simp [mergeAuth,Url.origin,hurl,buildUrl]

/-- The credentials of an exchange stay with the base URL exactly if no hop that the
redirects lead to elsewhere is reached with an added header, or repeats an added parameter in
its URL. -/
theorem Invocation.contained_iff (join : Url → String → Url) (settings : ExecutorSettings)
    (invocation : Invocation) (upstream : ℕ → HopOutcome)
    (h : prepare base64 profile.toProfileFields vault accessToken = .ok prepared) :
    Contained invocation.base prepared
        (send join settings (mergeAuth invocation.request prepared) upstream).2 ↔
      (sendable settings (mergeAuth invocation.request prepared) → ∀ n url,
        hopUrl join upstream settings.maxRedirects 0
          (mergeAuth invocation.request prepared).url (n+1) = some url →
        (upstream (n+1)).transmitted → url.origin ≠ invocation.base.origin →
        prepared.headers = [] ∧ ∀ p ∈ prepared.queryParams, p ∉ url.query) := by
  unfold send sendable
  by_cases hsize : settings.maxRequestBytes <
      ((mergeAuth invocation.request prepared).body.getD []).length
  · simp [hsize,Contained]
  · rw [if_neg hsize]
    cases hheaders : requestHeaders settings (mergeAuth invocation.request prepared) with
    | error => simp [Contained,Except.isOk,Except.toBool]
    | ok headers =>
      simp only [not_lt.mp hsize,Except.isOk,Except.toBool,decide_true,Bool.and_self,
        true_implies]
      constructor
      · intro hkept n url hurl hsent hother
        by_contra hcarried
        refine hother (hkept _ (mem_sendHops.mpr ⟨n+1,url,hurl,rfl⟩) hsent ?_)
        by_cases hadded : prepared.headers = []
        · simp only [hadded,true_and,not_forall,not_not] at hcarried
          obtain ⟨p,hp,hquery⟩ := hcarried
          exact .inr ⟨p,hp,hquery⟩
        · exact invocation.carried h hheaders hadded url _
      · intro hcond w hw hsent hcarried
        obtain ⟨n,url,hurl,rfl⟩ := mem_sendHops.mp hw
        cases n with
        | zero =>
          simp only [hopUrl,Option.some.injEq] at hurl
          rw [← invocation.origin prepared,hurl]
          rfl
        | succ n =>
          by_contra hother
          obtain ⟨hnone,hquery⟩ := hcond n url hurl hsent hother
          exact invocation.not_carried hnone hquery hcarried

end Prepared

def bearerProfile : AuthProfile where
  profileType := .bearerToken
  credentialRef := some "crm_token"
  headerName := none
  apiKeyLocation := .header
  queryParamName := none
  valuePrefix := none
  tokenUrl := none
  checked := by decide

def crmToken : SecretMaterial := ⟨.bearerToken,[("token","s3cret")]⟩

def crmGet : Invocation where
  base := ⟨"https","crm.example",443,"/v1",[]⟩
  request := ⟨"GET",⟨"https","crm.example",443,"/v1",[]⟩,[],none,none⟩
  built := .inl rfl
  unreserved := fun _ h => absurd h List.not_mem_nil

def oneRedirect : ExecutorSettings := ⟨1,1024,1024,"nexus"⟩

/-- An absolute location replaces the URL, a path only its path. -/
def joinLocation (url : Url) (location : String) : Url :=
  if location = "https://elsewhere.example/" then ⟨"https","elsewhere.example",443,"/",[]⟩
  else { url with path := location }

def redirectedTo (location : String) : ℕ → HopOutcome
  | 0 => .response ⟨302,some location,[],.complete []⟩
  | _ => .response ⟨200,none,[],.complete []⟩

theorem redirectedHome_contained :
    prepare id bearerProfile.toProfileFields (.ok crmToken) (.ok "") =
      .ok (bearer "s3cret") ∧
    Contained crmGet.base (bearer "s3cret")
      (send joinLocation oneRedirect (mergeAuth crmGet.request (bearer "s3cret"))
        (redirectedTo "/v2")).2 := by
  have h : prepare id bearerProfile.toProfileFields (.ok crmToken) (.ok "") =
      .ok (bearer "s3cret") := by decide +kernel
  refine ⟨h,?_⟩
  apply (Invocation.contained_iff joinLocation oneRedirect crmGet (redirectedTo "/v2") h).mpr
  intro _ n url hurl _ hother
  cases n with
  | zero =>
    have hhome : hopUrl joinLocation (redirectedTo "/v2") oneRedirect.maxRedirects 0
        (mergeAuth crmGet.request (bearer "s3cret")).url 1 =
        some { crmGet.base with path := "/v2" } := by decide +kernel
    rw [hhome] at hurl
    cases hurl
    exact absurd rfl hother
  | succ => simp [oneRedirect,hopUrl,redirectFrom,redirectedTo,isRedirect] at hurl

/-- A redirect to another host takes the token along. -/
theorem redirectedAway_leaks :
    prepare id bearerProfile.toProfileFields (.ok crmToken) (.ok "") =
      .ok (bearer "s3cret") ∧
    ¬Contained crmGet.base (bearer "s3cret")
      (send joinLocation oneRedirect (mergeAuth crmGet.request (bearer "s3cret"))
        (redirectedTo "https://elsewhere.example/")).2 := by
  decide +kernel

end NexusAi.Integrations
