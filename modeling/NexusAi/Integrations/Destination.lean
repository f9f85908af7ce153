import NexusAi.Lib.Checked

/-!
# The destination policy

A URL is checked by its form and its host, and the addresses that the host resolves to
one by one. How texts are read and how the registries classify an address is the business
of the standard library, of which only this is used: an IPv4-mapped address is classified
as the address it embeds, two blocks of the registry are private, and brackets around a
text do not change what it is read as.
-/

namespace NexusAi.Integrations
open NexusAi.Checked

inductive IpAddress where
  | v4 (bits : BitVec 32)
  | v6 (bits : BitVec 128)
  deriving DecidableEq

def IpAddress.ipv4Mapped : IpAddress → Option (BitVec 32)
  | .v4 _ => none
  | .v6 bits => if bits >>> 32 = 0xffff#128 then some (bits.setWidth 32) else none

def IpAddress.forms (a : IpAddress) : List IpAddress := a::(a.ipv4Mapped.map IpAddress.v4).toList

inductive IpNetwork where
  | v4 (base : BitVec 32) (len : ℕ)
  | v6 (base : BitVec 128) (len : ℕ)
  deriving DecidableEq

/-- Membership, for an address of the version of the network. -/
def IpNetwork.contains : IpNetwork → IpAddress → Bool
  | .v4 base len, .v4 bits => bits >>> (32-len) = base >>> (32-len)
  | .v6 base len, .v6 bits => bits >>> (128-len) = base >>> (128-len)
  | _, _ => false

structure IpFlags where
  (isLoopback isLinkLocal isMulticast isReserved isUnspecified : Bool)
  (isPrivate isGlobal : Bool)

structure UrlParts where
  scheme : String
  (username password : Option String)
  fragment : String
  hostname : Option String
  /-- `none` where reading the port fails -/
  port : Option (Option ℕ)

def stripBrackets (text : String) : String :=
  let bracket := fun c : Char => c = '[' || c = ']'
  String.ofList (((text.toList.dropWhile bracket).reverse.dropWhile bracket).reverse)

/-- Blocks that the registry lists as not globally reachable: local-use translation and the
second documentation block. -/
def registeredNetworks : List IpNetwork :=
  [.v6 0x0064ff9b000100000000000000000000#128 48,.v6 0x3fff0000000000000000000000000000#128 20]

structure StandardLibrary where
  strip : String → String
  lower : String → String
  urlsplit : String → Option UrlParts
  ipAddress : String → Option IpAddress
  ipNetwork : String → Option IpNetwork
  flags : IpAddress → IpFlags
  flags_mapped : ∀ a m, a.ipv4Mapped = some m → flags a = flags (.v4 m)
  flags_registered : ∀ n ∈ registeredNetworks, ∀ a, n.contains a →
    (flags a).isPrivate
  ipAddress_stripped : ∀ text a b, ipAddress text = some a →
    ipAddress (stripBrackets text) = some b → b = a

def extraBlockedNetworks : List (String × IpNetwork) :=
  [("0.0.0.0/8",.v4 0x00000000#32 8),("100.64.0.0/10",.v4 0x64400000#32 10),
    ("192.0.0.0/24",.v4 0xc0000000#32 24),("192.0.2.0/24",.v4 0xc0000200#32 24),
    ("198.18.0.0/15",.v4 0xc6120000#32 15),("198.51.100.0/24",.v4 0xc6336400#32 24),
    ("203.0.113.0/24",.v4 0xcb007100#32 24),("240.0.0.0/4",.v4 0xf0000000#32 4),
    ("255.255.255.255/32",.v4 0xffffffff#32 32),
    ("64:ff9b::/96",.v6 0x0064ff9b000000000000000000000000#128 96),
    ("100::/64",.v6 0x01000000000000000000000000000000#128 64),
    ("2001:db8::/32",.v6 0x20010db8000000000000000000000000#128 32)]

def carrierNat : List IpNetwork := [.v4 0x64400000#32 10]

def documentation : List IpNetwork :=
  [.v4 0xc0000200#32 24,.v4 0xc6336400#32 24,.v4 0xcb007100#32 24,
    .v6 0x20010db8000000000000000000000000#128 32,.v6 0x3fff0000000000000000000000000000#128 20]

def nat64 : List IpNetwork :=
  [.v6 0x0064ff9b000000000000000000000000#128 96,.v6 0x0064ff9b000100000000000000000000#128 48]

/-- Some flag says that the address is not public. -/
def IpFlags.nonPublic (f : IpFlags) : Bool :=
  f.isLoopback || f.isLinkLocal || f.isMulticast || f.isReserved || f.isUnspecified || f.isPrivate

namespace StandardLibrary

variable (lib : StandardLibrary)

/-- What the policy keeps out, whatever the rule says. -/
def forbidden (a : IpAddress) : Bool :=
  (lib.flags a).nonPublic || (carrierNat++documentation++nat64).any fun n => n.contains a

def addressReason (a : IpAddress) : Option String :=
  if (lib.flags a).nonPublic then some "non-public address space"
  else if !(lib.flags a).isGlobal then some "not globally routable"
  else (extraBlockedNetworks.find? fun e => e.2.contains a).map fun e => "blocked range "++e.1

/-- `_blocked_ip_reason` -/
def blockedIpReason (rawIp : String) : Option String :=
  match lib.ipAddress rawIp with
  | none => some "unparseable address"
  | some a =>
    match a.ipv4Mapped with
    | some m => (lib.addressReason (.v4 m)).map fun reason => "IPv4-mapped "++reason
    | none => lib.addressReason a

variable {lib}

theorem named_covered : ∀ n ∈ carrierNat++documentation++nat64,
    n ∈ extraBlockedNetworks.map Prod.snd ∨ n ∈ registeredNetworks := by
  decide

theorem forbidden_of_addressReason {a : IpAddress} (h : lib.addressReason a = none) :
    lib.forbidden a = false := by
  unfold addressReason at h
  split_ifs at h with hflags hglobal
  have hextra := List.find?_eq_none.mp (Option.map_eq_none_iff.mp h)
  have hnot : (lib.flags a).nonPublic = false := Bool.eq_false_of_not_eq_true hflags
  refine Bool.or_eq_false_iff.mpr ⟨hnot,List.any_eq_false.mpr ?_⟩
  intro n hn hin
  rcases named_covered n hn with hcovered | hcovered
  · obtain ⟨e,he,rfl⟩ := List.mem_map.mp hcovered
    exact hextra e he hin
  · have hprivate := lib.flags_registered n hcovered a hin
    simp [IpFlags.nonPublic,hprivate] at hnot

/-- The upper bits of a mapped address tell it from every network that is named. -/
theorem mapped_outside {a : IpAddress} {m : BitVec 32} (h : a.ipv4Mapped = some m) :
    ∀ n ∈ carrierNat++documentation++nat64, n.contains a = false := by
  cases a with
  | v4 => cases h
  | v6 bits =>
    have hupper : bits >>> 32 = 0xffff#128 := by
      by_contra hne
      simp [IpAddress.ipv4Mapped,hne] at h
    have hshift : ∀ k, bits >>> (32+k) = 0xffff#128 >>> k := by
      intro k
      rw [BitVec.shiftRight_add,hupper]
    have h32 := hshift 0
    have h80 := hshift 48
    have h96 := hshift 64
    have h108 := hshift 76
    simp only [Nat.reduceAdd] at h32 h80 h96 h108
    simp only [carrierNat,documentation,nat64,List.cons_append,List.nil_append,
      List.forall_mem_cons,IpNetwork.contains,Nat.reduceSub,h32,h80,h96,h108]
    simp

/-- What passes is a public address, in itself and as what it embeds. -/
theorem forms_of_blockedIpReason {rawIp : String} (h : lib.blockedIpReason rawIp = none) :
    ∃ a, lib.ipAddress rawIp = some a ∧ ∀ b ∈ a.forms, lib.forbidden b = false := by
  unfold blockedIpReason at h
  cases hparse : lib.ipAddress rawIp with
  | none => simp [hparse] at h
  | some a =>
    refine ⟨a,rfl,?_⟩
    cases hmapped : a.ipv4Mapped with
    | none =>
      simp only [hparse,hmapped] at h
      simpa [IpAddress.forms,hmapped] using forbidden_of_addressReason h
    | some m =>
      simp only [hparse,hmapped,Option.map_eq_none_iff] at h
      have hm := forbidden_of_addressReason h
      have ha : lib.forbidden a = false := by
        refine Bool.or_eq_false_iff.mpr ⟨?_,List.any_eq_false.mpr ?_⟩
        · rw [lib.flags_mapped a m hmapped]
          exact (Bool.or_eq_false_iff.mp hm).1
        · intro n hn
          simp [mapped_outside hmapped n hn]
      simp [IpAddress.forms,hmapped,ha,hm]

end StandardLibrary

structure DestinationRule where
  requireHttps : Bool
  (blockedHosts blockedCidrs : List String)

structure DestinationPolicy where
  (requireHttps allowLoopback : Bool)
  /-- `none` where the resolver raises -/
  resolver : String → ℕ → Option (List String)

inductive DestinationError where
  | blocked (detail reason : String)
  | invalidUrl
  deriving DecidableEq

structure ValidatedDestination where
  (scheme host : String)
  port : ℕ
  isLiteralIp : Bool

structure ResolvedDestination where
  (scheme host : String)
  port : ℕ
  addresses : List String
  deriving DecidableEq

def endsWith (text suffix : String) : Bool := suffix.toList.isSuffixOf text.toList

def rstripDots (text : String) : String :=
  String.ofList (text.toList.reverse.dropWhile fun c => c = '.').reverse

def blockedNames : List String := ["localhost","ip6-localhost","ip6-loopback"]

def blockedNameSuffixes : List String :=
  [".localhost",".local",".internal",".intranet",".lan",".home.arpa"]

def validLabel (label : List Char) : Bool :=
  (label.all fun c => c.isAlphanum || c = '-') &&
    (1 ≤ label.length ∧ label.length ≤ 63) &&
    label.head? ≠ some '-' && label.getLast? ≠ some '-'

/-- `_HOSTNAME_RE`, whose end also matches before a last line break. -/
def validHostname (host : String) : Bool :=
  let chars := host.toList
  let line := if chars.getLast? = some '\n' then chars.dropLast else chars
  let name := if line.getLast? = some '.' then line.dropLast else line
  decide (1 ≤ line.length ∧ line.length ≤ 253) && (name.splitOn '.').all validLabel

namespace StandardLibrary

variable (lib : StandardLibrary)

/-- `_is_ip_literal` -/
def isIpLiteral (host : String) : Option String :=
  let chars := host.toList
  let candidate := if chars.head? = some '[' ∧ chars.getLast? = some ']' then
    String.ofList (chars.drop 1).dropLast else host
  (lib.ipAddress candidate).map fun _ => candidate

/-- `_name_is_blocked` -/
def nameIsBlocked (host : String) : Option String :=
  let lowered := rstripDots (lib.lower host)
  if lowered ∈ blockedNames then some "loopback hostname"
  else (blockedNameSuffixes.find? fun suffix => endsWith lowered suffix).map fun suffix =>
    "blocked hostname suffix '"++suffix++"'"

/-- The host is the blocked one or a subdomain of it. -/
def under (host blocked : String) : Bool :=
  let lowered := rstripDots (lib.lower host)
  let b := rstripDots (lib.lower blocked)
  decide (lowered = b) || endsWith lowered ("."++b)

def applyRuleHosts (host : String) (rule : DestinationRule) : Except DestinationError Unit :=
  each (fun blocked => require (lib.under host blocked = false)
    (.blocked "destination host is blocked by the integration policy" "rule_blocked_host"))
    rule.blockedHosts

def applyRuleCidrs (address : String) (rule : DestinationRule) : Except DestinationError Unit :=
  match lib.ipAddress address with
  | none => .ok ()
  | some addr => each (fun cidr => do
      let network ← present (lib.ipNetwork cidr) (.blocked
        ("the integration policy has an invalid CIDR '"++cidr++"'") "rule_invalid_cidr")
      require (network.contains addr = false) (.blocked
        "destination address is blocked by the integration policy" "rule_blocked_cidr"))
    rule.blockedCidrs

end StandardLibrary

namespace DestinationPolicy

variable (policy : DestinationPolicy) (lib : StandardLibrary)

def ipReason (rawIp : String) : Option String :=
  match lib.blockedIpReason rawIp with
  | none => none
  | some reason =>
    if !policy.allowLoopback then some reason
    else match lib.ipAddress (stripBrackets rawIp) with
      | none => some reason
      | some a =>
        if (lib.flags ((a.ipv4Mapped.map IpAddress.v4).getD a)).isLoopback then none
        else some reason

/-- The checks of the host: of a literal address, or of a name. -/
def checkHost (host : String) (rule : DestinationRule) : Except DestinationError Bool :=
  match lib.isIpLiteral host with
  | some literal =>
    match policy.ipReason lib literal with
    | some reason => .error (.blocked ("destination address is blocked: "++reason)
        "blocked_address")
    | none => .ok true
  | none =>
    match lib.nameIsBlocked host with
    | some reason => .error (.blocked ("destination host is blocked: "++reason) "blocked_host")
    | none => do
      require (validHostname host)
        (.blocked "the destination host is not a valid hostname" "invalid_host")
      lib.applyRuleHosts host rule
      pure false

def validateUrl (raw : String) (rule : DestinationRule) :
    Except DestinationError ValidatedDestination := do
  let parts ← present (lib.urlsplit (lib.strip raw)) .invalidUrl
  let scheme := lib.lower parts.scheme
  require (scheme ∈ ["http","https"])
    (.blocked ("scheme '"++parts.scheme++"' is not allowed") "scheme_not_allowed")
  require (parts.username.getD "" = "" ∧ parts.password.getD "" = "")
    (.blocked "credentials in the URL are not allowed" "url_credentials")
  require (parts.fragment = "") (.blocked "a URL fragment is not allowed" "url_fragment")
  let host := parts.hostname.getD ""
  require (host ≠ "") (.blocked "the URL has no host" "no_host")
  let read ← present parts.port (.blocked "invalid port" "invalid_port")
  let port := read.getD (if scheme = "https" then 443 else 80)
  require (1 ≤ port ∧ port ≤ 65535) (.blocked "invalid port" "invalid_port")
  let isLiteralIp ← policy.checkHost lib host rule
  require (¬((policy.requireHttps || rule.requireHttps) ∧ scheme ≠ "https"))
    (.blocked "this environment requires https" "https_required")
  pure ⟨scheme,host,port,isLiteralIp⟩

/-- The checks of one address of the answer. -/
def checkAddress (rule : DestinationRule) (address : String) : Except DestinationError Unit :=
  match policy.ipReason lib address with
  | some reason => .error (.blocked ("destination resolves to a blocked address: "++reason)
      "dns_to_blocked")
  | none => lib.applyRuleCidrs address rule

def resolve (raw : String) (rule : DestinationRule) :
    Except DestinationError ResolvedDestination := do
  let validated ← policy.validateUrl lib raw rule
  if validated.isLiteralIp then
    let literal := stripBrackets validated.host
    lib.applyRuleCidrs literal rule
    pure ⟨validated.scheme,validated.host,validated.port,[literal]⟩
  else
    let answer ← present (policy.resolver validated.host validated.port)
      (.blocked "the destination host could not be resolved" "dns_failure")
    let resolved := answer.eraseDups
    require (resolved ≠ []) (.blocked "the destination host did not resolve" "dns_empty")
    each (policy.checkAddress lib rule) resolved
    pure ⟨validated.scheme,validated.host,validated.port,resolved⟩

end DestinationPolicy

theorem stripBrackets_enclosed (chars : List Char) :
    stripBrackets (String.ofList ('['::chars++[']'])) = stripBrackets (String.ofList chars) := by
  have hfirst : ∀ l : List Char, ('['::l).dropWhile (fun c => c = '[' || c = ']') =
      l.dropWhile fun c => c = '[' || c = ']' := fun l => by simp
  have hlast : ∀ l : List Char, (']'::l).dropWhile (fun c => c = '[' || c = ']') =
      l.dropWhile fun c => c = '[' || c = ']' := fun l => by simp
  simp only [stripBrackets,String.toList_ofList,List.cons_append]
  rw [hfirst,List.dropWhile_append]
  split_ifs with hnone
  · rw [hlast,List.isEmpty_iff.mp hnone]
    rfl
  · rw [List.reverse_append,List.reverse_singleton,List.singleton_append,hlast]

namespace StandardLibrary

variable {lib : StandardLibrary}

theorem isIpLiteral_some {host literal : String} (h : lib.isIpLiteral host = some literal) :
    (∃ a, lib.ipAddress literal = some a) ∧ stripBrackets host = stripBrackets literal := by
  simp only [isIpLiteral,Option.map_eq_some_iff] at h
  obtain ⟨a,ha,rfl⟩ := h
  refine ⟨⟨a,ha⟩,?_⟩
  split_ifs with henclosed
  · obtain ⟨_,hrest⟩ := List.head?_eq_some_iff.mp henclosed.1
    obtain ⟨front,hfront⟩ := List.getLast?_eq_some_iff.mp henclosed.2
    cases front with
    | nil =>
      rw [hfront] at hrest
      cases hrest
    | cons c front =>
      obtain rfl : c = '[' := by
        rw [hfront] at hrest
        exact (List.cons.inj hrest).1
      have hhost : host = String.ofList ('['::front++[']']) := by
        rw [← String.ofList_toList (s := host),hfront]
      rw [hfront,hhost,stripBrackets_enclosed]
      simp
  · rfl

theorem applyRuleHosts_ok {host : String} {rule : DestinationRule} {u : Unit}
    (h : lib.applyRuleHosts host rule = .ok u) :
    ∀ blocked ∈ rule.blockedHosts, lib.under host blocked = false := by
  intro blocked hblocked
  simpa using each_ok.mp h blocked hblocked

theorem applyRuleCidrs_ok {address : String} {rule : DestinationRule} {u : Unit}
    (h : lib.applyRuleCidrs address rule = .ok u) {a : IpAddress}
    (ha : lib.ipAddress address = some a) :
    ∀ cidr ∈ rule.blockedCidrs, ∀ n, lib.ipNetwork cidr = some n → n.contains a = false := by
  intro cidr hcidr n hn
  simp only [applyRuleCidrs,ha] at h
  have hone := each_ok.mp h cidr hcidr
  simp only [bind_ok,present_ok,require_ok,hn,Option.some.injEq,exists_eq_left'] at hone
  exact hone

end StandardLibrary

namespace DestinationPolicy

variable {policy : DestinationPolicy} {lib : StandardLibrary} {rule : DestinationRule}

theorem ipReason_strict (hstrict : policy.allowLoopback = false) (rawIp : String) :
    policy.ipReason lib rawIp = lib.blockedIpReason rawIp := by
  unfold ipReason
  cases lib.blockedIpReason rawIp with
  | none => rfl
  | some => simp [hstrict]

theorem checkHost_literal {host : String} (h : policy.checkHost lib host rule = .ok true) :
    ∃ literal, lib.isIpLiteral host = some literal ∧ policy.ipReason lib literal = none := by
  unfold checkHost at h
  split at h
  · next literal hliteral =>
    refine ⟨literal,hliteral,?_⟩
    split at h
    · cases h
    · assumption
  · split at h
    · cases h
    · simp only [bind_ok,pure_ok] at h
      obtain ⟨-,-,-,-,hfalse⟩ := h
      cases hfalse

theorem checkHost_name {host : String} (h : policy.checkHost lib host rule = .ok false) :
    lib.isIpLiteral host = none ∧
      ∀ blocked ∈ rule.blockedHosts, lib.under host blocked = false := by
  unfold checkHost at h
  split at h
  · split at h <;> cases h
  · next hname =>
    refine ⟨hname,?_⟩
    split at h
    · cases h
    · simp only [bind_ok,pure_ok] at h
      obtain ⟨_,-,_,hhosts,-⟩ := h
      exact StandardLibrary.applyRuleHosts_ok hhosts

/-- The port of a URL, or that of its scheme. -/
def portOf (lib : StandardLibrary) (parts : UrlParts) : ℕ :=
  (parts.port.getD none).getD (if lib.lower parts.scheme = "https" then 443 else 80)

theorem validateUrl_ok {raw : String} {v : ValidatedDestination}
    (h : policy.validateUrl lib raw rule = .ok v) :
    ∃ parts, lib.urlsplit (lib.strip raw) = some parts ∧ v.host = parts.hostname.getD "" ∧
      v.port = portOf lib parts ∧ policy.checkHost lib v.host rule = .ok v.isLiteralIp := by
  simp only [validateUrl,bind_ok,present_ok,pure_ok] at h
  obtain ⟨parts,hparts,-,-,-,-,-,-,-,-,_,hread,-,-,_,hliteral,-,-,rfl⟩ := h
  exact ⟨parts,hparts,rfl,by simp [portOf,hread],hliteral⟩

end DestinationPolicy

end NexusAi.Integrations
