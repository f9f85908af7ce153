import NexusAi.Integrations.Destination

/-!
# What a resolved destination obeys

Every address of a resolved destination is public, also as what it embeds. The
networks of the rule are compared with the address itself only, and the hosts of
the rule with names only, so a mapped address and a literal host escape them.
-/

namespace NexusAi.Integrations
open NexusAi.Checked

namespace DestinationPolicy

variable {policy : DestinationPolicy} {lib : StandardLibrary} {rule : DestinationRule}

/-- Every address, and what it embeds, is public and outside of the networks of the rule, and
the host is none of the rule's. -/
def Obeyed (lib : StandardLibrary) (rule : DestinationRule) (d : ResolvedDestination) : Prop :=
  (∀ text ∈ d.addresses, ∀ a, lib.ipAddress text = some a → ∀ b ∈ a.forms,
    lib.forbidden b = false ∧
      ∀ cidr ∈ rule.blockedCidrs, ∀ n, lib.ipNetwork cidr = some n → n.contains b = false) ∧
  ∀ blocked ∈ rule.blockedHosts, lib.under d.host blocked = false

/-- The address embeds none that lies in a network of the rule. -/
def clear (lib : StandardLibrary) (rule : DestinationRule) (text : String) : Bool :=
  ((lib.ipAddress text).bind IpAddress.ipv4Mapped).all fun m =>
    rule.blockedCidrs.all fun cidr => (lib.ipNetwork cidr).all fun n => !n.contains (.v4 m)

/-- A literal address is no host of the rule, and neither it nor an address of the answer
embeds one in a network of the rule. -/
def unmatched (policy : DestinationPolicy) (lib : StandardLibrary) (raw : String)
    (rule : DestinationRule) : Bool :=
  (lib.urlsplit (lib.strip raw)).all fun parts =>
    let host := parts.hostname.getD ""
    if (lib.isIpLiteral host).isSome then
      (rule.blockedHosts.all fun blocked => !lib.under host blocked) &&
        clear lib rule (stripBrackets host)
    else ((policy.resolver host (portOf lib parts)).getD []).all (clear lib rule)

theorem clear_iff {text : String} : clear lib rule text ↔
    ∀ a m, lib.ipAddress text = some a → a.ipv4Mapped = some m → ∀ cidr ∈ rule.blockedCidrs,
      ∀ n, lib.ipNetwork cidr = some n → n.contains (.v4 m) = false := by
  unfold clear
  rw [Option.all_eq_true]
  constructor
  · intro h a m ha hm cidr hcidr n hn
    have hone := List.all_eq_true.mp (h m (by simp [ha,hm])) cidr hcidr
    simpa [hn] using hone
  · intro h m hm
    obtain ⟨a,ha,hm⟩ := Option.bind_eq_some_iff.mp hm
    refine List.all_eq_true.mpr fun cidr hcidr => (Option.all_eq_true _ _).mpr fun n hn => ?_
    simp [h a m ha hm cidr hcidr n hn]

theorem text_iff {text : String} {u : Unit}
    (hpublic : ∀ a, lib.ipAddress text = some a → ∀ b ∈ a.forms, lib.forbidden b = false)
    (hcidrs : lib.applyRuleCidrs text rule = .ok u) :
    (∀ a, lib.ipAddress text = some a → ∀ b ∈ a.forms, lib.forbidden b = false ∧
      ∀ cidr ∈ rule.blockedCidrs, ∀ n, lib.ipNetwork cidr = some n → n.contains b = false) ↔
    clear lib rule text := by
  rw [clear_iff]
  constructor
  · intro h a m ha hm
    exact (h a ha (.v4 m) (by simp [IpAddress.forms,hm])).2
  · intro h a ha b hb
    refine ⟨hpublic a ha b hb,?_⟩
    rcases List.mem_cons.mp hb with rfl | hb
    · exact StandardLibrary.applyRuleCidrs_ok hcidrs ha
    · obtain ⟨m,hm,rfl⟩ := Option.map_eq_some_iff.mp (Option.mem_toList.mp hb)
      exact h a m ha hm

theorem checkAddress_ok {text : String} (h : policy.checkAddress lib rule text = .ok ()) :
    policy.ipReason lib text = none ∧ lib.applyRuleCidrs text rule = .ok () := by
  unfold checkAddress at h
  split at h
  · cases h
  · next hreason => exact ⟨hreason,h⟩

/-- What is returned obeys the policy and the rule exactly when no literal host is one of the
rule's and no address embeds one in a network of the rule. -/
theorem resolve_obeyed_iff (policy : DestinationPolicy) (lib : StandardLibrary) (raw : String)
    (rule : DestinationRule) (d : ResolvedDestination) (hstrict : policy.allowLoopback = false)
    (h : policy.resolve lib raw rule = .ok d) :
    Obeyed lib rule d ↔ policy.unmatched lib raw rule := by
  simp only [resolve,bind_ok] at h
  obtain ⟨v,hv,h⟩ := h
  obtain ⟨_,hparts,hhost,hport,hchecked⟩ := validateUrl_ok hv
  have hunmatched : policy.unmatched lib raw rule = if (lib.isIpLiteral v.host).isSome then
      (rule.blockedHosts.all fun blocked => !lib.under v.host blocked) &&
        clear lib rule (stripBrackets v.host)
    else ((policy.resolver v.host v.port).getD []).all (clear lib rule) := by
    simp [unmatched,hparts,hhost,hport]
  rw [hunmatched]
  cases hliteral : v.isLiteralIp with
  | true =>
    rw [hliteral] at hchecked
    obtain ⟨literal,hsome,hreason⟩ := checkHost_literal hchecked
    simp only [hliteral,if_true,bind_ok,pure_ok] at h
    obtain ⟨u,hcidrs,rfl⟩ := h
    -- the literal was classified before its brackets were taken off
    obtain ⟨a,ha,hforms⟩ := StandardLibrary.forms_of_blockedIpReason
      ((ipReason_strict hstrict literal).symm.trans hreason)
    have hstripped := (StandardLibrary.isIpLiteral_some hsome).2
    have hpublic : ∀ b, lib.ipAddress (stripBrackets v.host) = some b → ∀ c ∈ b.forms,
        lib.forbidden c = false := by
      intro b hb
      rw [hstripped] at hb
      rw [lib.ipAddress_stripped literal a b ha hb]
      exact hforms
    rw [hsome,Option.isSome_some,if_pos rfl,Bool.and_eq_true,← text_iff hpublic hcidrs,
      and_comm]
    unfold Obeyed
    simp
  | false =>
    rw [hliteral] at hchecked
    obtain ⟨hname,hhosts⟩ := checkHost_name hchecked
    simp only [hliteral,Bool.false_eq_true,if_false,bind_ok,present_ok,require_ok,
      pure_ok] at h
    obtain ⟨answer,hanswer,-,-,u,heach,rfl⟩ := h
    rw [hname,Option.isSome_none,if_neg (by simp),hanswer,Option.getD_some,List.all_eq_true]
    have htext : ∀ text ∈ answer, (∀ a, lib.ipAddress text = some a → ∀ b ∈ a.forms,
        lib.forbidden b = false ∧ ∀ cidr ∈ rule.blockedCidrs, ∀ n,
          lib.ipNetwork cidr = some n → n.contains b = false) ↔ clear lib rule text := by
      intro text htext
      obtain ⟨hreason,hcidrs⟩ := checkAddress_ok
        (each_ok.mp heach text (List.mem_eraseDups.mpr htext))
      refine text_iff ?_ hcidrs
      intro a ha
      obtain ⟨_,ha',hforms⟩ := StandardLibrary.forms_of_blockedIpReason
        ((ipReason_strict hstrict text).symm.trans hreason)
      obtain rfl := Option.some.inj (ha.symm.trans ha')
      exact hforms
    constructor
    · intro hobeyed text hmem
      exact (htext text hmem).mp (hobeyed.1 text (List.mem_eraseDups.mpr hmem))
    · intro hclear
      refine ⟨?_,hhosts⟩
      intro text hmem
      have hanswered := List.mem_eraseDups.mp hmem
      exact (htext text hanswered).mpr (hclear text hanswered)

end DestinationPolicy

/-- Flags that make private what the registry lists, and the rest public. -/
def sampleFlags (a : IpAddress) : IpFlags :=
  let listed := registeredNetworks.any fun n => n.contains a
  ⟨false,false,false,false,false,listed,!listed⟩

def sampleAddress (text : String) : Option IpAddress :=
  if text = "8.8.8.8" then some (.v4 0x08080808#32)
  else if text = "::ffff:8.8.8.8" then some (.v6 0x0000000000000000ffff08080808#128)
  else none

theorem sampleFlags_mapped (a : IpAddress) (m : BitVec 32) (h : a.ipv4Mapped = some m) :
    sampleFlags a = sampleFlags (.v4 m) := by
  have hlisted : registeredNetworks.any (fun n => n.contains a) = false := by
    refine List.any_eq_false.mpr fun n hn => ?_
    have hnamed : ∀ n ∈ registeredNetworks, n ∈ carrierNat++documentation++nat64 := by decide
    simp [StandardLibrary.mapped_outside h n (hnamed n hn)]
  have hother : registeredNetworks.any (fun n => n.contains (.v4 m)) = false := rfl
  simp only [sampleFlags,hlisted,hother]

theorem sampleFlags_registered (n : IpNetwork) (hn : n ∈ registeredNetworks) (a : IpAddress)
    (h : n.contains a) : (sampleFlags a).isPrivate :=
  List.any_eq_true.mpr ⟨n,hn,h⟩

theorem sampleAddress_stripped (text : String) (a b : IpAddress) (ha : sampleAddress text = some a)
    (hb : sampleAddress (stripBrackets text) = some b) : b = a := by
  have hkept : stripBrackets text = text := by
    unfold sampleAddress at ha
    split_ifs at ha with h₁ h₂
    · rw [h₁]
      decide +kernel
    · rw [h₂]
      decide +kernel
  rw [hkept] at hb
  exact Option.some.inj (hb.symm.trans ha)

def sampleLibrary : StandardLibrary where
  strip := id
  lower := id
  urlsplit := fun url =>
    if url = "https://api.example/" then
      some ⟨"https",none,none,"",some "api.example",some none⟩
    else some ⟨"https",none,none,"",some "8.8.8.8",some none⟩
  ipAddress := sampleAddress
  ipNetwork := fun cidr => if cidr = "8.8.8.0/24" then some (.v4 0x08080800#32 24) else none
  flags := sampleFlags
  flags_mapped := sampleFlags_mapped
  flags_registered := sampleFlags_registered
  ipAddress_stripped := sampleAddress_stripped

def samplePolicy (answer : List String) : DestinationPolicy where
  requireHttps := true
  allowLoopback := false
  resolver := fun _ _ => some answer

/-- A name that resolves to a public address, under a rule that blocks another host. -/
theorem named_obeyed :
    DestinationPolicy.Obeyed sampleLibrary ⟨false,["other.example"],[]⟩
      ⟨"https","api.example",443,["8.8.8.8"]⟩ :=
  (DestinationPolicy.resolve_obeyed_iff (samplePolicy ["8.8.8.8"]) sampleLibrary
    "https://api.example/" ⟨false,["other.example"],[]⟩ ⟨"https","api.example",443,["8.8.8.8"]⟩
    rfl (by decide +kernel)).mpr (by decide +kernel)

/-- A rule that blocks a network lets the mapped form of its addresses through, and one that
blocks a literal host lets that host through. -/
theorem embedded_passes :
    ((samplePolicy ["::ffff:8.8.8.8"]).resolve sampleLibrary "https://api.example/"
        ⟨false,[],["8.8.8.0/24"]⟩ = .ok ⟨"https","api.example",443,["::ffff:8.8.8.8"]⟩ ∧
      ¬DestinationPolicy.Obeyed sampleLibrary ⟨false,[],["8.8.8.0/24"]⟩
        ⟨"https","api.example",443,["::ffff:8.8.8.8"]⟩) ∧
    ((samplePolicy []).resolve sampleLibrary "https://8.8.8.8/" ⟨false,["8.8.8.8"],[]⟩ =
        .ok ⟨"https","8.8.8.8",443,["8.8.8.8"]⟩ ∧
      ¬DestinationPolicy.Obeyed sampleLibrary ⟨false,["8.8.8.8"],[]⟩
        ⟨"https","8.8.8.8",443,["8.8.8.8"]⟩) := by
  refine ⟨⟨by decide +kernel,?_⟩,⟨by decide +kernel,?_⟩⟩
  · intro h
    have hform := h.1 "::ffff:8.8.8.8" (by simp) (.v6 0x0000000000000000ffff08080808#128)
      (by decide +kernel) (.v4 0x08080808#32) (by decide +kernel)
    have hout := hform.2 "8.8.8.0/24" (by simp) (.v4 0x08080800#32 24) (by decide +kernel)
    revert hout
    decide
  · intro h
    have hhost := h.2 "8.8.8.8" (by simp)
    revert hhost
    decide +kernel

end NexusAi.Integrations
