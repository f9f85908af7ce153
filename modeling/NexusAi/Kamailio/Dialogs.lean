import NexusAi.Lib.Batch
import NexusAi.Kamailio.Edge

/-!
# Entries, dialogs and the replies that end them

An entry is written by the handler of one INVITE and taken out by the handler of one
reply. Relays are granted once, so an owner leads to one INVITE, and a dialog holds its
entry until the first reply that ends it takes the entry out. What is said here
holds as long as every INVITE that has written its entry is relayed and every final
reply is reported.
-/

namespace NexusAi.Kamailio

def Phase.routing : Phase → Bool
  | reserved | asking | decided _ | issuing _ | managing _ | relaying _ | unwinding => true
  | arrived | relayed _ | refused => false

def Phase.entered : Phase → Option Decision
  | relaying d | relayed d => some d
  | _ => none

def Phase.isRelayed : Phase → Bool
  | relayed _ => true
  | _ => false

/-- The route or permit whose relay was granted to the INVITE. -/
def Invite.relay (c : Invite) : Option ℕ :=
  match c.direction, c.phase with
  | .outbound, .decided d => some d.owner
  | _, .managing d => some d.owner
  | _, .relaying d => some d.owner
  | _, .relayed d => some d.owner
  | _, _ => none

def ReplyHandler.over (h : ReplyHandler) : Prop := h.state.final ∧ h.phase = .handled

namespace World

def Holds (w : World) (c : Invite) (d : Decision) : Prop :=
  ∃ s, (c.key,s) ∈ w.entries ∧ s.owner = d.owner

structure Tidy (w : World) : Prop where
  granted : ∀ (i : ℕ) c o, w.invites[i]? = some c → c.relay = some o → o ∈ w.granted
  once : ∀ (i j : ℕ) c d o, w.invites[i]? = some c → w.invites[j]? = some d → c.relay = some o →
    d.relay = some o → i = j
  keys : (w.entries.map Prod.fst).Nodup
  backed : ∀ k s, (k,s) ∈ w.entries → ∃ (i : ℕ) (c : Invite) (d : Decision),
    w.invites[i]? = some c ∧ c.key = k ∧ c.phase.entered = some d ∧ d.owner = s.owner
  held : ∀ (i : ℕ) c d, w.invites[i]? = some c → c.phase = .relaying d → w.Holds c d
  relayed : ∀ (j : ℕ) h, w.replies[j]? = some h → ∃ c d, w.invites[h.dialog]? = some c ∧
    c.phase = .relayed d
  relays : ∀ t ∈ w.transactions, ∃ c d, w.invites[t.dialog]? = some c ∧ c.phase = .relayed d
  final : ∀ (j : ℕ) h, w.replies[j]? = some h → h.phase = .finishing ∨ h.phase = .releasing →
    h.state.final
  live : ∀ (i j : ℕ) c d h, w.invites[i]? = some c → c.phase = .relayed d → w.Holds c d →
    w.replies[j]? = some h → h.dialog = i → h.phase ≠ .releasing ∧ ¬ h.over
  closed : ∀ (i : ℕ) c d, w.invites[i]? = some c → c.phase = .relayed d → ¬ w.Holds c d →
    ∃ (j : ℕ) (h : ReplyHandler), w.replies[j]? = some h ∧ h.dialog = i ∧
      (h.phase = .releasing ∨ h.over)
  single : ∀ (j k : ℕ) g h, w.replies[j]? = some g → w.replies[k]? = some h →
    g.phase = .releasing → h.phase = .releasing → g.dialog = h.dialog → j = k

theorem initial_tidy : Tidy initial := by
  constructor <;> intros <;> simp_all [initial]

theorem relay_entered {c : Invite} {d : Decision} (h : c.phase.entered = some d) :
    c.relay = some d.owner := by
  obtain ⟨direction,_,_,_,phase⟩ := c
  cases phase with
  | relaying | relayed =>
    cases h
    cases direction <;> rfl
  | _ => cases h

variable {entries : List (Key × Entry)}

theorem mem_of_lookup {k : Key} {s : Entry} (h : entries.lookup k = some s) : (k,s) ∈ entries := by
  obtain ⟨_,_,rfl,-⟩ := List.lookup_eq_some_iff.mp h
  simp

theorem not_mem_of_lookup {k : Key} (h : entries.lookup k = none) : k ∉ entries.map Prod.fst := by
  have hne := List.lookup_eq_none_iff.mp h
  simpa using fun s hs => hne (k,s) hs

theorem entry_unique (h : (entries.map Prod.fst).Nodup) {k : Key} {s t : Entry}
    (hs : (k,s) ∈ entries) (ht : (k,t) ∈ entries) : s = t := by
  have heq := List.inj_on_of_nodup_map h hs ht rfl
  exact (Prod.mk.inj heq).2

section Routing

variable {w : World} {i : ℕ} {c : Invite}

/-- The entries and those who have one are the same, apart from sequence numbers, from
INVITEs that go on to be relayed and from those that have just written their entry. -/
structure Similar (w w' : World) : Prop where
  keys : (w'.entries.map Prod.fst).Nodup
  entries : ∀ k s, (k,s) ∈ w'.entries → (∃ s₀, (k,s₀) ∈ w.entries ∧ s₀.owner = s.owner) ∨
    ∃ (j : ℕ) (d : Invite) (e : Decision), w'.invites[j]? = some d ∧ d.key = k ∧
      d.phase.entered = some e ∧ e.owner = s.owner
  after : ∀ (j : ℕ) d e, w.invites[j]? = some d → d.phase.entered = some e →
    ∃ d', w'.invites[j]? = some d' ∧ d'.key = d.key ∧ (d'.phase = d.phase ∨ d'.phase = .relayed e)
  before : ∀ (j : ℕ) d' e, w'.invites[j]? = some d' → d'.phase.entered = some e →
    d'.phase = .relaying e ∧ w'.Holds d' e ∨ ∃ d, w.invites[j]? = some d ∧
      (d.phase = d'.phase ∨ d.phase = .relaying e) ∧ (w'.Holds d' e ↔ w.Holds d e)

theorem Similar.relayed {w' : World} (hsim : Similar w w') {j : ℕ}
    (h : ∃ c d, w.invites[j]? = some c ∧ c.phase = .relayed d) :
    ∃ c d, w'.invites[j]? = some c ∧ c.phase = .relayed d := by
  obtain ⟨c,d,hc,hd⟩ := h
  obtain ⟨c',hc',-,hphase⟩ := hsim.after j c d hc (by rw [hd]; rfl)
  exact ⟨c',d,hc',hphase.elim (fun hsame => hsame.trans hd) id⟩

/-- A relay afterwards was there before, or it is the fresh one of INVITE `i`. -/
theorem Tidy.frame {w' : World} (h : Tidy w) (hsim : Similar w w')
    (hreplies : w'.replies = w.replies)
    (htransactions : ∀ t ∈ w'.transactions, t ∈ w.transactions ∨
      ∃ c d, w'.invites[t.dialog]? = some c ∧ c.phase = .relayed d)
    (hgranted : ∀ o ∈ w.granted, o ∈ w'.granted)
    (hrelay : ∀ (j : ℕ) d' o, w'.invites[j]? = some d' → d'.relay = some o →
      (∃ d, w.invites[j]? = some d ∧ d.relay = some o) ∨
        i = j ∧ o ∉ w.granted ∧ o ∈ w'.granted) : Tidy w' := by
  constructor
  case granted =>
    intro j d o hd ho
    rcases hrelay j d o hd ho with ⟨d₀,hd₀,ho₀⟩ | ⟨-,-,hg⟩
    · exact hgranted o (h.granted j d₀ o hd₀ ho₀)
    · exact hg
  case once =>
    intro j k d e o hd he ho ho'
    rcases hrelay j d o hd ho with ⟨d₀,hd₀,ho₀⟩ | ⟨hij,hfresh,-⟩ <;>
      rcases hrelay k e o he ho' with ⟨e₀,he₀,ho₀'⟩ | ⟨hik,hfresh',-⟩
    · exact h.once j k d₀ e₀ o hd₀ he₀ ho₀ ho₀'
    · exact absurd (h.granted j d₀ o hd₀ ho₀) hfresh'
    · exact absurd (h.granted k e₀ o he₀ ho₀') hfresh
    · rw [← hij,hik]
  case keys => exact hsim.keys
  case backed =>
    intro k s' hs'
    rcases hsim.entries k s' hs' with ⟨s,hs,hso⟩ | hnew
    · obtain ⟨j,d,e,hd,hk,he,ho⟩ := h.backed k s hs
      obtain ⟨d',hd',hkey,hphase⟩ := hsim.after j d e hd he
      refine ⟨j,d',e,hd',hkey.trans hk,?_,ho.trans hso⟩
      rcases hphase with hphase | hphase
      · rw [hphase,he]
      · rw [hphase]
        rfl
    · exact hnew
  case held =>
    intro j d' e hd' he
    rcases hsim.before j d' e hd' (by rw [he]; rfl) with ⟨-,hnew⟩ | ⟨d,hd,hphase,hholds⟩
    · exact hnew
    · exact hholds.mpr (h.held j d e hd (hphase.elim (fun hsame => hsame.trans he) id))
  case relayed =>
    rw [hreplies]
    exact fun j r hr => hsim.relayed (h.relayed j r hr)
  case relays =>
    intro t ht
    rcases htransactions t ht with ht | hrelayed
    · exact hsim.relayed (h.relays t ht)
    · exact hrelayed
  case final =>
    rw [hreplies]
    exact h.final
  case live =>
    intro j k d' e r hd' he hheld hr hrj
    rw [hreplies] at hr
    rcases hsim.before j d' e hd' (by rw [he]; rfl) with ⟨hnew,-⟩ | ⟨d,hd,hphase,hholds⟩
    · exact absurd (he.symm.trans hnew) (by simp)
    · rcases hphase with hphase | hphase
      · exact h.live j k d e r hd (hphase.trans he) (hholds.mp hheld) hr hrj
      · -- nobody answers an INVITE that was not relayed
        obtain ⟨c,f,hc,hf⟩ := h.relayed k r hr
        rw [hrj,hd] at hc
        cases hc
        exact absurd (hphase.symm.trans hf) (by simp)
  case closed =>
    intro j d' e hd' he hheld
    rw [hreplies]
    rcases hsim.before j d' e hd' (by rw [he]; rfl) with ⟨-,hnew⟩ | ⟨d,hd,hphase,hholds⟩
    · exact absurd hnew hheld
    · rcases hphase with hphase | hphase
      · exact h.closed j d e hd (hphase.trans he) fun hold => hheld (hholds.mpr hold)
      · exact absurd (hholds.mpr (h.held j d e hd hphase)) hheld
  case single =>
    rw [hreplies]
    exact h.single

theorem Tidy.of_eq {w' : World} (h : Tidy w) (he : w'.entries = w.entries)
    (hg : w'.granted = w.granted) (hi : w'.invites = w.invites)
    (ht : w'.transactions = w.transactions) (hr : w'.replies = w.replies) : Tidy w' := by
  obtain ⟨_,_,_,granted,_,_,_⟩ := w'
  subst he hg hi ht hr
  exact ⟨h.granted,h.once,h.keys,h.backed,h.held,h.relayed,h.relays,h.final,h.live,h.closed,
    h.single⟩

theorem enter_kept {phase : Phase} (hc : w.invites[i]? = some c) {j : ℕ} {d : Invite}
    (hd : w.invites[j]? = some d) (hne : d ≠ c) : (w.enter i phase).invites[j]? = some d := by
  have hij : i ≠ j := by
    rintro rfl
    exact hne (Option.some.inj (hd.symm.trans hc))
  exact (List.getElem?_modify_ne _ _ hij).trans hd

section

variable (h : Tidy w) (hc : w.invites[i]? = some c)

include h hc

theorem Tidy.moves (hold : c.phase.entered = none) {phase : Phase} (hnew : phase.entered = none)
    {g : List ℕ} (hsub : ∀ o ∈ w.granted, o ∈ g)
    (hrelay : ∀ o, Invite.relay { c with phase := phase } = some o →
      c.relay = some o ∨ o ∉ w.granted ∧ o ∈ g) : Tidy ({ w with granted := g }.enter i phase) := by
  refine h.frame (i := i) ⟨h.keys,fun k s hs => .inl ⟨s,hs,rfl⟩,?_,?_⟩ rfl (fun _ ht => .inl ht)
    hsub ?_
  · intro j d e hd he
    refine ⟨d,enter_kept hc hd ?_,rfl,.inl rfl⟩
    rintro rfl
    exact absurd (hold.symm.trans he) (by simp)
  · intro j d e hd he
    rcases Batch.modified hc hd with ⟨-,rfl⟩ | ⟨-,hd⟩
    · exact absurd (hnew.symm.trans he) (by simp)
    · exact .inr ⟨d,hd,.inl rfl,Iff.rfl⟩
  · intro j d o hd ho
    rcases Batch.modified hc hd with ⟨rfl,rfl⟩ | ⟨-,hd⟩
    · exact (hrelay o ho).imp (fun hrel => ⟨c,hc,hrel⟩) fun hfresh => ⟨rfl,hfresh⟩
    · exact .inl ⟨d,hd,ho⟩

theorem Tidy.enter (hold : c.phase.entered = none) {phase : Phase} (hnew : phase.entered = none)
    (hrelay : ∀ o, Invite.relay { c with phase := phase } = some o → c.relay = some o) :
    Tidy (w.enter i phase) :=
  h.moves hc hold hnew (fun _ ho => ho) fun o ho => .inl (hrelay o ho)

theorem Tidy.writes {d : Decision} (hphase : c.phase = .managing d)
    (hfree : w.entries.lookup c.key = none) {s : Entry} (hs : s.owner = d.owner) :
    Tidy ({ w with entries := (c.key,s)::w.entries }.enter i (.relaying d)) := by
  have hrelay : c.relay = some d.owner := by
    obtain ⟨direction,_,_,_,phase⟩ := c
    cases hphase
    cases direction <;> rfl
  refine h.frame (i := i) ⟨List.nodup_cons.mpr ⟨not_mem_of_lookup hfree,h.keys⟩,?_,?_,?_⟩ rfl
    (fun _ ht => .inl ht) (fun _ ho => ho) ?_
  · intro k t ht
    rcases List.mem_cons.mp ht with heq | ht
    · cases heq
      exact .inr ⟨i,{ c with phase := .relaying d },d,by simp [World.enter,hc],rfl,rfl,hs.symm⟩
    · exact .inl ⟨t,ht,rfl⟩
  · intro j e f he hf
    refine ⟨e,enter_kept hc he ?_,rfl,.inl rfl⟩
    rintro rfl
    rw [hphase] at hf
    cases hf
  · intro j e f he hf
    rcases Batch.modified hc he with ⟨-,rfl⟩ | ⟨hij,he⟩
    · cases hf
      exact .inl ⟨rfl,s,List.mem_cons_self,hs⟩
    · refine .inr ⟨e,he,.inl rfl,?_,?_⟩
      · -- a new entry is nobody else's
        rintro ⟨t,ht,hto⟩
        rcases List.mem_cons.mp ht with heq | ht
        · rw [(Prod.mk.inj heq).2,hs] at hto
          exact absurd (h.once i j c e d.owner hc he hrelay (by rw [relay_entered hf,hto])) hij
        · exact ⟨t,ht,hto⟩
      · rintro ⟨t,ht,hto⟩
        exact ⟨t,List.mem_cons_of_mem _ ht,hto⟩
  · intro j e o he ho
    rcases Batch.modified hc he with ⟨rfl,rfl⟩ | ⟨-,he⟩
    · rw [relay_entered (d := d) rfl] at ho
      exact .inl ⟨c,hc,hrelay.trans ho⟩
    · exact .inl ⟨e,he,ho⟩

theorem Tidy.begins {d : Decision} (hphase : c.phase = .relaying d) : Tidy ({ w with
      transactions := w.transactions++[(⟨i,.invite,true⟩ : Transaction)]
    }.enter i (.relayed d)) := by
  have now : (w.enter i (.relayed d)).invites[i]? = some { c with phase := .relayed d } := by
    simp [World.enter,hc]
  refine h.frame (i := i) ⟨h.keys,fun k s hs => .inl ⟨s,hs,rfl⟩,?_,?_⟩ rfl ?_ (fun _ ho => ho) ?_
  · intro j e f he hf
    by_cases hij : i = j
    · subst hij
      rw [hc] at he
      cases he
      rw [hphase] at hf
      cases hf
      exact ⟨_,now,rfl,.inr rfl⟩
    · exact ⟨e,(List.getElem?_modify_ne _ _ hij).trans he,rfl,.inl rfl⟩
  · intro j e f he hf
    rcases Batch.modified hc he with ⟨rfl,rfl⟩ | ⟨-,he⟩
    · cases hf
      exact .inr ⟨c,hc,.inr hphase,Iff.rfl⟩
    · exact .inr ⟨e,he,.inl rfl,Iff.rfl⟩
  · intro t ht
    rcases List.mem_append.mp ht with ht | ht
    · exact .inl ht
    · rw [List.mem_singleton.mp ht]
      exact .inr ⟨_,d,now,rfl⟩
  · intro j e o he ho
    rcases Batch.modified hc he with ⟨rfl,rfl⟩ | ⟨-,he⟩
    · rw [relay_entered (d := d) rfl] at ho
      exact .inl ⟨c,hc,(relay_entered (by rw [hphase]; rfl)).trans ho⟩
    · exact .inl ⟨e,he,ho⟩

end

theorem Tidy.arrives (h : Tidy w) (hphase : c.phase = .arrived) :
    Tidy { w with invites := w.invites++[c] } := by
  have hrelay : c.relay = none := by
    obtain ⟨direction,_,_,_,_⟩ := c
    cases hphase
    cases direction <;> rfl
  have before {j : ℕ} {d : Invite} {o : ℕ} (hd : (w.invites++[c])[j]? = some d)
      (ho : d.relay = some o) : w.invites[j]? = some d := by
    rcases Batch.concat_cases hd with ⟨-,rfl⟩ | hd
    · rw [hrelay] at ho
      cases ho
    · exact hd
  refine h.frame (i := 0) ⟨h.keys,fun k s hs => .inl ⟨s,hs,rfl⟩,?_,?_⟩ rfl (fun _ ht => .inl ht)
    (fun _ ho => ho) fun j d o hd ho => .inl ⟨d,before hd ho,ho⟩
  · intro j d e hd _
    have hlt := (List.getElem?_eq_some_iff.mp hd).1
    exact ⟨d,by rw [List.getElem?_append_left hlt,hd],rfl,.inl rfl⟩
  · intro j d e hd he
    exact .inr ⟨d,before hd (relay_entered he),.inl rfl,Iff.rfl⟩

end Routing

end World
end NexusAi.Kamailio
