import NexusAi.Kamailio.Dialogs

/-!
# Replies, and what a step of a handler can do

Among the handlers of a dialog the first one that finishes finds the entry and releases
the slot. The others find nothing, or the entry of a later dialog, and leave it alone. Two
steps go wrong: an INVITE that gives up after it has written its entry, and a final reply
that is not finished because its report failed.
-/

namespace NexusAi.Kamailio

namespace World

variable {w : World}

theorem Tidy.notes (h : Tidy w) {i : ℕ} {f : Invite → Invite} (hkey : ∀ c, (f c).key = c.key)
    (hphase : ∀ c, (f c).phase = c.phase) (hdirection : ∀ c, (f c).direction = c.direction) :
    Tidy { w with invites := w.invites.modify i f } := by
  have hrelay (c : Invite) : (f c).relay = c.relay := by
    unfold Invite.relay
    rw [hphase,hdirection]
  refine h.frame (i := i) ⟨h.keys,fun k s hs => .inl ⟨s,hs,rfl⟩,?_,?_⟩ rfl (fun _ ht => .inl ht)
    (fun _ ho => ho) ?_
  · intro j e g he _
    by_cases hij : i = j
    · subst hij
      exact ⟨f e,by simp [he],hkey e,.inl (hphase e)⟩
    · exact ⟨e,by simp [hij,he],rfl,.inl rfl⟩
  · intro j e g he _
    rcases Batch.modify_cases he with ⟨e₀,he₀,-,rfl⟩ | ⟨-,he⟩
    · refine .inr ⟨e₀,he₀,.inl (hphase e₀).symm,?_⟩
      unfold Holds
      rw [hkey]
    · exact .inr ⟨e,he,.inl rfl,Iff.rfl⟩
  · intro j e o he ho
    rcases Batch.modify_cases he with ⟨e₀,he₀,-,rfl⟩ | ⟨-,he⟩
    · exact .inl ⟨e₀,he₀,(hrelay e₀).symm.trans ho⟩
    · exact .inl ⟨e,he,ho⟩

theorem Tidy.renumbered (h : Tidy w) {i : ℕ} {c : Invite} {d : Decision}
    (hc : w.invites[i]? = some c) (hphase : c.phase = .relayed d) {s s' : Entry}
    (hs : (c.key,s) ∈ w.entries) (hs' : s'.owner = s.owner) (method : Method) :
    Tidy { w with
      entries := setEntry w.entries c.key s'
      transactions := w.transactions++[(⟨i,method,false⟩ : Transaction)] } := by
  have hkeys : (setEntry w.entries c.key s').map Prod.fst = w.entries.map Prod.fst := by
    simp only [setEntry,List.map_map]
    apply List.map_congr_left
    intro p _
    by_cases hp : p.1 = c.key
    · simp [hp]
    · simp [hp]
  have owned : ∀ k t, (k,t) ∈ setEntry w.entries c.key s' →
      ∃ t₀, (k,t₀) ∈ w.entries ∧ t₀.owner = t.owner := by
    intro k t ht
    obtain ⟨p,hp,heq⟩ := List.mem_map.mp ht
    by_cases hkey : p.1 = c.key
    · rw [if_pos hkey] at heq
      cases heq
      exact ⟨s,hs,hs'.symm⟩
    · rw [if_neg hkey] at heq
      rw [heq] at hp
      exact ⟨t,hp,rfl⟩
  refine h.frame (i := i) ⟨hkeys ▸ h.keys,fun k t ht => .inl (owned k t ht),
    fun j e f he _ => ⟨e,he,rfl,.inl rfl⟩,?_⟩ rfl ?_ (fun _ ho => ho)
    fun j e o he ho => .inl ⟨e,he,ho⟩
  · intro j e f he _
    refine .inr ⟨e,he,.inl rfl,?_,?_⟩
    · rintro ⟨t,ht,hto⟩
      obtain ⟨t₀,ht₀,hsame⟩ := owned e.key t ht
      exact ⟨t₀,ht₀,hsame.trans hto⟩
    · rintro ⟨t,ht,hto⟩
      by_cases hkey : e.key = c.key
      · rw [hkey] at ht
        have hts := entry_unique h.keys ht hs
        refine ⟨s',List.mem_map.mpr ⟨(e.key,t),hkey ▸ ht,?_⟩,by rw [hs',← hts,hto]⟩
        rw [if_pos hkey,hkey]
      · exact ⟨t,List.mem_map.mpr ⟨(e.key,t),ht,if_neg hkey⟩,hto⟩
  · intro t ht
    rcases List.mem_append.mp ht with ht | ht
    · exact .inl ht
    · rw [List.mem_singleton.mp ht]
      exact .inr ⟨c,d,hc,hphase⟩

theorem Tidy.handles (h : Tidy w) {r : ReplyHandler} (hphase : r.phase = .reporting)
    (hrelayed : ∃ c d, w.invites[r.dialog]? = some c ∧ c.phase = .relayed d) :
    Tidy { w with replies := w.replies++[r] } := by
  have idle : r.phase ≠ .releasing ∧ ¬ r.over := by
    refine ⟨by rw [hphase]; simp,?_⟩
    intro hover
    exact absurd (hphase.symm.trans hover.2) (by simp)
  refine ⟨h.granted,h.once,h.keys,h.backed,h.held,?_,h.relays,?_,?_,?_,?_⟩
  · exact Batch.forall_concat hrelayed h.relayed
  · refine Batch.forall_concat (fun hlate => ?_) h.final
    rw [hphase] at hlate
    rcases hlate with hlate | hlate <;> cases hlate
  · intro i j c d g hc hd hholds hg
    rcases Batch.concat_cases hg with ⟨-,rfl⟩ | hg
    · exact fun _ => idle
    · exact h.live i j c d g hc hd hholds hg
  · intro i c d hc hd hholds
    obtain ⟨j,g,hg,hrest⟩ := h.closed i c d hc hd hholds
    have hlt := (List.getElem?_eq_some_iff.mp hg).1
    exact ⟨j,g,by rw [List.getElem?_append_left hlt,hg],hrest⟩
  · intro j k g g' hg hg' hrel hrel' hsame
    rcases Batch.concat_cases hg with ⟨-,rfl⟩ | hg
    · exact absurd hrel idle.1
    · rcases Batch.concat_cases hg' with ⟨-,rfl⟩ | hg'
      · exact absurd hrel' idle.1
      · exact h.single j k g g' hg hg' hrel hrel' hsame

section Results

variable {j : ℕ} {r : ReplyHandler}

/-- A handler goes on without the entry. One that ends a dialog finds that the dialog
does not hold an entry any more, and one that was releasing has ended it. -/
theorem Tidy.answers (h : Tidy w) (hr : w.replies[j]? = some r) {q : ReplyPhase}
    (hopen : r.phase ≠ .handled) (hq : q ≠ .releasing)
    (hfinal : q = .finishing → r.state.final)
    (hover : r.state.final → q = .handled → ∀ c d, w.invites[r.dialog]? = some c →
      c.phase = .relayed d → ¬ w.Holds c d)
    (hstays : r.phase = .releasing → q = .handled) : Tidy (w.enterReply j q) := by
  refine ⟨h.granted,h.once,h.keys,h.backed,h.held,?_,h.relays,?_,?_,?_,?_⟩
  · exact Batch.forall_modify hr (h.relayed j r hr) h.relayed
  · exact Batch.forall_modify hr (fun hlate => hfinal (hlate.resolve_right hq)) h.final
  · intro i k c d g hc hd hholds hg hgi
    rcases Batch.modified hr hg with ⟨-,rfl⟩ | ⟨-,hg⟩
    · refine ⟨hq,?_⟩
      rintro ⟨hf,hhandled⟩
      exact hover hf hhandled c d (by rw [← hgi] at hc; exact hc) hd hholds
    · exact h.live i k c d g hc hd hholds hg hgi
  · intro i c d hc hd hholds
    obtain ⟨k,g,hg,hgi,hev⟩ := h.closed i c d hc hd hholds
    by_cases hjk : j = k
    · subst hjk
      rw [hr] at hg
      cases hg
      have hrel : r.phase = .releasing := hev.resolve_right fun hdone => hopen hdone.2
      refine ⟨j,{ r with phase := q },by simp [enterReply,hr],hgi,.inr ⟨?_,hstays hrel⟩⟩
      exact h.final j r hr (.inr hrel)
    · refine ⟨k,g,?_,hgi,hev⟩
      simp only [enterReply]
      rw [List.getElem?_modify_ne _ _ hjk,hg]
  · intro k l g g' hg hg' hrel hrel' hsame
    rcases Batch.modified hr hg with ⟨-,rfl⟩ | ⟨-,hg⟩
    · exact absurd hrel hq
    · rcases Batch.modified hr hg' with ⟨-,rfl⟩ | ⟨-,hg'⟩
      · exact absurd hrel' hq
      · exact h.single k l g g' hg hg' hrel hrel' hsame

theorem Tidy.takes (h : Tidy w) (hr : w.replies[j]? = some r) (hphase : r.phase = .finishing)
    {c : Invite} {d : Decision} (hc : w.invites[r.dialog]? = some c) (hd : c.phase = .relayed d)
    {s : Entry} (hs : (c.key,s) ∈ w.entries) (hso : s.owner = d.owner) :
    Tidy ({ w with
      entries := w.entries.filter fun p => p.1 ≠ c.key }.enterReply j .releasing) := by
  have hholds : w.Holds c d := ⟨s,hs,hso⟩
  have gone : ¬ ({ w with entries := w.entries.filter fun p => p.1 ≠ c.key }).Holds c d := by
    rintro ⟨t,ht,-⟩
    have := (List.mem_filter.mp ht).2
    simp at this
  -- nobody else holds the entry of this key
  have others {i : ℕ} {e : Invite} {f : Decision} (he : w.invites[i]? = some e)
      (hf : e.phase.entered = some f) (hi : i ≠ r.dialog) :
      ({ w with entries := w.entries.filter fun p => p.1 ≠ c.key }).Holds e f ↔
        w.Holds e f := by
    constructor
    · rintro ⟨t,ht,hto⟩
      exact ⟨t,(List.mem_filter.mp ht).1,hto⟩
    · rintro ⟨t,ht,hto⟩
      refine ⟨t,List.mem_filter.mpr ⟨ht,?_⟩,hto⟩
      have hkey : e.key ≠ c.key := by
        intro hkey
        rw [hkey] at ht
        have hts := entry_unique h.keys ht hs
        have howner : f.owner = d.owner := by rw [← hto,hts,hso]
        apply hi
        refine h.once i r.dialog e c d.owner he hc ?_ (relay_entered (by rw [hd]; rfl))
        rw [relay_entered hf,howner]
      simpa using hkey
  constructor
  case granted => exact h.granted
  case once => exact h.once
  case keys => exact h.keys.sublist (List.filter_sublist.map Prod.fst)
  case backed =>
    intro k t ht
    exact h.backed k t (List.mem_filter.mp ht).1
  case held =>
    intro i e f he hf
    have hi : i ≠ r.dialog := by
      rintro rfl
      obtain rfl : c = e := Option.some.inj (hc.symm.trans he)
      rw [hd] at hf
      cases hf
    exact (others he (by rw [hf]; rfl) hi).mpr (h.held i e f he hf)
  case relayed => exact Batch.forall_modify hr (h.relayed j r hr) h.relayed
  case relays => exact h.relays
  case final =>
    exact Batch.forall_modify hr (fun _ => h.final j r hr (.inl hphase)) h.final
  case live =>
    intro i k e f g he hf hheld hg hgi
    have hi : i ≠ r.dialog := by
      rintro rfl
      obtain rfl : c = e := Option.some.inj (hc.symm.trans he)
      rw [hd] at hf
      cases hf
      exact gone hheld
    rcases Batch.modified hr hg with ⟨-,rfl⟩ | ⟨-,hg⟩
    · exact absurd hgi.symm hi
    · exact h.live i k e f g he hf ((others he (by rw [hf]; rfl) hi).mp hheld) hg hgi
  case closed =>
    intro i e f he hf hheld
    by_cases hi : i = r.dialog
    · exact ⟨j,{ r with phase := .releasing },by simp [enterReply,hr],hi.symm,.inl rfl⟩
    · obtain ⟨k,g,hg,hgi,hev⟩ := h.closed i e f he hf fun hheld' =>
        hheld ((others he (by rw [hf]; rfl) hi).mpr hheld')
      have hjk : j ≠ k := by
        rintro rfl
        rw [hr] at hg
        cases hg
        exact hi hgi.symm
      refine ⟨k,g,?_,hgi,hev⟩
      simp only [enterReply]
      rw [List.getElem?_modify_ne _ _ hjk,hg]
  case single =>
    intro k l g g' hg hg' hrel hrel' hsame
    -- while the dialog held its entry nobody was releasing its slot
    have none {m : ℕ} {u : ReplyHandler} (hu : w.replies[m]? = some u)
        (hur : u.phase = .releasing) : u.dialog ≠ r.dialog := by
      intro heq
      exact (h.live r.dialog m c d u hc hd hholds hu heq).1 hur
    rcases Batch.modified hr hg with ⟨hk,rfl⟩ | ⟨-,hg⟩
    · rcases Batch.modified hr hg' with ⟨hl,rfl⟩ | ⟨-,hg'⟩
      · rw [hk,hl]
      · exact absurd hsame.symm (none hg' hrel')
    · rcases Batch.modified hr hg' with ⟨-,rfl⟩ | ⟨-,hg'⟩
      · exact absurd hsame (none hg hrel)
      · exact h.single k l g g' hg hg' hrel hrel' hsame

end Results

variable {e : Edge} {w : World}

inductive Routes (w : World) (i : ℕ) (c : Invite) (answer : Answer) : World → Prop
  | stays : Routes w i c answer w
  | refuses (hphase : c.phase = .arrived) : Routes w i c answer (w.enter i .refused)
  | reserves (hphase : c.phase = .arrived) :
      Routes w i c answer ({ w with dialogs := w.dialogs+1 }.enter i .reserved)
  | goes (pending : ℕ) (g : List ℕ) (phase : Phase) (hold : c.phase.routing)
      (hnone : c.phase.entered = none) (hnew : phase.routing)
      (hnone' : phase.entered = none) (hsub : ∀ o ∈ w.granted, o ∈ g)
      (hrelay : ∀ o, Invite.relay { c with phase := phase } = some o →
        c.relay = some o ∨ o ∉ w.granted ∧ o ∈ g) :
      Routes w i c answer ({ w with pending := pending, granted := g }.enter i phase)
  | writes (d : Decision) (s : Entry) (hphase : c.phase = .managing d)
      (hfree : w.entries.lookup c.key = none) (hs : s.owner = d.owner) :
      Routes w i c answer ({ w with entries := (c.key,s)::w.entries }.enter i (.relaying d))
  | begins (d : Decision) (hphase : c.phase = .relaying d) :
      Routes w i c answer ({ w with
        transactions := w.transactions++[(⟨i,.invite,true⟩ : Transaction)]
      }.enter i (.relayed d))
  | strands (d : Decision) (hphase : c.phase = .relaying d)
      (hfails : ¬ (d.relayable ∧ answer ≠ .raises)) :
      Routes w i c answer (w.enter i .unwinding)
  | releases (hphase : c.phase = .unwinding) :
      Routes w i c answer ({ w with dialogs := release w.dialogs }.enter i .refused)

section Route

variable {i : ℕ} {c : Invite} {answer : Answer}

theorem relay_unwinding (c : Invite) : Invite.relay { c with phase := .unwinding } = none := by
  cases hd : c.direction <;> simp [Invite.relay]

theorem routes_unwinding (pending : ℕ) (hold : c.phase.routing)
    (hnone : c.phase.entered = none) :
    Routes w i c answer ({ w with pending := pending }.enter i .unwinding) := by
  refine .goes pending w.granted .unwinding hold hnone rfl rfl (fun _ ho => ho) ?_
  intro o ho
  rw [relay_unwinding] at ho
  cases ho

theorem routes_call {waiting : Phase} (hold : c.phase.routing)
    (hnone : c.phase.entered = none) (hnew : waiting.routing)
    (hnone' : waiting.entered = none)
    (hrelay : ∀ o, Invite.relay { c with phase := waiting } = some o → c.relay = some o) :
    Routes w i c answer (w.call e i waiting) := by
  unfold call reserve
  split_ifs with hfull
  · exact routes_unwinding w.pending hold hnone
  · exact .goes _ w.granted waiting hold hnone hnew hnone' (fun _ ho => ho)
      fun o ho => .inl (hrelay o ho)

theorem routes_grant {pending : ℕ} {d : Decision} {granted : Bool} {next : Phase}
    (hold : c.phase.routing) (hnone : c.phase.entered = none)
    (hnew : next.routing) (hnone' : next.entered = none)
    (hrelay : ∀ o, Invite.relay { c with phase := next } = some o → o = d.owner) :
    Routes w i c answer ({ w with pending := pending }.grant i d granted next) := by
  unfold grant
  split_ifs with hno
  · exact routes_unwinding pending hold hnone
  · rw [not_or] at hno
    refine .goes pending (d.owner::w.granted) next hold hnone hnew hnone'
      (fun o ho => List.mem_cons_of_mem _ ho) ?_
    intro o ho
    rw [hrelay o ho]
    exact .inr ⟨hno.2,List.mem_cons_self⟩

theorem routeStep_routes (e : Edge) (w : World) (i : ℕ) (c : Invite) (answer : Answer) :
    Routes w i c answer (w.routeStep e i c answer) := by
  obtain ⟨direction,key,sequence,reliable,phase⟩ := c
  cases phase with
  | arrived =>
    simp only [routeStep,reserve]
    split_ifs
    · exact .refuses rfl
    · exact .reserves rfl
  | reserved =>
    have hcall : Routes w i ⟨direction,key,sequence,reliable,.reserved⟩ answer
        (w.call e i .asking) := by
      apply routes_call rfl rfl rfl rfl
      intro o ho
      cases direction <;> cases ho
    cases answer with
    | raises => exact routes_unwinding w.pending rfl rfl
    | done | decides => exact hcall
  | asking =>
    cases answer with
    | raises | done => exact routes_unwinding _ rfl rfl
    | decides d granted =>
      cases direction with
      | inbound =>
        refine .goes (release w.pending) w.granted (.decided d) rfl rfl rfl rfl
          (fun _ ho => ho) ?_
        intro o ho
        cases ho
      | outbound =>
        apply routes_grant rfl rfl rfl rfl
        intro o ho
        cases ho
        rfl
  | decided d =>
    cases direction with
    | inbound =>
      simp only [routeStep]
      split_ifs
      · apply routes_call rfl rfl rfl rfl
        intro o ho
        cases ho
      · exact routes_unwinding w.pending rfl rfl
      · exact routes_unwinding w.pending rfl rfl
    | outbound =>
      simp only [routeStep]
      split_ifs
      · refine .goes w.pending w.granted (.managing d) rfl rfl rfl rfl (fun _ ho => ho) ?_
        intro o ho
        exact .inl ho
      · exact routes_unwinding w.pending rfl rfl
  | issuing =>
    cases answer with
    | raises | done => exact routes_unwinding _ rfl rfl
    | decides =>
      apply routes_grant rfl rfl rfl rfl
      intro o ho
      cases direction <;> (cases ho; rfl)
  | managing d =>
    simp only [routeStep]
    split
    · exact routes_unwinding w.pending rfl rfl
    · rename_i hfree
      exact .writes d _ rfl hfree rfl
  | relaying d =>
    simp only [routeStep]
    split_ifs with hrelayed
    · exact .begins d rfl
    · exact .strands d rfl hrelayed
  | unwinding => exact .releases rfl
  | relayed | refused => exact .stays

end Route

inductive Results (e : Edge) (w : World) (j : ℕ) (r : ReplyHandler) (answer : Answer) :
    World → Prop
  | stays : Results e w j r answer w
  | goes (pending : ℕ) (q : ReplyPhase) (hphase : r.phase = .reporting ∨ r.phase = .awaiting)
      (hq : q ≠ .releasing) (hfinal : q = .finishing → r.state.final)
      (hover : q = .handled → r.state.final = false) :
      Results e w j r answer ({ w with pending := pending }.enterReply j q)
  | loses (pending : ℕ) (hfinal : r.state.final)
      (hfails : r.phase = .reporting ∧ e.pendingResolvers ≤ w.pending ∨
        r.phase = .awaiting ∧ answer = .raises) :
      Results e w j r answer ({ w with pending := pending }.enterReply j .handled)
  | takes (c : Invite) (d : Decision) (s : Entry) (hphase : r.phase = .finishing)
      (hc : w.invites[r.dialog]? = some c) (hd : c.phase = .relayed d)
      (hs : (c.key,s) ∈ w.entries) (hso : s.owner = d.owner) :
      Results e w j r answer ({ w with
        entries := w.entries.filter fun p => p.1 ≠ c.key }.enterReply j .releasing)
  | misses (hphase : r.phase = .finishing)
      (hnot : ∀ c d, w.invites[r.dialog]? = some c → c.phase = .relayed d →
        ∀ s, w.entries.lookup c.key = some s → s.owner ≠ d.owner) :
      Results e w j r answer (w.enterReply j .handled)
  | releases (hphase : r.phase = .releasing) :
      Results e w j r answer ({ w with dialogs := release w.dialogs }.enterReply j .handled)

section Result

variable {j : ℕ} {r : ReplyHandler} {answer : Answer}

theorem finishDialog_results (hphase : r.phase = .finishing) :
    Results e w j r answer (w.finishDialog j r.dialog) := by
  unfold finishDialog
  split
  · rename_i direction key sequence reliable d hc
    split
    · rename_i s hs
      split_ifs with howner
      · exact .takes _ d s hphase hc rfl (mem_of_lookup hs) howner
      · refine .misses hphase ?_
        intro c d' hc' hd' s' hs'
        rw [hc] at hc'
        cases hc'
        cases hd'
        rw [hs] at hs'
        cases hs'
        exact howner
    · rename_i hs
      refine .misses hphase ?_
      intro c d' hc' _ s' hs'
      rw [hc] at hc'
      cases hc'
      rw [hs] at hs'
      cases hs'
  · rename_i hnone
    refine .misses hphase ?_
    intro c d' hc' hd'
    obtain ⟨direction,key,sequence,reliable,_⟩ := c
    cases hd'
    exact absurd hc' (hnone direction key sequence reliable d')

theorem results_failed (pending : ℕ)
    (hfails : r.phase = .reporting ∧ e.pendingResolvers ≤ w.pending ∨
      r.phase = .awaiting ∧ answer = .raises) :
    Results e w j r answer ({ w with pending := pending }.enterReply j .handled) := by
  cases hfinal : r.state.final with
  | true => exact .loses pending hfinal hfails
  | false =>
    have hphase : r.phase = .reporting ∨ r.phase = .awaiting := hfails.imp And.left And.left
    exact .goes pending .handled hphase (by simp) (by simp) fun _ => hfinal

theorem resultStep_results (e : Edge) (w : World) (j : ℕ) (r : ReplyHandler) (answer : Answer) :
    Results e w j r answer (w.resultStep e j r answer) := by
  unfold resultStep
  cases hphase : r.phase with
  | reporting =>
    simp only [reserve]
    split_ifs with hfull
    · exact results_failed w.pending (.inl ⟨hphase,hfull⟩)
    · exact .goes _ .awaiting (.inl hphase) (by simp) (by simp) (by simp)
  | awaiting =>
    cases answer with
    | raises => exact results_failed _ (.inr ⟨hphase,rfl⟩)
    | done | decides d granted =>
      dsimp only
      split_ifs with hfinal
      · exact .goes _ .finishing (.inr hphase) (by simp) (fun _ => hfinal) (by simp)
      · rw [Bool.not_eq_true] at hfinal
        exact .goes _ .handled (.inr hphase) (by simp) (by simp) fun _ => hfinal
  | finishing => exact finishDialog_results hphase
  | releasing => exact .releases hphase
  | handled => exact .stays

end Result

end World

end NexusAi.Kamailio
