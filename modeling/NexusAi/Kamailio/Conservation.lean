import NexusAi.Lib.Counting
import NexusAi.Kamailio.Steps

/-!
# The slots of the edge

The counter of dialogs is the number of INVITEs that are being routed and of dialogs
that have not ended. A dialog has ended when a final reply for it has been handled and
no handler is still releasing its slot. Every step of an orderly run keeps the counter
right.
-/

namespace NexusAi.Kamailio

namespace World

def ended (w : World) (i : ℕ) : Bool :=
  (w.replies.any fun h => h.dialog = i ∧ h.state.final ∧ h.phase = .handled) &&
    !(w.replies.any fun h => h.dialog = i ∧ h.phase = .releasing)

def routingAt (w : World) (i : ℕ) : Bool := (w.invites[i]?).any fun c => c.phase.routing

def openAt (w : World) (i : ℕ) : Bool :=
  (w.invites[i]?).any fun c => c.phase.isRelayed && !w.ended i

def routing (w : World) : ℕ := Nat.count (fun i => w.routingAt i) w.invites.length

def openDialogs (w : World) : ℕ := Nat.count (fun i => w.openAt i) w.invites.length

def Conserved (w : World) : Prop := w.dialogs = w.routing+w.openDialogs

/-- Every INVITE that has written its entry is relayed, and every reply that ends a
dialog is reported. -/
def orderly (e : Edge) (w : World) : Action → Bool
  | .route i answer =>
    match w.invites[i]? with
    | some c =>
      match c.phase with
      | .relaying d => d.relayable && answer ≠ .raises
      | _ => true
    | none => true
  | .result j answer =>
    match w.replies[j]? with
    | some r => !r.state.final ||
      match r.phase with
      | .reporting => w.pending < e.pendingResolvers
      | .awaiting => answer ≠ .raises
      | _ => true
    | none => true
  | _ => true

def Occupied (w : World) (i : ℕ) : Prop := w.routingAt i ∨ w.openAt i

instance (w : World) : DecidablePred w.Occupied :=
  fun i => inferInstanceAs (Decidable (w.routingAt i ∨ w.openAt i))

variable {w : World}

theorem routing_not_relayed {p : Phase} (h : p.routing) : p.isRelayed = false := by
  cases p with
  | relayed => cases h
  | _ => rfl

theorem conserved_iff : w.Conserved ↔ w.dialogs = Nat.count w.Occupied w.invites.length := by
  unfold Conserved routing openDialogs
  rw [← Counting.count_or]
  · exact Iff.rfl
  · intro k hr ho
    unfold routingAt at hr
    unfold openAt at ho
    cases hc : w.invites[k]? with
    | none =>
      rw [hc] at hr
      cases hr
    | some =>
      rw [hc] at hr ho
      simp only [Option.any_some,Bool.and_eq_true] at hr ho
      rw [routing_not_relayed hr] at ho
      cases ho.1

theorem ended_iff {i : ℕ} : w.ended i ↔
    (∃ (j : ℕ) (h : ReplyHandler), w.replies[j]? = some h ∧ h.dialog = i ∧ h.over) ∧
      ∀ (j : ℕ) h, w.replies[j]? = some h → h.dialog = i → h.phase ≠ .releasing := by
  unfold ended
  rw [Bool.and_eq_true,List.any_eq_true,Bool.not_eq_true',List.any_eq_false]
  apply and_congr
  · constructor
    · rintro ⟨h,hmem,hh⟩
      obtain ⟨j,hj⟩ := List.getElem?_of_mem hmem
      obtain ⟨hi,hover⟩ := of_decide_eq_true hh
      exact ⟨j,h,hj,hi,hover⟩
    · rintro ⟨j,h,hj,hi,hover⟩
      exact ⟨h,List.mem_of_getElem? hj,decide_eq_true ⟨hi,hover⟩⟩
  · constructor
    · intro hnone j h hj hi hrel
      exact hnone h (List.mem_of_getElem? hj) (decide_eq_true ⟨hi,hrel⟩)
    · intro hnone h hmem hh
      obtain ⟨j,hj⟩ := List.getElem?_of_mem hmem
      obtain ⟨hi,hrel⟩ := of_decide_eq_true hh
      exact hnone j h hj hi hrel

theorem occupied_some {i : ℕ} {c : Invite} (hc : w.invites[i]? = some c) :
    w.Occupied i ↔ c.phase.routing ∨ c.phase.isRelayed ∧ w.ended i = false := by
  unfold Occupied routingAt openAt
  rw [hc]
  simp only [Option.any_some,Bool.and_eq_true,Bool.not_eq_true']

theorem occupied_congr {w' : World} {i : ℕ}
    (hc : (w'.invites[i]?).map Invite.phase = (w.invites[i]?).map Invite.phase)
    (hended : w'.ended i = w.ended i) : w'.Occupied i ↔ w.Occupied i := by
  unfold Occupied routingAt openAt
  rw [hended]
  cases h : w.invites[i]? with
  | none =>
    rw [h,Option.map_none,Option.map_eq_none_iff] at hc
    rw [hc]
  | some =>
    rw [h,Option.map_some,Option.map_eq_some_iff] at hc
    obtain ⟨_,hc',hphase⟩ := hc
    rw [hc']
    simp only [Option.any_some,hphase]

/-- The dialog keeps its slot, or takes one, or gives it back. -/
def Counted (w w' : World) (d : ℕ) : Prop :=
  (w'.Occupied d ↔ w.Occupied d) ∧ w'.dialogs = w.dialogs ∨
    ¬ w.Occupied d ∧ w'.Occupied d ∧ w'.dialogs = w.dialogs+1 ∨
    w.Occupied d ∧ ¬ w'.Occupied d ∧ w'.dialogs = release w.dialogs

theorem Conserved.change {w' : World} {d : ℕ} (h : Conserved w)
    (hlength : w'.invites.length = w.invites.length) (hd : d < w.invites.length)
    (hothers : ∀ k, k ≠ d → (w'.Occupied k ↔ w.Occupied k)) (hcase : Counted w w' d) :
    Conserved w' := by
  rw [conserved_iff] at h ⊢
  rw [hlength]
  rcases hcase with ⟨hsame,hn⟩ | ⟨hold,hnew,hn⟩ | ⟨hold,hnew,hn⟩
  · rw [hn,h]
    apply Counting.count_congr
    intro k _
    by_cases hk : k = d
    · rw [hk]
      exact hsame.symm
    · exact (hothers k hk).symm
  · rw [hn,h,Counting.count_lost hd hnew hold hothers]
  · rw [hn,h,Counting.count_lost hd hold hnew fun k hk => (hothers k hk).symm]
    rfl

section Route

variable {i : ℕ} {c : Invite} {answer : Answer}

theorem Conserved.enter {w' : World} {phase : Phase} (h : Conserved w)
    (hc : w.invites[i]? = some c) (hinvites : w'.invites = (w.enter i phase).invites)
    (hreplies : w'.replies = w.replies) (hcase : Counted w w' i) : Conserved w' := by
  refine h.change ?_ (List.getElem?_eq_some_iff.mp hc).1 ?_ hcase
  · rw [hinvites,World.enter,List.length_modify]
  · intro k hk
    apply occupied_congr
    · rw [hinvites,World.enter,List.getElem?_modify_ne _ _ (Ne.symm hk)]
    · unfold ended
      rw [hreplies]

theorem entered_at {w' : World} (phase : Phase) (hc : w.invites[i]? = some c)
    (hinvites : w'.invites = (w.enter i phase).invites) :
    w'.invites[i]? = some { c with phase := phase } := by
  rw [hinvites]
  simp [World.enter,hc]

theorem occupied_routing (hc : w.invites[i]? = some c) (h : c.phase.routing) :
    w.Occupied i :=
  (occupied_some hc).mpr (.inl h)

theorem not_occupied (hc : w.invites[i]? = some c) (h : c.phase = .arrived ∨ c.phase = .refused) :
    ¬ w.Occupied i := by
  rw [occupied_some hc]
  rcases h with h | h <;> rw [h] <;> simp [Phase.routing,Phase.isRelayed]

theorem Tidy.not_ended (h : Tidy w) (hc : w.invites[i]? = some c)
    (hrouting : c.phase.routing) : w.ended i = false := by
  rw [← Bool.not_eq_true,ended_iff]
  rintro ⟨⟨j,r,hr,hri,-⟩,-⟩
  obtain ⟨_,d,hc',hd⟩ := h.relayed j r hr
  rw [hri,hc] at hc'
  cases hc'
  rw [hd] at hrouting
  cases hrouting

theorem Routes.kept (ht : Tidy w) (h : Conserved w) (hc : w.invites[i]? = some c) {w' : World}
    (hroutes : Routes w i c answer w')
    (horderly : ∀ d, c.phase = .relaying d → d.relayable ∧ answer ≠ .raises) :
    Tidy w' ∧ Conserved w' := by
  cases hroutes with
  | stays => exact ⟨ht,h⟩
  | refuses hphase =>
    have hnew := entered_at .refused hc rfl
    refine ⟨ht.enter hc (by rw [hphase]; rfl) rfl ?_,h.enter hc rfl rfl (.inl ⟨?_,rfl⟩)⟩
    · intro o ho
      cases hd : c.direction <;> simp [Invite.relay] at ho
    · exact iff_of_false (not_occupied hnew (.inr rfl)) (not_occupied hc (.inl hphase))
  | reserves hphase =>
    have hnew := entered_at .reserved hc rfl
    refine ⟨?_,h.enter hc rfl rfl (.inr (.inl ⟨?_,?_,rfl⟩))⟩
    · refine (ht.enter hc (by rw [hphase]; rfl) rfl ?_ : Tidy (w.enter i .reserved)).of_eq rfl rfl
        rfl rfl rfl
      intro o ho
      cases hd : c.direction <;> simp [Invite.relay] at ho
    · exact not_occupied hc (.inl hphase)
    · exact occupied_routing hnew rfl
  | goes _ _ phase hold hnone hnew hnone' hsub hrelay =>
    have hafter := entered_at phase hc rfl
    refine ⟨?_,h.enter hc rfl rfl (.inl ⟨?_,rfl⟩)⟩
    · exact (ht.moves hc hnone hnone' hsub hrelay).of_eq rfl rfl rfl rfl rfl
    · exact iff_of_true (occupied_routing hafter hnew) (occupied_routing hc hold)
  | writes d _ hphase hfree hs =>
    have hafter := entered_at (.relaying d) hc rfl
    refine ⟨ht.writes hc hphase hfree hs,h.enter hc rfl rfl (.inl ⟨?_,rfl⟩)⟩
    exact iff_of_true (occupied_routing hafter rfl) (occupied_routing hc (by rw [hphase]; rfl))
  | begins d hphase =>
    have hrouting : c.phase.routing := by
      rw [hphase]
      rfl
    have hafter := entered_at (.relayed d) hc rfl
    refine ⟨ht.begins hc hphase,h.enter hc rfl rfl (.inl ⟨?_,rfl⟩)⟩
    refine iff_of_true ?_ (occupied_routing hc hrouting)
    exact (occupied_some hafter).mpr (.inr ⟨rfl,ht.not_ended hc hrouting⟩)
  | strands d hphase hfails => exact absurd (horderly d hphase) hfails
  | releases hphase =>
    have hnew := entered_at .refused hc rfl
    refine ⟨?_,h.enter hc rfl rfl (.inr (.inr ⟨?_,?_,rfl⟩))⟩
    · refine (ht.enter hc (by rw [hphase]; rfl) rfl ?_ : Tidy (w.enter i .refused)).of_eq rfl rfl
        rfl rfl rfl
      intro o ho
      cases hd : c.direction <;> simp [Invite.relay] at ho
    · exact occupied_routing hc (by rw [hphase]; rfl)
    · exact not_occupied hnew (.inr rfl)

end Route

section Result

variable {e : Edge} {j : ℕ} {r : ReplyHandler} {answer : Answer} {q : ReplyPhase}

theorem ended_enterReply (hr : w.replies[j]? = some r) :
    (w.enterReply j q).ended r.dialog ↔
      ((∃ (m : ℕ) (g : ReplyHandler), m ≠ j ∧ w.replies[m]? = some g ∧ g.dialog = r.dialog ∧
          g.over) ∨ r.state.final ∧ q = .handled) ∧
        (∀ (m : ℕ) g, m ≠ j → w.replies[m]? = some g → g.dialog = r.dialog →
          g.phase ≠ .releasing) ∧ q ≠ .releasing := by
  have here : (w.enterReply j q).replies[j]? = some { r with phase := q } := by
    simp [enterReply,hr]
  have there {m : ℕ} (hm : m ≠ j) : (w.enterReply j q).replies[m]? = w.replies[m]? := by
    simp only [enterReply]
    rw [List.getElem?_modify_ne _ _ (Ne.symm hm)]
  rw [ended_iff]
  apply and_congr
  · constructor
    · rintro ⟨m,g,hg,hd,hover⟩
      by_cases hm : m = j
      · rw [hm,here] at hg
        cases hg
        exact .inr hover
      · rw [there hm] at hg
        exact .inl ⟨m,g,hm,hg,hd,hover⟩
    · rintro (⟨m,g,hm,hg,hd,hover⟩ | hover)
      · exact ⟨m,g,by rw [there hm,hg],hd,hover⟩
      · exact ⟨j,_,here,rfl,hover⟩
  · constructor
    · intro hnone
      refine ⟨?_,hnone j _ here rfl⟩
      intro m g hm hg
      exact hnone m g (by rw [there hm,hg])
    · rintro ⟨hothers,hq⟩ m g hg hd
      by_cases hm : m = j
      · rw [hm,here] at hg
        cases hg
        exact hq
      · rw [there hm] at hg
        exact hothers m g hm hg hd

theorem enterReply_self (hr : w.replies[j]? = some r) : w.enterReply j r.phase = w := by
  have heq : (w.replies.modify j fun h => { h with phase := r.phase }) = w.replies := by
    apply List.ext_getElem?
    intro m
    rw [List.getElem?_modify]
    by_cases hm : j = m
    · rw [← hm,hr]
      simp
    · simp [hm]
  simp only [enterReply,heq]

theorem ended_others (hr : w.replies[j]? = some r) {k : ℕ} (hk : k ≠ r.dialog) :
    (w.enterReply j q).ended k = w.ended k := by
  have same {m : ℕ} {g : ReplyHandler} (hg : g.dialog = k) :
      (w.enterReply j q).replies[m]? = some g ↔ w.replies[m]? = some g := by
    by_cases hm : j = m
    · subst hm
      have hne : g ≠ r ∧ g ≠ { r with phase := q } := by
        constructor <;> rintro rfl <;> exact hk hg.symm
      have hnow : (w.enterReply j q).replies[j]? = some { r with phase := q } := by
        simp [enterReply,hr]
      rw [hnow,hr]
      exact iff_of_false (fun heq => hne.2 (Option.some.inj heq).symm)
        fun heq => hne.1 (Option.some.inj heq).symm
    · simp only [enterReply]
      rw [List.getElem?_modify_ne _ _ hm]
  rw [Bool.eq_iff_iff,ended_iff,ended_iff]
  refine and_congr (exists_congr fun m => exists_congr fun g => and_congr_left fun h => same h.1)
    (forall_congr' fun m => forall_congr' fun g => ?_)
  constructor <;> intro hnone hg hd
  · exact hnone ((same hd).mpr hg) hd
  · exact hnone ((same hd).mp hg) hd

theorem Conserved.enterReply {w' : World} {c : Invite} {d : Decision} (h : Conserved w)
    (hr : w.replies[j]? = some r) (hc : w.invites[r.dialog]? = some c) (hd : c.phase = .relayed d)
    (hinvites : w'.invites = w.invites) (hreplies : w'.replies = (w.enterReply j q).replies)
    (hcase : w'.ended r.dialog = w.ended r.dialog ∧ w'.dialogs = w.dialogs ∨
      w.ended r.dialog = false ∧ w'.ended r.dialog ∧ w'.dialogs = release w.dialogs) :
    Conserved w' := by
  have hc' : w'.invites[r.dialog]? = some c := by rw [hinvites,hc]
  have hrelayed : c.phase.isRelayed ∧ c.phase.routing = false := by
    rw [hd]
    exact ⟨rfl,rfl⟩
  refine h.change (by rw [hinvites]) (List.getElem?_eq_some_iff.mp hc).1 ?_ ?_
  · intro k hk
    apply occupied_congr (by rw [hinvites])
    rw [← ended_others (q := q) hr hk]
    unfold ended
    rw [hreplies]
  · rw [Counted,occupied_some hc,occupied_some hc',hrelayed.1,hrelayed.2]
    rcases hcase with ⟨hsame,hn⟩ | ⟨hold,hnew,hn⟩
    · rw [hsame]
      exact .inl ⟨Iff.rfl,hn⟩
    · rw [hold,hnew]
      exact .inr (.inr ⟨by simp,by simp,hn⟩)

theorem Results.kept (ht : Tidy w) (h : Conserved w) (hr : w.replies[j]? = some r) {w' : World}
    (hresults : Results e w j r answer w')
    (horderly : r.state.final → (r.phase = .reporting → w.pending < e.pendingResolvers) ∧
      (r.phase = .awaiting → answer ≠ .raises)) :
    Tidy w' ∧ Conserved w' := by
  obtain ⟨c,d,hc,hd⟩ := ht.relayed j r hr
  have hself := ended_enterReply (q := r.phase) hr
  rw [enterReply_self hr] at hself
  cases hresults with
  | stays => exact ⟨ht,h⟩
  | goes _ q hphase hq hfinal hover =>
    have hlive : r.phase ≠ .handled ∧ r.phase ≠ .releasing := by
      rcases hphase with hphase | hphase <;> rw [hphase] <;> simp
    refine ⟨?_,h.enterReply (q := q) hr hc hd rfl rfl (.inl ⟨?_,rfl⟩)⟩
    · refine (ht.answers hr hlive.1 hq hfinal ?_ ?_ : Tidy (w.enterReply j q)).of_eq rfl rfl rfl
        rfl rfl
      · intro hf hhandled
        rw [hover hhandled] at hf
        cases hf
      · intro hrel
        exact absurd hrel hlive.2
    · have hnot : ¬ (r.state.final ∧ q = .handled) := by
        rintro ⟨hf,hhandled⟩
        rw [hover hhandled] at hf
        cases hf
      rw [Bool.eq_iff_iff]
      refine (ended_enterReply hr).trans (Iff.trans ?_ hself.symm)
      simp only [hnot,hlive.1,hlive.2,hq,and_false,ne_eq,not_false_eq_true]
  | loses _ hfinal hfails =>
    rcases hfails with ⟨hphase,hfull⟩ | ⟨hphase,hraises⟩
    · exact absurd ((horderly hfinal).1 hphase) (not_lt.mpr hfull)
    · exact absurd hraises ((horderly hfinal).2 hphase)
  | takes _ d' s hphase hc' hd' hs hso =>
    rw [hc] at hc'
    cases hc'
    refine ⟨ht.takes hr hphase hc hd' hs hso,?_⟩
    refine h.enterReply (q := .releasing) hr hc hd rfl rfl (.inl ⟨?_,rfl⟩)
    have hbefore : w.ended r.dialog = false := by
      rw [← Bool.not_eq_true,ended_iff]
      rintro ⟨⟨m,g,hg,hgd,hover⟩,-⟩
      exact (ht.live r.dialog m c d' g hc hd' ⟨s,hs,hso⟩ hg hgd).2 hover
    have hafter : (w.enterReply j .releasing).ended r.dialog = false := by
      rw [← Bool.not_eq_true,ended_enterReply hr]
      rintro ⟨-,-,hne⟩
      exact hne rfl
    exact hafter.trans hbefore.symm
  | misses hphase hnot =>
    have hfinal := ht.final j r hr (.inl hphase)
    have hgone (c' : Invite) (d' : Decision) (hc' : w.invites[r.dialog]? = some c')
        (hd' : c'.phase = .relayed d') : ¬ w.Holds c' d' := by
      rintro ⟨s,hs,hso⟩
      cases hfind : w.entries.lookup c'.key with
      | none => exact not_mem_of_lookup hfind (List.mem_map_of_mem hs)
      | some s' =>
        have hss := entry_unique ht.keys (mem_of_lookup hfind) hs
        exact hnot c' d' hc' hd' s' hfind (by rw [hss,hso])
    refine ⟨?_,h.enterReply (q := .handled) hr hc hd rfl rfl (.inl ⟨?_,rfl⟩)⟩
    · refine ht.answers hr (by rw [hphase]; simp) (by simp) (by simp) (fun _ _ => hgone) ?_
      intro hrel
      rfl
    · -- another handler of the dialog came first
      obtain ⟨m,g,hg,hgd,hev⟩ := ht.closed r.dialog c d hc hd (hgone c d hc hd)
      have hm : m ≠ j := by
        rintro rfl
        rw [hr] at hg
        cases hg
        rcases hev with hrel | hover
        · rw [hphase] at hrel
          cases hrel
        · exact absurd (hphase.symm.trans hover.2) (by simp)
      rw [Bool.eq_iff_iff,ended_enterReply hr,hself,hphase]
      constructor
      · rintro ⟨-,hothers,-⟩
        refine ⟨.inl ⟨m,g,hm,hg,hgd,?_⟩,hothers,by simp⟩
        exact hev.resolve_left (hothers m g hm hg hgd)
      · rintro ⟨-,hothers,-⟩
        exact ⟨.inr ⟨hfinal,rfl⟩,hothers,by simp⟩
  | releases hphase =>
    have hfinal := ht.final j r hr (.inr hphase)
    refine ⟨?_,h.enterReply (q := .handled) hr hc hd rfl rfl (.inr ⟨?_,?_,rfl⟩)⟩
    · refine (ht.answers hr (by rw [hphase]; simp) (by simp) (by simp) ?_ (fun _ => rfl) :
        Tidy (w.enterReply j .handled)).of_eq rfl rfl rfl rfl rfl
      intro _ _ c' d' hc' hd' hholds
      exact (ht.live r.dialog j c' d' r hc' hd' hholds hr rfl).1 hphase
    · rw [← Bool.not_eq_true,hself]
      rintro ⟨-,-,hne⟩
      exact hne hphase
    · have hafter : (w.enterReply j .handled).ended r.dialog := by
        rw [ended_enterReply hr]
        refine ⟨.inr ⟨hfinal,rfl⟩,?_,by simp⟩
        intro m g hm hg hgd hrel
        exact hm (ht.single m j g r hg hr hrel hphase hgd)
      exact hafter

end Result

variable {w : World}

theorem Conserved.same {w' : World} (h : Conserved w)
    (hlength : w'.invites.length = w.invites.length)
    (hphase : ∀ k : ℕ, (w'.invites[k]?).map Invite.phase = (w.invites[k]?).map Invite.phase)
    (hended : ∀ k, w'.ended k = w.ended k) (hdialogs : w'.dialogs = w.dialogs) : Conserved w' := by
  rw [conserved_iff] at h ⊢
  rw [hdialogs,hlength,h]
  apply Counting.count_congr
  intro k _
  exact (occupied_congr (hphase k) (hended k)).symm

theorem replies_kept (ht : Tidy w) (h : Conserved w) {r : ReplyHandler}
    (hphase : r.phase = .reporting)
    (hrelayed : ∃ c d, w.invites[r.dialog]? = some c ∧ c.phase = .relayed d) :
    Tidy { w with replies := w.replies++[r] } ∧ Conserved { w with replies := w.replies++[r] } := by
  refine ⟨ht.handles hphase hrelayed,h.same rfl (fun _ => rfl) ?_ rfl⟩
  intro k
  unfold ended
  rw [List.any_append,List.any_append]
  simp [hphase]

theorem phase_modify {invites : List Invite} {i : ℕ} {f : Invite → Invite}
    (hf : ∀ c, (f c).phase = c.phase) (k : ℕ) :
    ((invites.modify i f)[k]?).map Invite.phase = (invites[k]?).map Invite.phase := by
  rw [List.getElem?_modify]
  cases invites[k]? with
  | none => rfl
  | some =>
    by_cases hik : i = k
    · simp [hik,hf]
    · simp [hik]

theorem validate_owner {s s' : Entry} {reliable reliable' : Option ℕ} {method : Method}
    {reverse : Bool} {sequence : ℕ} {rack : Option (ℕ × ℕ)}
    (h : validateDialogSequence s reliable method reverse sequence rack = some (s',reliable')) :
    s'.owner = s.owner := by
  have hadvance : (s.advance method reverse sequence).owner = s.owner := by
    unfold Entry.advance
    split <;> rfl
  unfold validateDialogSequence at h
  split at h
  · split_ifs at h
    cases h
    rfl
  · split_ifs at h
    split at h
    · split_ifs at h
      cases h
      exact hadvance
    · cases h
  · split_ifs at h
    cases h
    exact hadvance

theorem requestStep_kept (ht : Tidy w) (h : Conserved w) (dialog : ℕ) (method : Method)
    (reverse : Bool) (sequence : ℕ) (rack : Option (ℕ × ℕ)) :
    Tidy (w.requestStep dialog method reverse sequence rack) ∧
      Conserved (w.requestStep dialog method reverse sequence rack) := by
  unfold requestStep
  split
  · rename_i hc
    split
    · exact ⟨ht,h⟩
    · rename_i hs
      split_ifs with howner
      · split
        · exact ⟨ht,h⟩
        · rename_i hvalid
          have hkept := ht.renumbered hc rfl (mem_of_lookup hs) (validate_owner hvalid) method
          refine ⟨hkept.notes (fun _ => rfl) (fun _ => rfl) (fun _ => rfl),?_⟩
          exact h.same (by simp) (phase_modify fun _ => rfl) (fun _ => rfl) rfl
      · exact ⟨ht,h⟩
  · exact ⟨ht,h⟩

theorem replyStep_kept (ht : Tidy w) (h : Conserved w) (transaction status : ℕ)
    (reliable : Option ℕ) :
    Tidy (w.replyStep transaction status reliable) ∧
      Conserved (w.replyStep transaction status reliable) := by
  unfold replyStep
  split
  · exact ⟨ht,h⟩
  · rename_i t htrans
    split
    · exact replies_kept ht h rfl (ht.relays t (List.mem_of_getElem? htrans))
    · split
      · split_ifs
        · refine ⟨ht.notes ?_ ?_ ?_,h.same (by simp) (phase_modify ?_) (fun _ => rfl) rfl⟩
          all_goals
            intro c
            split_ifs <;> rfl
        · exact ⟨ht,h⟩
      · exact ⟨ht,h⟩

theorem step_kept (e : Edge) (w : World) (a : Action) (ha : orderly e w a)
    (h : Tidy w ∧ Conserved w) : Tidy (w.step e a) ∧ Conserved (w.step e a) := by
  cases a with
  | invite =>
    refine ⟨h.1.arrives rfl,?_⟩
    have hc := conserved_iff.mp h.2
    rw [conserved_iff]
    simp only [step,List.length_append,List.length_singleton]
    rw [Nat.count_succ,if_neg (not_occupied List.getElem?_concat_length (.inl rfl)),add_zero]
    refine hc.trans (Counting.count_congr ?_)
    intro k hk
    apply Iff.symm
    apply occupied_congr
    · dsimp only
      rw [List.getElem?_append_left hk]
    · rfl
  | route i answer =>
    simp only [step]
    split
    · rename_i c hc
      refine (routeStep_routes e w i c answer).kept h.1 h.2 hc ?_
      intro d hd
      simpa [orderly,hc,hd] using ha
    · exact h
  | request => exact requestStep_kept h.1 h.2 ..
  | reply => exact replyStep_kept h.1 h.2 ..
  | result j answer =>
    simp only [step]
    split
    · rename_i r hr
      refine (resultStep_results e w j r answer).kept h.1 h.2 hr ?_
      intro hfinal
      constructor <;> intro hphase <;> simpa [orderly,hr,hfinal,hphase] using ha
    · exact h

/-- In every orderly run the counter is the number of INVITEs in routing and of open
dialogs, and every entry belongs to an INVITE that is being relayed or to an open
dialog. -/
theorem slots_conserved (e : Edge) (as : List Action)
    (h : Run.Conforms (step e) (fun w a => orderly e w a) as initial) :
    (Run.exec (step e) as initial).Conserved ∧
      ∀ k s, (k,s) ∈ (Run.exec (step e) as initial).entries →
        ∃ (i : ℕ) (c : Invite) (d : Decision),
          (Run.exec (step e) as initial).invites[i]? = some c ∧ c.key = k ∧ d.owner = s.owner ∧
            (c.phase = .relaying d ∨
              c.phase = .relayed d ∧ (Run.exec (step e) as initial).ended i = false) := by
  obtain ⟨ht,hc⟩ : Tidy (Run.exec (step e) as initial) ∧
      Conserved (Run.exec (step e) as initial) :=
    Run.exec_conforming (step e) (fun w a => orderly e w a)
      (fun w => Tidy w ∧ Conserved w) (step_kept e) as initial h ⟨initial_tidy,rfl⟩
  refine ⟨hc,?_⟩
  intro k s hs
  obtain ⟨i,c,d,hi,hk,hd,ho⟩ := ht.backed k s hs
  refine ⟨i,c,d,hi,hk,ho,?_⟩
  cases hphase : c.phase with
  | relaying =>
    rw [hphase] at hd
    cases hd
    exact .inl rfl
  | relayed =>
    rw [hphase] at hd
    cases hd
    refine .inr ⟨rfl,?_⟩
    rw [← Bool.not_eq_true,ended_iff]
    rintro ⟨⟨j,r,hr,hri,hover⟩,-⟩
    have hholds : (Run.exec (step e) as initial).Holds c d := ⟨s,by rw [hk]; exact hs,ho.symm⟩
    exact (ht.live i j c d r hi hphase hholds hr hri).2 hover
  | _ =>
    rw [hphase] at hd
    cases hd

def sampleEdge : Edge := ⟨2,2,[]⟩

def sampleDecision (owner : ℕ) : Decision :=
  ⟨owner,some "handle",⟨"10.0.0.8",false,false,false,false,false,true⟩,5060,some .udp,none⟩

def callRun : List Action :=
  [.invite .inbound ("call-1","tag-1") 1,.route 0 .done,.route 0 .done,
    .route 0 (.decides (sampleDecision 7) true),.route 0 .done,
    .route 0 (.decides (sampleDecision 7) true),.route 0 .done,.route 0 .done,
    .reply 0 200 none,.result 0 .done,.result 0 .done,.request 0 .bye false 2 none,
    .reply 1 200 none]

theorem callRun_conserved :
    (Run.exec (step sampleEdge) callRun initial).dialogs = 1 ∧
      (Run.exec (step sampleEdge) (callRun++List.replicate 4 (.result 1 .done))
        initial).Conserved ∧
      (Run.exec (step sampleEdge) (callRun++List.replicate 4 (.result 1 .done))
        initial).dialogs = 0 :=
  ⟨by decide +kernel,(slots_conserved sampleEdge (callRun++List.replicate 4 (.result 1 .done))
    (by decide +kernel)).1,by decide +kernel⟩

/-- The resolver cannot be reached when the reply to the BYE is reported. -/
def unreportedRun : List Action := callRun++[.result 1 .done,.result 1 .raises]

def unrelayedRun : List Action :=
  [.invite .inbound ("call-1","tag-1") 1,.route 0 .done,.route 0 .done,
    .route 0 (.decides (sampleDecision 7) true),.route 0 .done,
    .route 0 (.decides (sampleDecision 7) true),.route 0 .done,.route 0 .raises,.route 0 .done]

/-- The dialog has ended and keeps its slot and its entry for good. The INVITE is
refused and leaves its entry behind. -/
theorem unreportedRun_leaks :
    ((Run.exec (step sampleEdge) unreportedRun initial).ended 0 ∧
      (Run.exec (step sampleEdge) unreportedRun initial).dialogs = 1 ∧
      (Run.exec (step sampleEdge) unreportedRun initial).routing = 0 ∧
      (Run.exec (step sampleEdge) unreportedRun initial).openDialogs = 0) ∧
      (Run.exec (step sampleEdge) unrelayedRun initial).dialogs = 0 ∧
      (Run.exec (step sampleEdge) unrelayedRun initial).invites.map Invite.phase = [.refused] ∧
      (Run.exec (step sampleEdge) unrelayedRun initial).entries.length = 1 := by
  decide +kernel

end World

end NexusAi.Kamailio
