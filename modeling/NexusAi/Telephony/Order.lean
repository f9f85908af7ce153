import NexusAi.Telephony.Folding

/-!
# The order of a call's events

The state events of a call arrive in any order and more than once. Where the
provider's own numbers and times grow with the rank of the states, also from what the
call has recorded on, no event of a higher rank is taken for a stale one, and the call
ends in the highest state that any of its events reported.
-/

namespace NexusAi.Telephony

theorem rank_terminal {s : CallState} (h : isTerminal s) : s.stateRank = 6 := by
  cases s <;> first | rfl | exact absurd h (by decide)

theorem rank_live {s : CallState} (h : isTerminal s = false) : s.stateRank < 6 := by
  cases s <;> first | exact absurd h (by decide) | decide

theorem terminal_of_le {s t : CallState} (hs : isTerminal s) (h : s.stateRank ≤ t.stateRank) :
    isTerminal t := by
  by_contra hlive
  have htop := rank_terminal hs
  have hlow := rank_live (Bool.eq_false_of_not_eq_true hlive)
  omega

theorem live_unique {s t : CallState} (hs : isTerminal s = false)
    (h : s.stateRank = t.stateRank) : s = t := by
  cases s <;> cases t <;> first | rfl | exact absurd h (by decide) | exact absurd hs (by decide)

/-- An event of a higher rank, the end of the call apart, does not come before what the
call has recorded, in the provider's order. -/
def CallRow.Precedes (row : CallRow) (event : NormalizedCallEvent) : Prop :=
  ∀ s, event.payload = .state s → isTerminal s = false → row.state.stateRank < s.stateRank →
    providerOrderPrecedes event.providerTimestamp event.providerSequence row.providerTimestamp
      row.providerSequence = false

/-- Provider numbers and times, where present, grow with the rank of the states. -/
def Increasing (events : Multiset NormalizedCallEvent) : Prop :=
  ∀ e ∈ events, ∀ e' ∈ events, ∀ s s', e.payload = .state s → e'.payload = .state s' →
    s.stateRank < s'.stateRank →
      (∀ m n, e.providerSequence = some m → e'.providerSequence = some n → m ≤ n) ∧
        ∀ t u, e.providerTimestamp = some t → e'.providerTimestamp = some u → t ≤ u

/-- A call after one event, at the time at which it is processed. -/
def CallRow.after (row : CallRow) (e : NormalizedCallEvent × ℤ) : CallRow :=
  (foldEvent e.1 e.2 row []).row

/-- What an event lacks, the call keeps from before. -/
theorem not_precedes_or {ts ts' ts₀ : Option ℤ} {seq seq' seq₀ : Option ℕ}
    (hseq : ∀ m n, seq = some m → seq' = some n → m ≤ n)
    (hts : ∀ t u, ts = some t → ts' = some u → t ≤ u)
    (hold : providerOrderPrecedes ts' seq' ts₀ seq₀ = false) :
    providerOrderPrecedes ts' seq' (ts.or ts₀) (seq.or seq₀) = false := by
  cases seq' <;> cases seq <;> cases seq₀ <;> cases ts' <;> cases ts <;> cases ts₀ <;>
    simp_all [providerOrderPrecedes]

variable {row : CallRow} {e : NormalizedCallEvent × ℤ} {s : CallState}

theorem after_ignored (hrow : row.Coherent) (he : e.1.payload = .state s)
    (hrank : s.stateRank ≤ row.state.stateRank) : row.after e = row := by
  have hfold : ∀ ts seq ts' seq',
      (foldState row.state row.stateRank ts seq s ts' seq').outcome = .ignored := by
    intro ts seq ts' seq'
    unfold foldState
    split_ifs with _ _ _ _ h5 h6 h7 <;> first | rfl | (exfalso; rw [hrow.rank] at *; omega)
  simp only [CallRow.after,foldEvent,he,foldStateEvent,hfold]

theorem live_below (h : row.state.stateRank < s.stateRank) : isTerminal row.state = false := by
  by_contra hterminal
  have htop := rank_terminal (Bool.eq_true_of_not_eq_false hterminal)
  have hle : s.stateRank ≤ 6 := by cases s <;> decide
  omega

/-- An event of a higher rank moves the call, if the provider does not order it
before what the call has recorded. -/
theorem after_applied (hrow : row.Coherent) (he : e.1.payload = .state s)
    (hrank : row.state.stateRank < s.stateRank) (hprecedes : row.Precedes e.1) :
    row.after e = row.folded e.1 ⟨.applied,s,dispositionFor s,
      if isTerminal s then "terminal-transition" else "forward-transition"⟩ e.2 := by
  have hlive := live_below hrank
  have hne : s ≠ row.state := by
    rintro rfl
    omega
  have hfold : foldState row.state row.stateRank row.providerTimestamp row.providerSequence s
      e.1.providerTimestamp e.1.providerSequence = ⟨.applied,s,dispositionFor s,
        if isTerminal s then "terminal-transition" else "forward-transition"⟩ := by
    unfold foldState
    rw [hrow.rank]
    have hlt : ¬ s.stateRank < row.state.stateRank := by omega
    have heq : s.stateRank ≠ row.state.stateRank := by omega
    cases hs : isTerminal s with
    | true => simp [hlive,hne,hlt,heq]
    | false => simp [hlive,hne,hlt,heq,disposition_live hs,hprecedes s he hs hrank]
  simp only [CallRow.after,foldEvent,he,foldStateEvent,hfold]

/-- A call over which the events can be processed in any order. -/
structure CallRow.Meets (events : Multiset NormalizedCallEvent) (row : CallRow) : Prop where
  coherent : row.Coherent
  precedes : ∀ e ∈ events, row.Precedes e

variable {events : Multiset NormalizedCallEvent}

theorem CallRow.Meets.after (hrow : row.Meets events) (hevents : Increasing events)
    (hmem : e.1 ∈ events) (he : e.1.payload = .state s) : (row.after e).Meets events := by
  by_cases hrank : s.stateRank ≤ row.state.stateRank
  · rw [after_ignored hrow.coherent he hrank]
    exact hrow
  have hlt : row.state.stateRank < s.stateRank := by omega
  rw [after_applied hrow.coherent he hlt (hrow.precedes e.1 hmem)]
  refine ⟨folded_coherent hrow.coherent (live_below hlt) e.1 e.2 _,?_⟩
  intro e' he' s' hs' hlive' hlt'
  obtain ⟨hseq,hts⟩ := hevents e.1 hmem e' he' s s' he hs' hlt'
  -- the rank of the call was lower still before the event
  exact not_precedes_or hseq hts (hrow.precedes e' he' s' hs' hlive' (hlt.trans hlt'))

theorem after_state (hrow : row.Meets events) (hmem : e.1 ∈ events)
    (he : e.1.payload = .state s) :
    (row.after e).state = if row.state.stateRank < s.stateRank then s else row.state := by
  split_ifs with hrank
  · rw [after_applied hrow.coherent he hrank (hrow.precedes e.1 hmem)]
    rfl
  · rw [after_ignored hrow.coherent he (by omega)]

structure Peak (row : CallRow) (es : List (NormalizedCallEvent × ℤ)) (state : CallState) :
    Prop where
  source : state = row.state ∨ ∃ e ∈ es, e.1.payload = .state state
  rises : row.state.stateRank ≤ state.stateRank
  absorbs : isTerminal row.state → state = row.state
  highest : ∀ e ∈ es, ∀ s, e.1.payload = .state s → s.stateRank ≤ state.stateRank

theorem exec_peak (hevents : Increasing events)
    (hstate : ∀ e ∈ events, e.payload.eventType = .state) (es : List (NormalizedCallEvent × ℤ))
    (hes : ∀ e ∈ es, e.1 ∈ events) (row : CallRow) (hrow : row.Meets events) :
    (Run.exec CallRow.after es row).Meets events ∧
      Peak row es (Run.exec CallRow.after es row).state := by
  induction es generalizing row with
  | nil => exact ⟨hrow,.inl rfl,le_rfl,fun _ => rfl,fun e he => absurd he List.not_mem_nil⟩
  | cons e _ ih =>
    have hmem := hes e List.mem_cons_self
    obtain ⟨s,hs⟩ : ∃ s, e.1.payload = .state s := by
      have htype := hstate e.1 hmem
      cases hp : e.1.payload with
      | state s => exact ⟨s,rfl⟩
      | dtmf | media => rw [hp] at htype; cases htype
    have hafter := after_state hrow hmem hs
    obtain ⟨hmeets,hpeak⟩ := ih (fun e' he' => hes e' (List.mem_cons_of_mem e he')) (row.after e)
      (hrow.after hevents hmem hs)
    refine ⟨hmeets,?_,?_,?_,?_⟩
    · rcases hpeak.source with hsame | ⟨e',he',hp⟩
      · rw [Run.exec,hsame,hafter]
        split_ifs
        · exact .inr ⟨e,List.mem_cons_self,hs⟩
        · exact .inl rfl
      · exact .inr ⟨e',List.mem_cons_of_mem e he',hp⟩
    · refine le_trans ?_ hpeak.rises
      rw [hafter]
      split_ifs <;> omega
    · intro hterminal
      have hkept : (row.after e).state = row.state := by
        rw [hafter,if_neg]
        intro hlt
        rw [live_below hlt] at hterminal
        cases hterminal
      rw [Run.exec,hpeak.absorbs (hkept ▸ hterminal),hkept]
    · intro e' he' s' hs'
      rcases List.mem_cons.mp he' with rfl | hrest
      · refine le_trans ?_ hpeak.rises
        cases hs.symm.trans hs'
        rw [hafter]
        split_ifs <;> omega
      · exact hpeak.highest e' hrest s' hs'

theorem Peak.unique {es es' : List (NormalizedCallEvent × ℤ)} {a b : CallState}
    (ha : Peak row es a) (hb : Peak row es' b)
    (hsame : ∀ e, (∃ p ∈ es, p.1 = e) ↔ ∃ p ∈ es', p.1 = e)
    (hone : ∀ p ∈ es, ∀ q ∈ es', ∀ s t, p.1.payload = .state s → q.1.payload = .state t →
      isTerminal s → isTerminal t → s = t) : a = b := by
  have hrank : a.stateRank = b.stateRank := by
    apply le_antisymm
    · rcases ha.source with hrow | ⟨p,hp,hpayload⟩
      · rw [hrow]
        exact hb.rises
      · obtain ⟨q,hq,heq⟩ := (hsame p.1).mp ⟨p,hp,rfl⟩
        exact hb.highest q hq a (heq ▸ hpayload)
    · rcases hb.source with hrow | ⟨q,hq,hpayload⟩
      · rw [hrow]
        exact ha.rises
      · obtain ⟨p,hp,heq⟩ := (hsame q.1).mpr ⟨q,hq,rfl⟩
        exact ha.highest p hp b (heq ▸ hpayload)
  cases hlive : isTerminal a with
  | false => exact live_unique hlive hrank
  | true =>
    have hbterminal := terminal_of_le hlive hrank.le
    by_cases hrow : isTerminal row.state
    · rw [ha.absorbs hrow,hb.absorbs hrow]
    · rcases ha.source with hsource | ⟨p,hp,hpa⟩
      · exact absurd (hsource ▸ hlive) hrow
      · rcases hb.source with hsource | ⟨q,hq,hqb⟩
        · exact absurd (hsource ▸ hbterminal) hrow
        · exact hone p hp q hq a b hpa hqb hlive hbterminal

namespace World

def Coherent (w : World) : Prop := ∀ row ∈ w.calls, row.Coherent

variable {w : World}

theorem Dialed.keyed (h : w.Dialed) : Table.Keyed CallRow.id w.calls := by
  have hids : w.calls.map CallRow.id = List.range w.names.length := by
    rw [← h.numbered,names,List.map_map]
    rfl
  rw [Table.Keyed,hids]
  exact List.nodup_range

theorem Coherent.step (h : w.Coherent) (hw : w.Dialed) (a : Action) : (w.step a).Coherent := by
  unfold Coherent
  cases step_stepped w a with
  | kept hcalls => exact hcalls ▸ h
  | edited id f hcalls _ hcoherent =>
    rw [hcalls]
    refine Table.forall_edit h fun row hr hid => hcoherent row ?_
    rw [← List.mem_singleton.mp hid]
    exact Table.find_of_mem hw.keyed hr
  | added row _ hcalls _ hcoherent =>
    rw [hcalls]
    intro r hr
    rcases Table.mem_concat hr with hold | rfl
    · exact h r hold
    · exact hcoherent
  | linked _ _ _ hcalls =>
    rw [hcalls]
    exact Table.forall_edit h fun _ _ _ hrow => ⟨hrow.rank,hrow.disposition⟩

theorem coherent_reach (as : List Action) : (reach as).Coherent := by
  have hinv := Run.exec_invariant World.step (fun w => w.Dialed ∧ w.Coherent)
    (fun w a h => ⟨h.1.moved (step_names w a),h.2.step h.1 a⟩) as initial
    ⟨dialed_initial,fun row hrow => absurd hrow List.not_mem_nil⟩
  exact hinv.2

end World

/-- The state events of a call, whose provider numbers and times grow with the rank, do not
come before what the call has recorded and report at most one end, bring the call to the
highest state among them and its own, in every order and with every repetition. On the way
the rank never falls and an end is never left. -/
theorem order_independent (as : List Action) (row : CallRow) (hrow : row ∈ (World.reach as).calls)
    (events : Multiset NormalizedCallEvent)
    (hstate : ∀ e ∈ events, e.payload.eventType = .state) (hincreasing : Increasing events)
    (hprecedes : ∀ e ∈ events, row.Precedes e)
    (hone : ∀ e ∈ events, ∀ e' ∈ events, ∀ s t, e.payload = .state s → e'.payload = .state t →
      isTerminal s → isTerminal t → s = t) :
    ∃ state, (state = row.state ∨ ∃ e ∈ events, e.payload = .state state) ∧
      row.state.stateRank ≤ state.stateRank ∧
      (∀ e ∈ events, ∀ s, e.payload = .state s → s.stateRank ≤ state.stateRank) ∧
      ∀ es : List (NormalizedCallEvent × ℤ), (∀ e, e ∈ es.map Prod.fst ↔ e ∈ events) →
        (Run.exec CallRow.after es row).state = state ∧
        (Run.exec CallRow.after es row).disposition = dispositionFor state ∧
        ∀ es₁ es₂, es = es₁++es₂ →
          (Run.exec CallRow.after es₁ row).stateRank ≤ (Run.exec CallRow.after es row).stateRank ∧
          (isTerminal (Run.exec CallRow.after es₁ row).state →
            (Run.exec CallRow.after es row).state = (Run.exec CallRow.after es₁ row).state) := by
  have hmeets : row.Meets events := ⟨World.coherent_reach as row hrow,hprecedes⟩
  have hexec := exec_peak hincreasing hstate
  -- one way through the events names the state
  let way : List (NormalizedCallEvent × ℤ) := events.toList.map fun e => (e,0)
  have hway : ∀ e, (∃ p ∈ way, p.1 = e) ↔ e ∈ events := by
    intro e
    simp [way]
  obtain ⟨-,hpeak⟩ := hexec way (fun p hp => (hway p.1).mp ⟨p,hp,rfl⟩) row hmeets
  refine ⟨(Run.exec CallRow.after way row).state,?_,hpeak.rises,?_,?_⟩
  · exact hpeak.source.imp_right fun ⟨p,hp,hs⟩ => ⟨p.1,(hway p.1).mp ⟨p,hp,rfl⟩,hs⟩
  · intro e he s hs
    obtain ⟨p,hp,rfl⟩ := (hway e).mpr he
    exact hpeak.highest p hp s hs
  intro es hes
  have hmem : ∀ e, (∃ p ∈ es, p.1 = e) ↔ e ∈ events := fun e => by rw [← hes e,List.mem_map]
  have hin : ∀ p ∈ es, p.1 ∈ events := fun p hp => (hmem p.1).mp ⟨p,hp,rfl⟩
  obtain ⟨hends,hreached⟩ := hexec es hin row hmeets
  have hsame : (Run.exec CallRow.after es row).state = (Run.exec CallRow.after way row).state :=
    hreached.unique hpeak (fun e => (hmem e).trans (hway e).symm) fun p hp q hq =>
      hone p.1 (hin p hp) q.1 ((hway q.1).mp ⟨q,hq,rfl⟩)
  refine ⟨hsame,by rw [hends.coherent.disposition,hsame],?_⟩
  rintro es₁ es₂ rfl
  obtain ⟨hmiddle,-⟩ := hexec es₁ (fun p hp => hin p (List.mem_append_left es₂ hp)) row hmeets
  obtain ⟨-,hrest⟩ := hexec es₂ (fun p hp => hin p (List.mem_append_right es₁ hp)) _ hmiddle
  rw [← Run.exec_append] at hrest
  rw [hmiddle.coherent.rank,hends.coherent.rank]
  exact ⟨hrest.rises,hrest.absorbs⟩

def sampleRinging : NormalizedCallEvent := ⟨"e1","p1",.state .ringing,none,some 1⟩

def sampleAnswered : NormalizedCallEvent := ⟨"e2","p1",.state .answered,some 20,none⟩

def sampleCompleted : NormalizedCallEvent := ⟨"e3","p1",.state .completed,some 40,some 5⟩

def sampleEvents : Multiset NormalizedCallEvent := {sampleRinging,sampleAnswered,sampleCompleted}

theorem mem_sampleEvents {e : NormalizedCallEvent} :
    e ∈ sampleEvents ↔ e = sampleRinging ∨ e = sampleAnswered ∨ e = sampleCompleted := by
  simp [sampleEvents]

theorem sampleEvents_increasing : Increasing sampleEvents := by
  intro e he e' he' s s' hs hs' hlt
  rcases mem_sampleEvents.mp he with rfl | rfl | rfl <;>
    rcases mem_sampleEvents.mp he' with rfl | rfl | rfl <;> cases hs <;> cases hs' <;>
    first
      | exact absurd hlt (by decide)
      | simp [sampleRinging,sampleAnswered,sampleCompleted]

def sampleInbound (t : ℤ) : NormalizedInboundCall := ⟨"e0","p1","+4930","+4940",some t⟩

def rungAt (t : ℤ) : CallRow := .rung 0 3 (sampleInbound t) 7

def inboundRun (t : ℤ) : List Action := [.arrive 3 (sampleInbound t),.check 0,.admitCall 0 7]

/-- A call that rings since 10 ends completed over the three events. -/
theorem sampleEvents_complete :
    rungAt 10 ∈ (World.reach (inboundRun 10)).calls ∧
    ∀ es : List (NormalizedCallEvent × ℤ), (∀ e, e ∈ es.map Prod.fst ↔ e ∈ sampleEvents) →
      (Run.exec CallRow.after es (rungAt 10)).state = .completed ∧
      (Run.exec CallRow.after es (rungAt 10)).disposition = some .answered := by
  have hrow : rungAt 10 ∈ (World.reach (inboundRun 10)).calls := by decide
  refine ⟨hrow,?_⟩
  obtain ⟨state,hsource,-,hhighest,hends⟩ := order_independent (inboundRun 10) (rungAt 10) hrow
    sampleEvents (by simp [mem_sampleEvents]; decide) sampleEvents_increasing
    (by
      intro e he s hs _ _
      rcases mem_sampleEvents.mp he with rfl | rfl | rfl <;> cases hs <;> rfl)
    (by
      intro e he e' he' s t hs ht hsterminal htterminal
      rcases mem_sampleEvents.mp he with rfl | rfl | rfl <;>
        rcases mem_sampleEvents.mp he' with rfl | rfl | rfl <;> cases hs <;> cases ht <;>
        first
          | rfl
          | exact absurd hsterminal (by decide)
          | exact absurd htterminal (by decide))
  have htop := hhighest sampleCompleted (mem_sampleEvents.mpr (.inr (.inr rfl))) .completed rfl
  have hstate : state = .completed := by
    rcases hsource with rfl | ⟨e,he,hs⟩
    · exact absurd htop (by decide)
    · rcases mem_sampleEvents.mp he with rfl | rfl | rfl <;> cases hs <;>
        first | rfl | exact absurd htop (by decide)
  subst hstate
  exact fun es hes => ⟨(hends es hes).1,(hends es hes).2.1⟩

def numberedBridged : NormalizedCallEvent := ⟨"e4","p1",.state .bridged,none,some 2⟩

def numberedEnding : NormalizedCallEvent := ⟨"e5","p1",.state .ending,some 60,some 3⟩

/-- The call rings since 100 by the provider's clock. An event at 60 is stale for it, unless
a number was recorded before. -/
theorem rungLate_differs :
    rungAt 100 ∈ (World.reach (inboundRun 100)).calls ∧
    Increasing {numberedBridged,numberedEnding} ∧
    (Run.exec CallRow.after [(numberedBridged,8),(numberedEnding,9)] (rungAt 100)).state = .ending ∧
    (Run.exec CallRow.after [(numberedEnding,8),(numberedBridged,9)] (rungAt 100)).state =
      .bridged := by
  refine ⟨by decide,?_,by decide,by decide⟩
  intro e he e' he' s s' hs hs' hlt
  simp only [Multiset.insert_eq_cons,Multiset.mem_cons,Multiset.mem_singleton] at he he'
  rcases he with rfl | rfl <;> rcases he' with rfl | rfl <;> cases hs <;> cases hs' <;>
    first
      | exact absurd hlt (by decide)
      | simp [numberedBridged,numberedEnding]

end NexusAi.Telephony
