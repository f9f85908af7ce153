import NexusAi.Telephony.Order

/-!
# The time of the answer

The time of the answer is written when an event brings the call to ANSWERED. An
event that reports the answer of a call which is further on already, or which
the provider puts before what the call has recorded, is ignored.
-/

namespace NexusAi.Telephony

/-- An event that finds the call before its answer, and reports it. -/
def CallRow.Hears (row : CallRow) (event : NormalizedCallEvent) : Prop :=
  event.payload = .state .answered ∧ row.state.stateRank < CallState.answered.stateRank ∧
    providerOrderPrecedes event.providerTimestamp event.providerSequence row.providerTimestamp
      row.providerSequence = false

def Heard : List (NormalizedCallEvent × ℤ) → CallRow → Prop
  | [], _ => False
  | e::es, row => row.Hears e.1 ∨ Heard es (row.after e)

def endReported (e : NormalizedCallEvent × ℤ) : Option CallState :=
  match e.1.payload with
  | .state s => if isTerminal s then some s else none
  | _ => none

/-- The first end that the events report to a call that has not ended is COMPLETED. -/
def Completes (es : List (NormalizedCallEvent × ℤ)) (row : CallRow) : Prop :=
  if isTerminal row.state then row.state = .completed else es.findSome? endReported = some .completed

variable {row : CallRow} {e : NormalizedCallEvent × ℤ} {es : List (NormalizedCallEvent × ℤ)}

/-- The provider puts the event before what the call has recorded. -/
theorem after_stale {s : CallState} (hp : e.1.payload = .state s)
    (hlt : row.state.stateRank < s.stateRank) (hfirst : ¬ row.Precedes e.1) :
    isTerminal s = false ∧ providerOrderPrecedes e.1.providerTimestamp e.1.providerSequence
      row.providerTimestamp row.providerSequence ∧ row.after e = row := by
  have hstale : isTerminal s = false ∧ providerOrderPrecedes e.1.providerTimestamp
      e.1.providerSequence row.providerTimestamp row.providerSequence := by
    simpa [CallRow.Precedes,hp,hlt] using hfirst
  have hne : s ≠ row.state := by
    rintro rfl
    omega
  refine ⟨hstale.1,hstale.2,?_⟩
  simp [CallRow.after,foldEvent,hp,foldStateEvent,foldState,live_below hlt,hne,hstale]

theorem after_cases (hrow : row.Coherent) (e : NormalizedCallEvent × ℤ) :
    (row.after e = row ∧ ¬ row.Hears e.1 ∧
      (isTerminal row.state ∨ endReported e = none)) ∨
    ∃ s reason, e.1.payload = .state s ∧ isTerminal row.state = false ∧
      (s = .answered → row.Hears e.1) ∧
      row.after e = row.folded e.1 ⟨.applied,s,dispositionFor s,reason⟩ e.2 := by
  cases hp : e.1.payload with
  | dtmf => exact .inl ⟨by simp only [CallRow.after,foldEvent,hp],
      fun h => (by simpa [hp] using h.1),.inr (by simp only [endReported,hp])⟩
  | media =>
    refine .inl ⟨?_,fun h => (by simpa [hp] using h.1),.inr (by simp only [endReported,hp])⟩
    simp only [CallRow.after,foldEvent,hp,foldMediaEvent]
    split <;> try split_ifs
    all_goals rfl
  | state s =>
    have hHears : row.Hears e.1 ↔ s = .answered ∧ row.stateRank < 3 ∧
        providerOrderPrecedes e.1.providerTimestamp e.1.providerSequence row.providerTimestamp
          row.providerSequence = false := by
      simp only [CallRow.Hears,hp,EventPayload.state.injEq,hrow.rank]
      rfl
    have hend : endReported e = if isTerminal s then some s else none := by
      simp only [endReported,hp]
    have hrank := hrow.rank
    rw [hHears,hend]
    rcases Nat.lt_or_ge row.state.stateRank s.stateRank with hlt | hge
    · have hlive := live_below hlt
      by_cases hfirst : row.Precedes e.1
      · refine .inr ⟨s,_,rfl,hlive,?_,after_applied hrow hp hlt hfirst⟩
        rintro rfl
        exact ⟨rfl,hrank ▸ hlt,hfirst .answered hp rfl hlt⟩
      · obtain ⟨hs,hstale,hsame⟩ := after_stale hp hlt hfirst
        exact .inl ⟨hsame,by simp [hstale],.inr (by simp [hs])⟩
    · refine .inl ⟨after_ignored hrow hp hge,?_,?_⟩
      · rintro ⟨rfl,hlow,-⟩
        exact absurd hge (by rw [← hrank]; exact Nat.not_le_of_lt hlow)
      · cases hs : isTerminal s with
        | true => exact .inl (terminal_of_le hs hge)
        | false => exact .inr rfl

theorem after_coherent (hrow : row.Coherent) (e : NormalizedCallEvent × ℤ) :
    (row.after e).Coherent :=
  foldEvent_coherent hrow e.1 e.2 []

theorem after_answeredAt (hrow : row.Coherent) (e : NormalizedCallEvent × ℤ) :
    (row.after e).answeredAt.isSome ↔ row.answeredAt.isSome ∨ row.Hears e.1 := by
  rcases after_cases hrow e with ⟨hsame,hdeaf,-⟩ | ⟨s,_,hp,-,hhears,hfolded⟩
  · rw [hsame]
    exact (or_iff_left hdeaf).symm
  · have hiff : row.Hears e.1 ↔ s = .answered := by
      refine ⟨fun h => ?_,hhears⟩
      cases hp.symm.trans h.1
      rfl
    rw [hfolded,hiff]
    simp only [CallRow.folded]
    cases row.answeredAt <;> by_cases hs : s = .answered <;> simp [hs]

theorem exec_answeredAt (hrow : row.Coherent) (es : List (NormalizedCallEvent × ℤ)) :
    (Run.exec CallRow.after es row).answeredAt.isSome ↔
      row.answeredAt.isSome ∨ Heard es row := by
  induction es generalizing row with
  | nil => exact (or_iff_left id).symm
  | cons e _ ih =>
    rw [Run.exec,ih (after_coherent hrow e),after_answeredAt hrow,Heard,or_assoc]

/-- An answer is heard if only lower ranks are reported before it, and the provider orders it
before none of these and not before what the call has recorded. -/
theorem heard_of_first (hrow : row.Coherent) {before after : List (NormalizedCallEvent × ℤ)}
    (hlow : row.state.stateRank < CallState.answered.stateRank)
    (hrecorded : providerOrderPrecedes e.1.providerTimestamp e.1.providerSequence
      row.providerTimestamp row.providerSequence = false)
    (hanswer : e.1.payload = .state .answered)
    (hbefore : ∀ d ∈ before, ∀ s, d.1.payload = .state s →
      s.stateRank < CallState.answered.stateRank ∧
      (∀ m n, d.1.providerSequence = some m → e.1.providerSequence = some n → m ≤ n) ∧
      ∀ t u, d.1.providerTimestamp = some t → e.1.providerTimestamp = some u → t ≤ u) :
    Heard (before++e::after) row := by
  induction before generalizing row with
  | nil => exact .inl ⟨hanswer,hlow,hrecorded⟩
  | cons d ds ih =>
    have hrest := fun d' hd' => hbefore d' (List.mem_cons_of_mem d hd')
    rcases after_cases hrow d with ⟨hsame,-⟩ | ⟨s,_,hp,-,-,hfolded⟩
    · refine .inr ?_
      rw [hsame]
      exact ih hrow hlow hrecorded hrest
    · obtain ⟨hrank,hseq,hts⟩ := hbefore d List.mem_cons_self s hp
      refine .inr (ih (after_coherent hrow d) ?_ ?_ hrest)
      · rw [hfolded]
        exact hrank
      · rw [hfolded]
        exact not_precedes_or hseq hts hrecorded

theorem exec_completed (hrow : row.Coherent) (es : List (NormalizedCallEvent × ℤ)) :
    (Run.exec CallRow.after es row).state = .completed ↔ Completes es row := by
  induction es generalizing row with
  | nil =>
    cases hs : isTerminal row.state with
    | true => simp [Run.exec,Completes,hs]
    | false =>
      have hlive : row.state ≠ .completed := by
        intro h
        rw [h] at hs
        cases hs
      simp [Run.exec,Completes,hs,hlive]
  | cons e _ ih =>
    rw [Run.exec,ih (after_coherent hrow e)]
    rcases after_cases hrow e with ⟨hsame,-,hend⟩ | ⟨s,_,hp,hlive,-,hfolded⟩
    · rw [hsame]
      unfold Completes
      rcases hend with hs | hnone
      · simp [hs]
      · simp [hnone]
    · have hend : endReported e = if isTerminal s then some s else none := by
        simp only [endReported,hp]
      rw [hfolded]
      unfold Completes
      simp only [CallRow.folded,hlive,List.findSome?_cons,hend]
      by_cases hs : isTerminal s <;> simp [hs]

/-- The answer of a call is recorded and a call that counts as answered has its time, exactly if
the time was there, the answer was reported in time, or there was neither an answer nor the end
of one. -/
theorem answer_recorded_iff (as : List Action) (row : CallRow)
    (hrow : row ∈ (World.reach as).calls) (es : List (NormalizedCallEvent × ℤ)) :
    (((∃ e ∈ es, e.1.payload = .state .answered) →
        (Run.exec CallRow.after es row).answeredAt.isSome) ∧
      ((Run.exec CallRow.after es row).disposition = some .answered →
        (Run.exec CallRow.after es row).answeredAt.isSome)) ↔
    row.answeredAt.isSome ∨ Heard es row ∨
      ((∀ e ∈ es, e.1.payload ≠ .state .answered) ∧ ¬ Completes es row) := by
  have hcoherent := World.coherent_reach as row hrow
  have hend : (Run.exec CallRow.after es row).Coherent :=
    Run.exec_invariant CallRow.after CallRow.Coherent (fun _ e h => after_coherent h e) es row
      hcoherent
  have hdisposition : (Run.exec CallRow.after es row).disposition = some .answered ↔
      Completes es row := by
    rw [hend.disposition,← exec_completed hcoherent]
    cases (Run.exec CallRow.after es row).state <;> simp [dispositionFor]
  rw [exec_answeredAt hcoherent,hdisposition,← or_assoc]
  constructor
  · rintro ⟨hreported,hcompleted⟩
    by_cases hset : row.answeredAt.isSome ∨ Heard es row
    · exact .inl hset
    · exact .inr ⟨fun e he hp => hset (hreported ⟨e,he,hp⟩),fun h => hset (hcompleted h)⟩
  · rintro (hset | ⟨hnone,hopen⟩)
    · exact ⟨fun _ => hset,fun _ => hset⟩
    · exact ⟨fun ⟨e,he,hp⟩ => absurd hp (hnone e he),fun h => absurd h hopen⟩

theorem ringing_then_answered :
    (Run.exec CallRow.after [(sampleRinging,1),(sampleAnswered,2),(sampleCompleted,3)]
      (CallRow.placed 0 3)).answeredAt.isSome :=
  have hrow : CallRow.placed 0 3 ∈ (World.reach [.create 3]).calls := by decide
  have hheard : Heard ([(sampleRinging,1)]++(sampleAnswered,2)::[(sampleCompleted,3)])
      (CallRow.placed 0 3) :=
    heard_of_first (World.coherent_reach _ _ hrow) (by decide) rfl rfl (by
      simp [sampleRinging,sampleAnswered,CallState.stateRank])
  ((answer_recorded_iff [.create 3] (CallRow.placed 0 3) hrow
    [(sampleRinging,1),(sampleAnswered,2),(sampleCompleted,3)]).mpr (.inr (.inl hheard))).1
    ⟨(sampleAnswered,2),by simp,rfl⟩

def sampleBridged : NormalizedCallEvent := ⟨"e4","p1",.state .bridged,none,none⟩

/-- The bridge is reported before the answer. -/
theorem bridged_unanswered : CallRow.placed 0 3 ∈ (World.reach [.create 3]).calls ∧
    (Run.exec CallRow.after [(sampleBridged,1),(sampleAnswered,2),(sampleCompleted,3)]
      (CallRow.placed 0 3)).disposition = some .answered ∧
    (Run.exec CallRow.after [(sampleBridged,1),(sampleAnswered,2),(sampleCompleted,3)]
      (CallRow.placed 0 3)).answeredAt = none := by
  decide

end NexusAi.Telephony
