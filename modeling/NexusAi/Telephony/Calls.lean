import NexusAi.Telephony.System

/-!
# Calls and their links

A call keeps the provider's id that it was linked to. The process that placed a
call links it once, and every other change leaves the names of its call alone.
-/

namespace NexusAi.Telephony

/-- What a call is called: its id, its account and the provider's id. -/
def CallRow.name (row : CallRow) : ℕ × ℕ × Option String :=
  (row.id,row.accountId,row.providerCallId)

theorem foldEvent_name (event : NormalizedCallEvent) (now : ℤ) (row : CallRow)
    (sessions : List MediaRow) : (foldEvent event now row sessions).row.name = row.name := by
  unfold foldEvent
  split
  · simp only [foldStateEvent]
    split <;> rfl
  · rfl
  · simp only [foldMediaEvent]
    split
    · rfl
    · split <;> rfl
    · rfl

theorem disposition_live {s : CallState} (h : isTerminal s = false) : dispositionFor s = none := by
  cases s <;> first | rfl | exact absurd h (by decide)

/-- The rank and the disposition of a call are those of its state. -/
structure CallRow.Coherent (row : CallRow) : Prop where
  rank : row.stateRank = row.state.stateRank
  disposition : row.disposition = dispositionFor row.state

theorem folded_coherent {row : CallRow} {s : CallState} (hrow : row.Coherent) (hlive : isTerminal row.state = false)
    (event : NormalizedCallEvent) (now : ℤ) (reason : String) :
    (row.folded event ⟨.applied,s,dispositionFor s,reason⟩ now).Coherent := by
  refine ⟨rfl,?_⟩
  show (dispositionFor s).or row.disposition = dispositionFor s
  rw [hrow.disposition,disposition_live hlive,Option.or_none]

theorem foldEvent_coherent {row : CallRow} (hrow : row.Coherent) (event : NormalizedCallEvent) (now : ℤ)
    (sessions : List MediaRow) : (foldEvent event now row sessions).row.Coherent := by
  unfold foldEvent
  split
  · rename_i s _
    simp only [foldStateEvent]
    split
    · exact hrow
    · rename_i happlied
      have hresult : ∃ reason, foldState row.state row.stateRank row.providerTimestamp
          row.providerSequence s event.providerTimestamp event.providerSequence =
            ⟨.applied,s,dispositionFor s,reason⟩ ∧ isTerminal row.state = false := by
        unfold foldState at happlied ⊢
        split_ifs at happlied ⊢ with h₁ _ _ _ _ h₆
        · exact ⟨_,rfl,by simpa using h₁⟩
        · exact ⟨_,by rw [disposition_live (by simpa using h₆)],by simpa using h₁⟩
      obtain ⟨reason,hfold,hlive⟩ := hresult
      rw [hfold]
      exact folded_coherent hrow hlive event now reason
  · exact hrow
  · simp only [foldMediaEvent]
    split
    · exact hrow
    · split <;> exact hrow
    · exact hrow

/-- The link that a call is given, if it is the one with this id. -/
def link (id : ℕ) (providerCallId : String) (name : ℕ × ℕ × Option String) :
    ℕ × ℕ × Option String :=
  if name.1 = id then (name.1,name.2.1,some providerCallId) else name

def fitted (providerCallId : String) : String := String.ofList (providerCallId.toList.take 200)

namespace World

def names (w : World) : List (ℕ × ℕ × Option String) := w.calls.map CallRow.name

def Named (w : World) (accountId : ℕ) (providerCallId : String) (id : ℕ) : Prop :=
  (id,accountId,some providerCallId) ∈ w.names

inductive Names (w w' : World) : Prop
  | same (hnames : w'.names = w.names) (hlength : w'.phases.length = w.phases.length)
      (hclosed : ∀ i : ℕ, w.phases[i]? = some .closed → w'.phases[i]? = some .closed)
  | added (accountId : ℕ) (providerCallId : Option String) (phase : PlacePhase)
      (hnames : w'.names = w.names++[(w.names.length,accountId,providerCallId)])
      (hphases : w'.phases = w.phases++[phase]) (hphase : providerCallId = none ∨ phase = .closed)
  | linked (id : ℕ) (providerCallId dialed : String)
      (hphase : w.phases[id]? = some (.accepted dialed))
      (hnames : w'.names = w.names.map (link id providerCallId))
      (hphases : w'.phases = w.phases.set id .closed)

section Steps

variable {w w' : World}

theorem names_length (w : World) : w.names.length = w.calls.length := by
  simp [names]

inductive Phases (w : World) (a : Action) (w' : World) : Prop
  | same (h : w'.phases = w.phases)
  | grown (phase : PlacePhase) (h : w'.phases = w.phases++[phase])
      (hphase : phase = .dialing ∨ phase = .closed)
  | turned (id : ℕ) (phase : PlacePhase) (h : w'.phases = w.phases.set id phase)
      (hphase : phase ≠ .dialing)
      (haccepted : ∀ p, phase = .accepted p → a = .place id (.accepted p))
      (hopen : w.phases[id]? ≠ some .closed ∨ phase = .closed)

/-- What a step does to the calls, and to what became of placing them. -/
inductive Stepped (w : World) (a : Action) (w' : World) : Prop
  | kept (hcalls : w'.calls = w.calls) (hphases : Phases w a w')
      (hlength : w'.phases.length = w.phases.length)
  | edited (id : ℕ) (f : CallRow → CallRow) (hcalls : w'.calls = (w.edit id f).calls)
      (hname : ∀ row, (f row).name = row.name)
      (hcoherent : ∀ row, Table.find CallRow.id id w.calls = some row → row.Coherent →
        (f row).Coherent)
      (hphases : Phases w a w') (hlength : w'.phases.length = w.phases.length)
  | added (row : CallRow) (phase : PlacePhase) (hcalls : w'.calls = w.calls++[row])
      (hid : row.id = w.calls.length) (hcoherent : row.Coherent)
      (hphases : w'.phases = w.phases++[phase])
      (hphase : phase = .dialing ∧ row.providerCallId = none ∨ phase = .closed)
  | linked (id : ℕ) (dialed : String) (hphase : w.phases[id]? = some (.accepted dialed))
      (hcalls : w'.calls = (w.edit id (CallRow.linked dialed)).calls)
      (hphases : w'.phases = w.phases.set id .closed)

theorem Phases.closes {a : Action} (id : ℕ) (h : w'.phases = w.phases.set id .closed) :
    Phases w a w' := .turned id .closed h (by simp) (by simp) (.inr rfl)

theorem unmoved {a : Action} (hcalls : w'.calls = w.calls) (hphases : w'.phases = w.phases) :
    Stepped w a w' := .kept hcalls (.same hphases) (congrArg List.length hphases)

theorem fail_phases (w : World) (id : ℕ) (code : String) (now : ℤ) :
    (w.fail id code now).phases = w.phases := by
  unfold fail
  split
  · split <;> rfl
  · rfl

theorem fail_stepped {a : Action} {id : ℕ} {code : String} {now : ℤ}
    (hcalls : w'.calls = (w.fail id code now).calls) (hphases : Phases w a w')
    (hlength : w'.phases.length = w.phases.length) : Stepped w a w' := by
  unfold fail at hcalls
  split at hcalls
  · split at hcalls
    · exact .kept hcalls hphases hlength
    · exact .edited id _ hcalls (fun _ => rfl) (fun _ _ _ => ⟨rfl,rfl⟩) hphases hlength
  · exact .kept hcalls hphases hlength

theorem step_stepped (w : World) (a : Action) : Stepped w a (w.step a) := by
  cases a with
  | create => exact .added _ .dialing rfl rfl ⟨rfl,rfl⟩ rfl (.inl ⟨rfl,rfl⟩)
  | dispatch id =>
    simp only [step,dispatchStep]
    split
    · split
      · exact unmoved rfl rfl
      · exact .edited id _ rfl (fun _ => rfl) (fun _ _ h => ⟨h.rank,h.disposition⟩) (.same rfl) rfl
    · exact unmoved rfl rfl
  | revoke id now =>
    have hsame := fail_phases w id "NXS_TELEPHONY_ADMISSION_FAILED" now
    exact fail_stepped rfl (.same hsame) (congrArg List.length hsame)
  | place id outcome =>
    simp only [step,placeStep]
    split
    · rename_i hphase
      refine .kept rfl (.turned id _ rfl ?_ ?_ (.inl (by simp [hphase]))) (by simp [turn]) <;>
        cases outcome <;> simp
    · exact unmoved rfl rfl
  | link id =>
    simp only [step,linkStep]
    split
    · rename_i hphase
      split
      · exact .kept rfl (.closes id rfl) (by simp [turn])
      · exact .linked id _ hphase rfl rfl
    · exact unmoved rfl rfl
  | mark id now =>
    simp only [step,markStep]
    split
    · have hsame := fail_phases w id "NXS_TELEPHONY_PROVIDER_ERROR" now
      exact fail_stepped rfl (.closes id (by rw [turn,hsame])) (by simp [turn,hsame])
    · refine .edited id _ rfl (fun row => ?_) (fun row _ h => ?_) (.closes id rfl)
        (by simp [turn,edit])
      · split <;> rfl
      · split
        · exact h
        · exact ⟨h.rank,h.disposition⟩
    · exact unmoved rfl rfl
  | die id =>
    simp only [step]
    split
    · exact .kept rfl (.closes id rfl) (by simp [turn])
    · exact unmoved rfl rfl
  | hangup id =>
    simp only [step,hangupStep]
    split
    · rename_i hrow
      split
      · exact unmoved rfl rfl
      · rename_i row hlive
        refine .edited id _ rfl (fun _ => rfl) (fun r hr h => ⟨rfl,?_⟩) (.same rfl) rfl
        cases hrow.symm.trans hr
        show row.disposition = none
        rw [h.disposition,disposition_live (by simpa using hlive)]
    · exact unmoved rfl rfl
  | arrive | receive | drop => exact unmoved rfl rfl
  | check =>
    simp only [step,checkStep]
    split
    · split_ifs
      · exact unmoved rfl rfl
      · exact unmoved rfl rfl
      · exact unmoved rfl rfl
      · split <;> exact unmoved rfl rfl
    · exact unmoved rfl rfl
  | admitCall =>
    simp only [step,admitStep]
    split
    · split
      · exact unmoved rfl rfl
      · exact .added _ .closed rfl rfl ⟨rfl,rfl⟩ rfl (.inr rfl)
    · exact unmoved rfl rfl
  | process _ now =>
    simp only [step,processStep]
    split
    · split
      · exact unmoved rfl rfl
      · split_ifs
        · exact unmoved rfl rfl
        · exact unmoved rfl rfl
        · exact unmoved rfl rfl
        · split
          · exact unmoved rfl rfl
          · rename_i row _
            exact .edited row.id _ rfl (fun r => foldEvent_name _ now r w.sessions)
              (fun _ _ h => foldEvent_coherent h _ now _) (.same rfl) rfl
    · exact unmoved rfl rfl

theorem step_phases (w : World) (a : Action) : Phases w a (w.step a) := by
  cases step_stepped w a with
  | kept _ hphases | edited _ _ _ _ _ hphases => exact hphases
  | added _ phase _ _ _ hphases hphase => exact .grown phase hphases (hphase.imp_left And.left)
  | linked id _ _ _ hphases => exact .closes id hphases

theorem Phases.closed {a : Action} (h : Phases w a w') {i : ℕ}
    (hi : w.phases[i]? = some .closed) : w'.phases[i]? = some .closed := by
  have hlt : i < w.phases.length := (List.getElem?_eq_some_iff.mp hi).1
  cases h with
  | same h => rwa [h]
  | grown _ h => rwa [h,List.getElem?_append_left hlt]
  | turned id _ h _ _ hopen =>
    by_cases hid : id = i
    · subst hid
      rcases hopen with hne | rfl
      · exact absurd hi hne
      · rw [h,List.getElem?_set_self hlt]
    · rw [h,List.getElem?_set_ne hid,hi]

theorem Phases.dialing {a : Action} (h : Phases w a w') {i : ℕ} (hi : i < w.phases.length)
    (hdialing : w'.phases[i]? = some .dialing) : w.phases[i]? = some .dialing := by
  cases h with
  | same h => rwa [← h]
  | grown _ h => rwa [h,List.getElem?_append_left hi] at hdialing
  | turned _ _ h hphase =>
    rw [h,List.getElem?_set] at hdialing
    split_ifs at hdialing with hid
    · exact absurd (Option.some.inj hdialing) hphase
    · exact hdialing

theorem Phases.length {a : Action} (h : Phases w a w') : w.phases.length ≤ w'.phases.length := by
  cases h with
  | same h => rw [h]
  | grown _ h => simp [h]
  | turned _ _ h => simp [h]

theorem Phases.accepted {a : Action} (h : Phases w a w') {i : ℕ} {p : String}
    (haccepted : w'.phases[i]? = some (.accepted p)) :
    w.phases[i]? = some (.accepted p) ∨ a = .place i (.accepted p) := by
  cases h with
  | same h => exact .inl (h ▸ haccepted)
  | grown _ h hphase =>
    rw [h,List.getElem?_append] at haccepted
    split_ifs at haccepted
    · exact .inl haccepted
    · obtain ⟨_,hlast⟩ := List.getElem?_eq_some_iff.mp haccepted
      rw [List.getElem_singleton] at hlast
      rcases hphase with rfl | rfl <;> cases hlast
  | turned _ _ h _ hplace =>
    rw [h,List.getElem?_set] at haccepted
    split_ifs at haccepted with hid
    · subst hid
      exact .inr (hplace p (Option.some.inj haccepted))
    · exact .inl haccepted

theorem step_names (w : World) (a : Action) : Names w (w.step a) := by
  have hclosed (i : ℕ) := (step_phases w a).closed (i := i)
  cases step_stepped w a with
  | kept hcalls _ hlength => exact .same (congrArg (List.map _) hcalls) hlength hclosed
  | edited _ _ hcalls hname _ _ hlength =>
    refine .same ?_ hlength hclosed
    rw [names,hcalls]
    exact Table.map_edit fun row _ _ => hname row
  | added row phase hcalls hid _ hphases hphase =>
    refine .added row.accountId row.providerCallId phase ?_ hphases (hphase.imp_left And.right)
    simp [names,hcalls,CallRow.name,hid]
  | linked id dialed hphase hcalls hphases =>
    refine .linked id (fitted dialed) dialed hphase ?_ hphases
    rw [names,hcalls]
    simp only [names,edit,Table.edit,List.map_map]
    apply List.map_congr_left
    intro row _
    by_cases hid : row.id = id <;> simp [hid,link,CallRow.name,CallRow.linked,fitted]

end Steps

/-- Calls are numbered as they come, and one that is not linked is still being
placed. -/
structure Dialed (w : World) : Prop where
  numbered : w.names.map Prod.fst = List.range w.names.length
  phased : w.phases.length = w.names.length
  unlinked : ∀ name ∈ w.names, w.phases[name.1]? = some .closed ∨ name.2.2 = none

theorem Dialed.moved {w w' : World} (hw : w.Dialed) (h : Names w w') : w'.Dialed := by
  have hlt : ∀ name ∈ w.names, name.1 < w.phases.length := by
    intro name hname
    have hmem := List.mem_map_of_mem (f := Prod.fst) hname
    rw [hw.numbered,List.mem_range] at hmem
    exact hw.phased ▸ hmem
  cases h with
  | same hnames hlength hclosed =>
    refine ⟨by rw [hnames,hw.numbered],by rw [hnames,hlength,hw.phased],?_⟩
    intro name hname
    rw [hnames] at hname
    exact (hw.unlinked name hname).imp_left (hclosed name.1)
  | added _ _ _ hnames hphases hphase =>
    refine ⟨?_,?_,?_⟩
    · rw [hnames,List.map_append,hw.numbered,List.length_append,List.length_singleton,
        List.range_succ]
      rfl
    · rw [hnames,hphases]
      simp [hw.phased]
    · intro name hname
      rw [hnames] at hname
      rw [hphases]
      rcases Table.mem_concat hname with hold | rfl
      · rw [List.getElem?_append_left (hlt name hold)]
        exact hw.unlinked name hold
      · rw [← hw.phased,List.getElem?_concat_length]
        rcases hphase with hnone | hclosed
        · exact .inr hnone
        · exact .inl (congrArg some hclosed)
  | linked id providerCallId _ _ hnames hphases =>
    have hfst : ∀ name, (link id providerCallId name).1 = name.1 := by
      intro name
      unfold link
      split <;> rfl
    refine ⟨?_,?_,?_⟩
    · rw [hnames,List.map_map,List.length_map,← hw.numbered]
      exact List.map_congr_left fun name _ => hfst name
    · rw [hnames,hphases,List.length_set,List.length_map,hw.phased]
    · intro name hname
      rw [hnames] at hname
      obtain ⟨name₀,hname₀,rfl⟩ := List.mem_map.mp hname
      rw [hphases,hfst]
      by_cases hid : name₀.1 = id
      · left
        rw [hid,List.getElem?_set_self (hid ▸ hlt name₀ hname₀)]
      · rw [List.getElem?_set_ne (fun h => hid h.symm),link,if_neg hid]
        exact hw.unlinked name₀ hname₀

theorem Named.moved {w w' : World} {accountId id : ℕ} {providerCallId : String}
    (hname : w.Named accountId providerCallId id) (hw : w.Dialed) (h : Names w w') :
    w'.Named accountId providerCallId id := by
  unfold Named at hname ⊢
  cases h with
  | same hnames => exact hnames ▸ hname
  | added _ _ _ hnames => exact hnames ▸ List.mem_append_left _ hname
  | linked linked _ _ hphase hnames =>
    rw [hnames]
    refine List.mem_map.mpr ⟨_,hname,?_⟩
    -- the call that is linked had no link
    have hne : id ≠ linked := by
      rintro rfl
      rcases hw.unlinked _ hname with hclosed | hnone
      · rw [hphase] at hclosed
        cases hclosed
      · cases hnone
    exact if_neg hne

end World

end NexusAi.Telephony
