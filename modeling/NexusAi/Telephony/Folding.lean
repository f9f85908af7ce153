import NexusAi.Lib.Batch
import NexusAi.Telephony.Calls

/-!
# Claims of events and the calls they name

A provider gives every callback an id of its own. Every claim of an event then
stands for a fold into the call that the event names, and every event with an
outcome other than deferred has its claim.
-/

namespace NexusAi.Telephony

inductive Callback where
  | inbound (call : NormalizedInboundCall)
  | event (event : NormalizedCallEvent)

/-- A callback comes from the provider, which gives an account's callbacks different
ids. -/
def Authentic (issued : ℕ → String → Callback) : Action → Prop
  | .arrive accountId inbound => issued accountId inbound.providerEventId = .inbound inbound
  | .receive accountId events =>
    ∀ event ∈ events, issued accountId event.providerEventId = .event event
  | _ => True

namespace World

/-- What a step can do to claims, callbacks and folds. -/
inductive Moves (w : World) (a : Action) (w' : World) : Prop
  | quiet (hevents : w'.events = w.events) (hrequests : w'.requests = w.requests)
      (harrivals : w'.arrivals = w.arrivals) (hfolds : w'.folds = w.folds)
  | arrive (accountId : ℕ) (inbound : NormalizedInboundCall) (ha : a = .arrive accountId inbound)
      (hevents : w'.events = w.events) (hrequests : w'.requests = w.requests)
      (harrivals : w'.arrivals = w.arrivals++[⟨accountId,inbound,.arrived⟩])
      (hfolds : w'.folds = w.folds)
  | arrival (k : ℕ) (phase : ArrivalPhase) (arrival : Arrival)
      (hk : w.arrivals[k]? = some arrival)
      (hevents : w'.events = w.events ∨ w'.events = w.events++[inboundClaim arrival])
      (hrequests : w'.requests = w.requests)
      (harrivals : w'.arrivals = w.arrivals.modify k fun a => { a with phase := phase })
      (hfolds : w'.folds = w.folds)
  | receive (accountId : ℕ) (events : List NormalizedCallEvent) (ha : a = .receive accountId events)
      (hevents : w'.events = w.events)
      (hrequests : w'.requests = w.requests++[⟨accountId,events,[],false⟩])
      (harrivals : w'.arrivals = w.arrivals) (hfolds : w'.folds = w.folds)
  | request (j : ℕ) (f : Request → Request) (r : Request) (hj : w.requests[j]? = some r)
      (hevents : w'.events = w.events) (hrequests : w'.requests = w.requests.modify j f)
      (harrivals : w'.arrivals = w.arrivals) (hfolds : w'.folds = w.folds)
      (hkind : f r = r.dropped ∨ ∃ event, r.events[r.done.length]? = some event ∧
        ((f r = r.ended .replayed ∧ ∃ claim ∈ w.events,
            claim.identity = (r.accountId,event.providerEventId)) ∨
          (f r = r.ended .deferred ∧ (∃ now, a = .process j now) ∧
            byProviderCallId r.accountId event.providerCallId w.calls = none)))
  | fold (j : ℕ) (now : ℤ) (r : Request) (event : NormalizedCallEvent) (row : CallRow)
      (hj : w.requests[j]? = some r) (hevent : r.events[r.done.length]? = some event)
      (hrow : byProviderCallId r.accountId event.providerCallId w.calls = some row)
      (hevents : w'.events = w.events++[⟨r.accountId,event.providerEventId,event.providerCallId,
        event.payload.eventType⟩])
      (hrequests : w'.requests = w.requests.modify j
        (Request.ended (foldEvent event now row w.sessions).outcome))
      (harrivals : w'.arrivals = w.arrivals)
      (hfolds : w'.folds = w.folds++[⟨r.accountId,event,row.id,row,
        (foldEvent event now row w.sessions).row⟩])

section Steps

variable {w w' : World} {a : Action}

theorem moves_self (w : World) : Moves w a w := .quiet rfl rfl rfl rfl

theorem fail_moves (w : World) (id : ℕ) (code : String) (now : ℤ) (phases : List PlacePhase) :
    Moves w a { w.fail id code now with phases := phases } := by
  unfold fail
  split
  · split <;> exact .quiet rfl rfl rfl rfl
  · exact .quiet rfl rfl rfl rfl

theorem check_moves (w : World) (k : ℕ) : Moves w a (w.checkStep k) := by
  unfold checkStep
  split
  · rename_i hk
    split_ifs
    · exact moves_self w
    · exact .arrival k .replayed _ hk (.inl rfl) rfl rfl rfl
    · exact .arrival k .failed _ hk (.inl rfl) rfl rfl rfl
    · split
      · exact .arrival k .duplicate _ hk (.inr rfl) rfl rfl rfl
      · exact .arrival k .checked _ hk (.inl rfl) rfl rfl rfl
  · exact moves_self w

theorem admit_moves (w : World) (k : ℕ) (now : ℤ) : Moves w a (w.admitStep k now) := by
  unfold admitStep
  split
  · rename_i hk
    split
    · exact .arrival k .replayed _ hk (.inl rfl) rfl rfl rfl
    · exact .arrival k .created _ hk (.inr rfl) rfl rfl rfl
  · exact moves_self w

theorem process_moves (w : World) (j : ℕ) (now : ℤ) :
    Moves w (.process j now) (w.processStep j now) := by
  unfold processStep
  split
  · rename_i hj
    split
    · exact moves_self w
    · rename_i event hevent
      split_ifs with _ hfound _
      · exact moves_self w
      · obtain ⟨claim,hclaim⟩ := Option.isSome_iff_exists.mp hfound
        exact .request j _ _ hj rfl rfl rfl rfl (.inr ⟨event,hevent,.inl ⟨rfl,claim,
          Table.find_mem hclaim,Table.find_key hclaim⟩⟩)
      · exact .request j _ _ hj rfl rfl rfl rfl (.inl rfl)
      · split
        · rename_i hnone
          exact .request j _ _ hj rfl rfl rfl rfl
            (.inr ⟨event,hevent,.inr ⟨rfl,⟨now,rfl⟩,hnone⟩⟩)
        · rename_i row hrow
          exact .fold j now _ event row hj hevent hrow rfl rfl rfl rfl
  · exact moves_self w

theorem drop_moves (w : World) (j : ℕ) : Moves w a (w.enterRequest j Request.dropped) := by
  cases hj : w.requests[j]? with
  | none =>
    have hlen : w.requests.length ≤ j := List.getElem?_eq_none_iff.mp hj
    have hsame : w.enterRequest j Request.dropped = w := by
      simp [enterRequest,List.modify_eq_self hlen]
    rw [hsame]
    exact moves_self w
  | some r => exact .request j _ r hj rfl rfl rfl rfl (.inl rfl)

theorem step_moves (w : World) (a : Action) : Moves w a (w.step a) := by
  cases a with
  | create => exact .quiet rfl rfl rfl rfl
  | dispatch =>
    simp only [step,dispatchStep]
    split
    · split <;> exact .quiet rfl rfl rfl rfl
    · exact moves_self w
  | revoke id now => exact fail_moves w id _ now _
  | place =>
    simp only [step,placeStep]
    split <;> exact .quiet rfl rfl rfl rfl
  | link =>
    simp only [step,linkStep]
    split
    · split <;> exact .quiet rfl rfl rfl rfl
    · exact moves_self w
  | mark id now =>
    simp only [step,markStep]
    split
    · exact fail_moves w id _ now _
    · exact .quiet rfl rfl rfl rfl
    · exact moves_self w
  | die =>
    simp only [step]
    split <;> exact .quiet rfl rfl rfl rfl
  | hangup =>
    simp only [step,hangupStep]
    split
    · split <;> exact .quiet rfl rfl rfl rfl
    · exact moves_self w
  | arrive accountId inbound => exact .arrive accountId inbound rfl rfl rfl rfl rfl
  | check k => exact check_moves w k
  | admitCall k now => exact admit_moves w k now
  | receive accountId events => exact .receive accountId events rfl rfl rfl rfl rfl
  | process j now => exact process_moves w j now
  | drop j => exact drop_moves w j

end Steps

structure Tracked (issued : ℕ → String → Callback) (w : World) : Prop where
  folded : ∀ f ∈ w.folds, w.Named f.accountId f.event.providerCallId f.callId ∧
    f.before.id = f.callId ∧ ∃ now sessions, f.after = (foldEvent f.event now f.before sessions).row
  genuine : ∀ r ∈ w.requests, ∀ event ∈ r.events,
    issued r.accountId event.providerEventId = .event event
  rung : ∀ arrival ∈ w.arrivals,
    issued arrival.accountId arrival.inbound.providerEventId = .inbound arrival.inbound
  claimed : ∀ claim ∈ w.events, ∀ event,
    issued claim.accountId claim.providerEventId = .event event →
      ∃ f ∈ w.folds, f.accountId = claim.accountId ∧ f.event = event
  answered : ∀ r ∈ w.requests, Batch.Each (fun event outcome => outcome ≠ .deferred →
    ∃ claim ∈ w.events, claim.identity = (r.accountId,event.providerEventId)) r.events r.done

section Runs

variable {issued : ℕ → String → Callback} {w w' : World} {a : Action}

theorem byProviderCallId_named {accountId : ℕ} {providerCallId : String} {row : CallRow}
    (h : byProviderCallId accountId providerCallId w.calls = some row) :
    w.Named accountId providerCallId row.id := by
  have hrow := List.find?_some h
  simp only [decide_eq_true_eq] at hrow
  refine List.mem_map.mpr ⟨row,List.mem_of_find?_eq_some h,?_⟩
  rw [CallRow.name,hrow.1,hrow.2]

theorem Tracked.folded_step (hw : w.Tracked issued) (hd : w.Dialed) (hnames : Names w w')
    (h : Moves w a w') (f : Fold) (hf : f ∈ w'.folds) :
    w'.Named f.accountId f.event.providerCallId f.callId ∧ f.before.id = f.callId ∧
      ∃ now sessions, f.after = (foldEvent f.event now f.before sessions).row := by
  have hold : f ∈ w.folds → w'.Named f.accountId f.event.providerCallId f.callId ∧
      f.before.id = f.callId ∧
      ∃ now sessions, f.after = (foldEvent f.event now f.before sessions).row := by
    intro hmem
    obtain ⟨hname,hrest⟩ := hw.folded f hmem
    exact ⟨hname.moved hd hnames,hrest⟩
  cases h with
  | quiet _ _ _ hfolds | arrive _ _ _ _ _ _ hfolds | arrival _ _ _ _ _ _ _ hfolds
  | receive _ _ _ _ _ _ hfolds | request _ _ _ _ _ _ _ hfolds => exact hold (hfolds ▸ hf)
  | fold _ now _ _ _ _ _ hrow _ _ _ hfolds =>
    rw [hfolds] at hf
    rcases Table.mem_concat hf with hmem | rfl
    · exact hold hmem
    · exact ⟨(byProviderCallId_named hrow).moved hd hnames,rfl,now,w.sessions,rfl⟩

/-- A step leaves a request as it is, drops it or gives its next event an outcome. -/
inductive Progress (w : World) (r r' : Request) : Prop
  | same (h : r' = r)
  | dropped (h : r' = r.dropped)
  | ended (event : NormalizedCallEvent) (outcome : Processed)
      (hevent : r.events[r.done.length]? = some event) (h : r' = r.ended outcome)
      (houtcome : outcome ≠ .deferred → ∃ claim ∈ w.events,
        claim.identity = (r.accountId,event.providerEventId))

theorem modify_progress {j : ℕ} {f : Request → Request} {r r' : Request}
    (hj : w.requests[j]? = some r) (hr' : r' ∈ w.requests.modify j f)
    (hf : Progress w' r (f r)) : ∃ r₀ ∈ w.requests, Progress w' r₀ r' := by
  rcases Batch.mem_modify hj hr' with rfl | hold
  · exact ⟨r,List.mem_of_getElem? hj,hf⟩
  · exact ⟨r',hold,.same rfl⟩

theorem moves_progress (h : Moves w a w') (r' : Request) (hr' : r' ∈ w'.requests) :
    (∃ accountId events, a = .receive accountId events ∧ r' = ⟨accountId,events,[],false⟩) ∨
      ∃ r ∈ w.requests, Progress w' r r' := by
  cases h with
  | quiet _ hrequests | arrive _ _ _ _ hrequests | arrival _ _ _ _ _ hrequests =>
    exact .inr ⟨r',hrequests ▸ hr',.same rfl⟩
  | receive accountId events ha _ hrequests =>
    rw [hrequests] at hr'
    rcases List.mem_append.mp hr' with hold | hnew
    · exact .inr ⟨r',hold,.same rfl⟩
    · exact .inl ⟨accountId,events,ha,List.mem_singleton.mp hnew⟩
  | request _ _ _ hj hevents hrequests _ _ hkind =>
    rw [hrequests] at hr'
    refine .inr (modify_progress hj hr' ?_)
    rcases hkind with hf | ⟨event,hevent,⟨hf,hclaim⟩ | ⟨hf,-⟩⟩
    · exact .dropped hf
    · exact .ended event _ hevent hf fun _ => hevents ▸ hclaim
    · exact .ended event _ hevent hf fun hne => absurd rfl hne
  | fold _ _ _ event _ hj hevent _ hevents hrequests =>
    rw [hrequests] at hr'
    refine .inr (modify_progress hj hr' (.ended event _ hevent rfl fun _ => ?_))
    exact ⟨_,hevents ▸ List.mem_append_right _ (List.mem_singleton_self _),rfl⟩

theorem moves_events (h : Moves w a w') (claim : EventRow) (hclaim : claim ∈ w'.events) :
    claim ∈ w.events ∨ (∃ arrival ∈ w.arrivals, claim = inboundClaim arrival) ∨
      ∃ r ∈ w.requests, ∃ event ∈ r.events, claim.identity = (r.accountId,event.providerEventId) ∧
        ∃ f ∈ w'.folds, f.accountId = r.accountId ∧ f.event = event := by
  cases h with
  | quiet hevents | arrive _ _ _ hevents | receive _ _ _ hevents | request _ _ _ _ hevents =>
    exact .inl (hevents ▸ hclaim)
  | arrival _ _ arrival hk hevents =>
    rcases hevents with hevents | hevents
    · exact .inl (hevents ▸ hclaim)
    · rw [hevents] at hclaim
      rcases List.mem_append.mp hclaim with hold | hnew
      · exact .inl hold
      · exact .inr (.inl ⟨arrival,List.mem_of_getElem? hk,List.mem_singleton.mp hnew⟩)
  | fold _ _ r event _ hj hevent _ hevents _ _ hfolds =>
    rw [hevents] at hclaim
    rcases List.mem_append.mp hclaim with hold | hnew
    · exact .inl hold
    · refine .inr (.inr ⟨r,List.mem_of_getElem? hj,event,List.mem_of_getElem? hevent,?_,_,
        hfolds ▸ List.mem_append_right _ (List.mem_singleton_self _),rfl,rfl⟩)
      rw [List.mem_singleton.mp hnew]
      rfl

theorem moves_grow (h : Moves w a w') :
    (∀ claim ∈ w.events, claim ∈ w'.events) ∧ ∀ f ∈ w.folds, f ∈ w'.folds := by
  cases h with
  | quiet hevents _ _ hfolds | arrive _ _ _ hevents _ _ hfolds
  | receive _ _ _ hevents _ _ hfolds | request _ _ _ _ hevents _ _ hfolds =>
    rw [hevents,hfolds]
    exact ⟨fun _ h => h,fun _ h => h⟩
  | arrival _ _ _ _ hevents _ _ hfolds =>
    rw [hfolds]
    refine ⟨fun claim hclaim => ?_,fun _ h => h⟩
    rcases hevents with hevents | hevents <;> rw [hevents]
    · exact hclaim
    · exact List.mem_append_left _ hclaim
  | fold _ _ _ _ _ _ _ _ hevents _ _ hfolds =>
    rw [hevents,hfolds]
    exact ⟨fun _ h => List.mem_append_left _ h,fun _ h => List.mem_append_left _ h⟩

section

variable (hw : w.Tracked issued)

include hw

theorem Tracked.genuine_step (ha : Authentic issued a) (h : Moves w a w') (r' : Request)
    (hr' : r' ∈ w'.requests) (event : NormalizedCallEvent) (hevent : event ∈ r'.events) :
    issued r'.accountId event.providerEventId = .event event := by
  rcases moves_progress h r' hr' with ⟨_,_,rfl,rfl⟩ | ⟨r,hr,hprogress⟩
  · exact ha event hevent
  · cases hprogress with
    | same hsame => exact hw.genuine r' (hsame ▸ hr) event hevent
    | dropped hdropped =>
      rw [hdropped] at hevent ⊢
      unfold Request.dropped at hevent ⊢
      split_ifs at hevent ⊢ <;> exact hw.genuine r hr event hevent
    | ended _ _ _ hended =>
      subst hended
      exact hw.genuine r hr event hevent

theorem Tracked.rung_step (ha : Authentic issued a) (h : Moves w a w') (arrival : Arrival)
    (harrival : arrival ∈ w'.arrivals) :
    issued arrival.accountId arrival.inbound.providerEventId = .inbound arrival.inbound := by
  cases h with
  | quiet _ _ harrivals | receive _ _ _ _ _ harrivals | request _ _ _ _ _ _ harrivals
  | fold _ _ _ _ _ _ _ _ _ _ harrivals => exact hw.rung arrival (harrivals ▸ harrival)
  | arrive accountId inbound haction _ _ harrivals =>
    rw [harrivals] at harrival
    rcases Table.mem_concat harrival with hold | rfl
    · exact hw.rung arrival hold
    · exact (haction ▸ ha : Authentic issued (.arrive accountId inbound))
  | arrival _ _ arrival₀ hk _ _ harrivals =>
    rw [harrivals] at harrival
    rcases Batch.mem_modify hk harrival with rfl | hold
    · exact hw.rung arrival₀ (List.mem_of_getElem? hk)
    · exact hw.rung arrival hold

theorem Tracked.claimed_step (h : Moves w a w') (claim : EventRow) (hclaim : claim ∈ w'.events)
    (event : NormalizedCallEvent)
    (hissued : issued claim.accountId claim.providerEventId = .event event) :
    ∃ f ∈ w'.folds, f.accountId = claim.accountId ∧ f.event = event := by
  rcases moves_events h claim hclaim with hold | ⟨arrival,harrival,rfl⟩ |
    ⟨r,hr,event',hevent',hid,f,hf,haccount,hfolded⟩
  · obtain ⟨f,hf,hfolded⟩ := hw.claimed claim hold event hissued
    exact ⟨f,(moves_grow h).2 f hf,hfolded⟩
  · have hrung := hw.rung arrival harrival
    rw [show issued arrival.accountId arrival.inbound.providerEventId = .event event from hissued]
      at hrung
    cases hrung
  · have hgenuine := hw.genuine r hr event' hevent'
    have hacc : claim.accountId = r.accountId := congrArg Prod.fst hid
    have hev : claim.providerEventId = event'.providerEventId := congrArg Prod.snd hid
    rw [hacc,hev,hgenuine] at hissued
    cases hissued
    exact ⟨f,hf,haccount.trans hacc.symm,hfolded⟩

theorem Tracked.answered_step (h : Moves w a w') (r' : Request) (hr' : r' ∈ w'.requests) :
    Batch.Each (fun event outcome => outcome ≠ .deferred → ∃ claim ∈ w'.events,
      claim.identity = (r'.accountId,event.providerEventId)) r'.events r'.done := by
  rcases moves_progress h r' hr' with ⟨accountId,events,-,rfl⟩ | ⟨r,hr,hprogress⟩
  · exact Batch.each_nil
  · have hold : Batch.Each (fun event outcome => outcome ≠ .deferred → ∃ claim ∈ w'.events,
        claim.identity = (r.accountId,event.providerEventId)) r.events r.done := by
      refine (hw.answered r hr).mono fun event outcome hclaim hne => ?_
      obtain ⟨claim,hmem,hid⟩ := hclaim hne
      exact ⟨claim,(moves_grow h).1 claim hmem,hid⟩
    cases hprogress with
    | same hsame => exact hsame ▸ hold
    | dropped hdropped =>
      rw [hdropped]
      unfold Request.dropped
      split <;> exact hold
    | ended _ _ hcurrent hended houtcome =>
      rw [hended]
      exact hold.concat hcurrent houtcome

theorem Tracked.step (hd : w.Dialed) (ha : Authentic issued a) : (w.step a).Tracked issued where
  folded := hw.folded_step hd (step_names w a) (step_moves w a)
  genuine := hw.genuine_step ha (step_moves w a)
  rung := hw.rung_step ha (step_moves w a)
  claimed := hw.claimed_step (step_moves w a)
  answered := hw.answered_step (step_moves w a)

end

theorem dialed_initial : initial.Dialed where
  numbered := rfl
  phased := rfl
  unlinked := by simp [names,initial]

theorem tracked_initial : initial.Tracked issued where
  folded := by simp [initial]
  genuine := by simp [initial]
  rung := by simp [initial]
  claimed := by simp [initial]
  answered := by simp [initial]

theorem tracked_reach {as : List Action} (h : ∀ a ∈ as, Authentic issued a) :
    (reach as).Tracked issued := by
  have hboth : (reach as).Dialed ∧ (reach as).Tracked issued :=
    Run.exec_conforming World.step (fun _ a => Authentic issued a)
      (fun w => w.Dialed ∧ w.Tracked issued)
      (fun w a ha hw => ⟨hw.1.moved (step_names w a),hw.2.step hw.1 ha⟩) as initial
      (Run.conforms_of_forall World.step (Authentic issued) as initial h)
      ⟨dialed_initial,tracked_initial⟩
  exact hboth.2

end Runs

end World

end NexusAi.Telephony
