import NexusAi.Messaging.Tracking

/-!
# The progress of callback requests

What a step makes of a request, and from it that every status with an outcome
other than deferred has its receipt, and every receipt its fold.
-/

namespace NexusAi.Messaging

namespace World

section Steps

variable {w w' : World} {a : Action}

/-- A step either leaves a request as it is, gives it an outcome, lets it see the
message that its next status names, or drops it; a new one has done nothing. -/
inductive Progress (w : World) (r r' : Request) : Prop
  | same (h : r' = r)
  | dropped (h : r' = r.dropped)
  | ended (status : NormalizedStatus) (outcome : FoldOutcome) (hcurrent : r.current = some status)
      (h : r' = r.ended outcome)
      (houtcome : outcome ≠ .deferred → ∃ receipt ∈ w.receipts,
        receipt.identity = (r.accountId,statusEventId status))
  | saw (status : NormalizedStatus) (seen : MessageRow) (hcurrent : r.current = some status)
      (hphase : r.phase = .ready) (h : r' = { r with phase := .folding seen })
      (hnamed : w.Named r.accountId status.providerMessageId seen.id) (hseen : seen ∈ w.messages)

theorem moves_receipts (h : Moves w a w') : ∀ receipt ∈ w.receipts, receipt ∈ w'.receipts := by
  intro receipt hreceipt
  cases h with
  | quiet _ _ hsame | queue _ _ _ _ hsame | mark _ _ _ _ _ _ _ _ _ hsame =>
    exact hsame.receipts ▸ hreceipt
  | request _ _ _ _ _ _ hreceipts | receive _ _ _ _ hreceipts => exact hreceipts ▸ hreceipt
  | fold _ _ _ _ _ _ _ _ _ _ _ hreceipts =>
    obtain ⟨_,hreceipts⟩ := hreceipts
    rw [hreceipts]
    exact List.mem_append_left _ hreceipt

theorem modify_progress {j : ℕ} {f : Request → Request} {r r' : Request}
    (hj : w.requests[j]? = some r) (hr' : r' ∈ w.requests.modify j f)
    (hf : Progress w' r (f r)) : ∃ r₀ ∈ w.requests, Progress w' r₀ r' := by
  rcases Batch.mem_modify hj hr' with rfl | hold
  · exact ⟨r,List.mem_of_getElem? hj,hf⟩
  · exact ⟨r',hold,.same rfl⟩

section

variable (hs : w.Sends) (hw : w.Tracked) (h : Moves w a w') (r' : Request) (hr' : r' ∈ w'.requests)

include hs hw h r' hr'

theorem Tracked.progress :
    (r'.done = [] ∧ r'.phase = .ready) ∨ ∃ r ∈ w.requests, Progress w' r r' := by
  have hkept := hw.kept hs h
  have hreceived := moves_receipts h
  cases h with
  | quiet _ _ hsame | queue _ _ _ _ hsame | mark _ _ _ _ _ _ _ _ _ hsame =>
    exact .inr ⟨r',hsame.requests ▸ hr',.same rfl⟩
  | request _ _ _ hj hmessages _ _ _ hrequests hkind =>
    rw [hrequests] at hr'
    refine .inr (modify_progress hj hr' ?_)
    rcases hkind with hf | ⟨status,hcurrent,hphase,
      ⟨hf,receipt,hreceipt,hid⟩ | ⟨hf,-,-⟩ | ⟨seen,hf,hseen⟩⟩
    · exact .dropped hf
    · exact .ended status _ hcurrent hf fun _ => ⟨receipt,hreceived receipt hreceipt,hid⟩
    · exact .ended status _ hcurrent hf fun h => absurd rfl h
    · exact .saw status seen hcurrent hphase hf ((byProviderId_named hseen).kept hkept)
        (hmessages ▸ List.mem_of_find?_eq_some hseen)
  | receive _ hr _ _ _ _ hrequests =>
    rw [hrequests] at hr'
    rcases List.mem_append.mp hr' with hold | hnew
    · exact .inr ⟨r',hold,.same rfl⟩
    · exact .inl (List.mem_singleton.mp hnew ▸ hr)
  | fold _ _ _ _ status _ hj _ hcurrent _ _ hreceipts _ hrequests =>
    obtain ⟨_,hreceipts⟩ := hreceipts
    obtain ⟨outcome,-,hrequests⟩ := hrequests
    rw [hrequests] at hr'
    refine .inr (modify_progress hj hr' (.ended status outcome hcurrent rfl fun _ => ?_))
    exact ⟨_,hreceipts ▸ List.mem_append_right _ (List.mem_singleton_self _),rfl⟩

theorem Tracked.seen_step (seen : MessageRow) (hphase : r'.phase = .folding seen) :
    ∃ status, r'.current = some status ∧
      w'.Named r'.accountId status.providerMessageId seen.id := by
  rcases hw.progress hs h r' hr' with ⟨-,hready⟩ | ⟨r,hr,hprogress⟩
  · rw [hready] at hphase
    cases hphase
  · have hold : r.phase = .folding seen → ∃ status, r.current = some status ∧
        w'.Named r.accountId status.providerMessageId seen.id := by
      intro hfolding
      obtain ⟨status,hcurrent,hnamed⟩ := hw.seen r hr seen hfolding
      exact ⟨status,hcurrent,hnamed.kept (hw.kept hs h)⟩
    cases hprogress with
    | same hsame => exact hsame ▸ hold (hsame ▸ hphase)
    | dropped hdropped =>
      rw [hdropped] at hphase ⊢
      unfold Request.dropped at hphase ⊢
      split_ifs at hphase ⊢ with hanswer
      exact hold hphase
    | ended _ _ _ hended =>
      rw [hended] at hphase
      cases hphase
    | saw status _ hcurrent _ hsaw hnamed =>
      subst hsaw
      cases hphase
      exact ⟨status,hcurrent,hnamed⟩

theorem Tracked.answered_step : Batch.Each (fun status outcome => outcome ≠ .deferred →
      ∃ receipt ∈ w'.receipts, receipt.identity = (r'.accountId,statusEventId status))
        r'.statuses r'.done := by
  rcases hw.progress hs h r' hr' with ⟨hempty,-⟩ | ⟨r,hr,hprogress⟩
  · rw [hempty]
    exact Batch.each_nil
  · have hold : Batch.Each (fun status outcome => outcome ≠ .deferred →
        ∃ receipt ∈ w'.receipts, receipt.identity = (r.accountId,statusEventId status))
          r.statuses r.done := by
      refine (hw.answered r hr).mono fun status outcome hreceipt hne => ?_
      obtain ⟨receipt,hmem,hid⟩ := hreceipt hne
      exact ⟨receipt,moves_receipts h receipt hmem,hid⟩
    cases hprogress with
    | same hsame => exact hsame ▸ hold
    | dropped hdropped =>
      rw [hdropped]
      unfold Request.dropped
      split <;> exact hold
    | ended _ _ hcurrent hended houtcome =>
      rw [hended]
      exact hold.concat hcurrent houtcome
    | saw _ _ _ _ hsaw =>
      rw [hsaw]
      exact hold

end

theorem Tracked.folded_step (hs : w.Sends) (hw : w.Tracked) (h : Moves w a w') (f : Fold)
    (hf : f ∈ w'.folds) :
    ∃ status : NormalizedStatus, f.eventId = statusEventId status ∧
      f.reported = status.status ∧
      w'.Named f.accountId status.providerMessageId f.messageId := by
  have hkept := hw.kept hs h
  have hold : f ∈ w.folds → ∃ status : NormalizedStatus, f.eventId = statusEventId status ∧
      f.reported = status.status ∧
      w'.Named f.accountId status.providerMessageId f.messageId := by
    intro hmem
    obtain ⟨status,hevent,hreported,hnamed⟩ := hw.folded f hmem
    exact ⟨status,hevent,hreported,hnamed.kept hkept⟩
  cases h with
  | quiet _ _ hsame | queue _ _ _ _ hsame | mark _ _ _ _ _ _ _ _ _ hsame =>
    exact hold (hsame.folds ▸ hf)
  | request _ _ _ _ _ _ _ hfolds | receive _ _ _ _ _ hfolds => exact hold (hfolds ▸ hf)
  | fold _ _ r seen status _ hj hphase hcurrent _ _ _ hfolds =>
    rw [hfolds] at hf
    rcases Table.mem_concat hf with hmem | rfl
    · exact hold hmem
    · obtain ⟨_,hcurrent₀,hnamed⟩ := hw.seen r (List.mem_of_getElem? hj) seen hphase
      rw [hcurrent] at hcurrent₀
      exact ⟨status,rfl,rfl,(Option.some.inj hcurrent₀ ▸ hnamed).kept hkept⟩

theorem Tracked.applied_step (hw : w.Tracked) (h : Moves w a w') (f : Fold) (hf : f ∈ w'.folds) :
    f.after = (applyCallback f.before f.reported).status := by
  cases h with
  | quiet _ _ hsame | queue _ _ _ _ hsame | mark _ _ _ _ _ _ _ _ _ hsame =>
    exact hw.applied f (hsame.folds ▸ hf)
  | request _ _ _ _ _ _ _ hfolds | receive _ _ _ _ _ hfolds => exact hw.applied f (hfolds ▸ hf)
  | fold _ _ _ _ _ _ _ _ _ _ _ _ hfolds =>
    rw [hfolds] at hf
    rcases List.mem_append.mp hf with hmem | hnew
    · exact hw.applied f hmem
    · rw [List.mem_singleton.mp hnew]

theorem Tracked.receipted_step (hw : w.Tracked) (h : Moves w a w') (receipt : ReceiptRow)
    (hreceipt : receipt ∈ w'.receipts) :
    ∃ f ∈ w'.folds, f.accountId = receipt.accountId ∧ f.eventId = receipt.eventId := by
  cases h with
  | quiet _ _ hsame | queue _ _ _ _ hsame | mark _ _ _ _ _ _ _ _ _ hsame =>
    rw [hsame.folds]
    exact hw.receipted receipt (hsame.receipts ▸ hreceipt)
  | request _ _ _ _ _ _ hreceipts hfolds | receive _ _ _ _ hreceipts hfolds =>
    rw [hfolds]
    exact hw.receipted receipt (hreceipts ▸ hreceipt)
  | fold _ _ _ _ _ _ _ _ _ _ _ hreceipts hfolds =>
    obtain ⟨_,hreceipts⟩ := hreceipts
    rw [hreceipts] at hreceipt
    rw [hfolds]
    rcases Table.mem_concat hreceipt with hold | rfl
    · obtain ⟨f,hf,hsame⟩ := hw.receipted receipt hold
      exact ⟨f,List.mem_append_left _ hf,hsame⟩
    · exact ⟨_,List.mem_append_right _ (List.mem_singleton_self _),rfl,rfl⟩

theorem Tracked.moved (hs : w.Sends) (hw : w.Tracked) (h : Moves w a w') : w'.Tracked where
  unmarked := hw.unmarked_step hs h
  apart := hw.apart_step hs h
  unique := hw.unique_step hs h
  short := hw.short_step hs h
  seen := hw.seen_step hs h
  folded := hw.folded_step hs h
  applied := hw.applied_step h
  receipted := hw.receipted_step h
  answered := hw.answered_step hs h

theorem tracked_initial : initial.Tracked where
  unmarked := by simp [initial]
  apart := by simp [initial]
  unique := by simp [initial]
  short := by simp [initial]
  seen := by simp [initial]
  folded := by simp [initial]
  applied := by simp [initial]
  receipted := by simp [initial]
  answered := by simp [initial]

theorem tracked_reach (as : List Action) : (reach as).Tracked := by
  have hboth : (reach as).Sends ∧ (reach as).Tracked :=
    Run.exec_invariant step (fun w => w.Sends ∧ w.Tracked)
      (fun w a h => ⟨h.1.step a,h.2.moved h.1 (step_moves w a)⟩) as initial
      ⟨sends_initial,tracked_initial⟩
  exact hboth.2

end Steps

end World

end NexusAi.Messaging
