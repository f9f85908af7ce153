import NexusAi.Messaging.Callbacks

/-!
# Callbacks and the messages they name

A callback finds a message only after the send has linked it to the provider's
id, and no later step unlinks it. Every receipt stands for a fold into the
message that the callback names: the id of the event holds the provider's id and
the word of the status, and is never cut short for a linked message.
-/

namespace NexusAi.Messaging

theorem plain_split {a b s t : List Char} (hs : ':' ∉ s) (ht : ':' ∉ t)
    (h : a++ ':'::s = b++ ':'::t) : a = b ∧ s = t := by
  have hrev : s.reverse++ ':'::a.reverse = t.reverse++ ':'::b.reverse := by
    have := congrArg List.reverse h
    simpa using this
  have hword : ∀ {x y : List Char}, ':' ∉ x →
      (x.reverse++ ':'::y).takeWhile (fun c => c ≠ ':') = x.reverse := by
    intro x y hx
    rw [List.takeWhile_append_of_pos]
    · simp
    · intro c hc
      simp only [decide_eq_true_eq]
      rintro rfl
      exact hx (List.mem_reverse.mp hc)
  have hst : s.reverse = t.reverse := by
    rw [← hword (y := a.reverse) hs,hrev,hword ht]
  have hst' : s = t := List.reverse_injective hst
  subst hst'
  refine ⟨?_,rfl⟩
  exact List.append_cancel_right h

theorem statusEventId_inj {s t : NormalizedStatus} (h : statusEventId s = statusEventId t)
    (hshort : s.providerMessageId.toList.length ≤ 200) :
    s.providerMessageId = t.providerMessageId ∧ s.status = t.status := by
  have htext : ∀ u : NormalizedStatus, (statusEventId u).toList =
      ("st:".toList++(u.providerMessageId.toList++ ':'::u.providerStatus.toList)).take 400 := by
    intro u
    simp [statusEventId,clip]
  have hs := statusMap_plain s.channel _ s.mapped
  have ht := statusMap_plain t.channel _ t.mapped
  have hlen : ∀ u : NormalizedStatus,
      ("st:".toList++(u.providerMessageId.toList++ ':'::u.providerStatus.toList)).length =
        u.providerMessageId.toList.length+u.providerStatus.toList.length+4 := by
    intro u
    simp
    omega
  have hlist := congrArg String.toList h
  rw [htext, htext, List.take_of_length_le (by rw [hlen]; simp only at hs; omega)] at hlist
  -- the right side is as long as the left one, so nothing was cut off it
  have hcut := congrArg List.length hlist
  rw [List.length_take,hlen,hlen] at hcut
  rw [List.take_of_length_le (by rw [hlen]; simp only at hs; omega)] at hlist
  obtain ⟨hid,hword⟩ := plain_split hs.1 ht.1 (List.append_cancel_left hlist)
  exact ⟨String.toList_injective hid,statusMap_agree s.channel t.channel _ s.mapped _ t.mapped
    (String.toList_injective hword)⟩

namespace World

/-- The message with this id is linked to the provider's id. -/
def Named (w : World) (accountId : ℕ) (providerMessageId : String) (id : ℕ) : Prop :=
  ∃ r ∈ w.messages, r.id = id ∧ r.accountId = accountId ∧
    r.providerMessageId = some providerMessageId

structure Tracked (w : World) : Prop where
  unmarked : ∀ (i : ℕ) c m, w.calls[i]? = some c → c.phase.unmarked = some m →
    ∃ r ∈ w.messages, r.id = m.id ∧ r.accountId = m.accountId ∧ r.status = .queued ∧
      r.providerMessageId = none
  apart : ∀ (i j : ℕ) c d m n, w.calls[i]? = some c → w.calls[j]? = some d →
    c.phase.unmarked = some m → d.phase.unmarked = some n → m.id = n.id → i = j
  unique : ∀ r ∈ w.messages, ∀ r' ∈ w.messages, r.accountId = r'.accountId →
    r.providerMessageId = r'.providerMessageId → r.providerMessageId ≠ none → r.id = r'.id
  short : ∀ r ∈ w.messages, ∀ p ∈ r.providerMessageId, p.toList.length ≤ 200
  seen : ∀ r ∈ w.requests, ∀ seen, r.phase = .folding seen →
    ∃ status, r.current = some status ∧ w.Named r.accountId status.providerMessageId seen.id
  folded : ∀ f ∈ w.folds, ∃ status : NormalizedStatus, f.eventId = statusEventId status ∧
    f.reported = status.status ∧ w.Named f.accountId status.providerMessageId f.messageId
  applied : ∀ f ∈ w.folds, f.after = (applyCallback f.before f.reported).status
  receipted : ∀ receipt ∈ w.receipts, ∃ f ∈ w.folds, f.accountId = receipt.accountId ∧
    f.eventId = receipt.eventId
  answered : ∀ r ∈ w.requests, Batch.Each (fun status outcome => outcome ≠ .deferred →
    ∃ receipt ∈ w.receipts, receipt.identity = (r.accountId,statusEventId status))
      r.statuses r.done

section Steps

variable {w w' : World} {a : Action}

theorem Sends.keyed (hs : w.Sends) : Table.Keyed MessageRow.id w.messages := by
  have hmap : w.messages.map MessageRow.id = w.origins.map Prod.fst := by
    simp [origins,MessageRow.origin,Function.comp_def]
  rw [Table.Keyed,hmap,hs.numbered]
  exact List.nodup_range

theorem Sends.id_lt (hs : w.Sends) {r : MessageRow} (hr : r ∈ w.messages) :
    r.id < w.messages.length := by
  have hmem : r.origin.1 ∈ w.origins.map Prod.fst :=
    List.mem_map_of_mem (List.mem_map_of_mem hr)
  rw [hs.numbered,List.mem_range] at hmem
  have hid : r.id < w.origins.length := hmem
  simpa [origins] using hid

theorem byProviderId_named {accountId : ℕ} {p : String} {r : MessageRow}
    (h : byProviderId accountId p w.messages = some r) : w.Named accountId p r.id := by
  have hr := List.find?_some h
  simp only [decide_eq_true_eq] at hr
  exact ⟨r,List.mem_of_find?_eq_some h,rfl,hr⟩

theorem Named.kept {accountId : ℕ} {p : String} {id : ℕ} (h : w.Named accountId p id)
    (hkept : ∀ r ∈ w.messages, r.providerMessageId ≠ none → ∃ r' ∈ w'.messages, r'.id = r.id ∧
      r'.accountId = r.accountId ∧ r'.providerMessageId = r.providerMessageId) :
    w'.Named accountId p id := by
  obtain ⟨r,hr,hid,haccount,hp⟩ := h
  obtain ⟨r',hr',hid',haccount',hp'⟩ := hkept r hr (by rw [hp]; simp)
  exact ⟨r',hr',hid'.trans hid,haccount'.trans haccount,hp'.trans hp⟩

section

variable (hs : w.Sends) (hw : w.Tracked)

include hs hw

theorem Tracked.mark_kept {i : ℕ} {c : Call} {m : MessageRow} {update : MessageRow → MessageRow}
    (hi : w.calls[i]? = some c) (hm : c.phase.unmarked = some m)
    (hmessages : w'.messages = Table.edit MessageRow.id [m.id] update w.messages) (r : MessageRow)
    (hr : r ∈ w.messages) (hlinked : r.providerMessageId ≠ none) : r ∈ w'.messages := by
  rw [hmessages]
  refine Table.mem_edit.mpr (.inr ⟨hr,fun hid => hlinked ?_⟩)
  obtain ⟨_,hr₀,hid₀,-,-,hnone⟩ := hw.unmarked i c m hi hm
  rw [Table.mem_unique hs.keyed hr hr₀ ((List.mem_singleton.mp hid).trans hid₀.symm),hnone]

theorem Tracked.kept (h : Moves w a w') (r : MessageRow) (hr : r ∈ w.messages)
    (hlinked : r.providerMessageId ≠ none) :
    ∃ r' ∈ w'.messages, r'.id = r.id ∧ r'.accountId = r.accountId ∧
      r'.providerMessageId = r.providerMessageId := by
  have hsame : w'.messages = w.messages → ∃ r' ∈ w'.messages, r'.id = r.id ∧
      r'.accountId = r.accountId ∧ r'.providerMessageId = r.providerMessageId :=
    fun hmessages => ⟨r,hmessages ▸ hr,rfl,rfl,rfl⟩
  cases h with
  | quiet hmessages | request _ _ _ _ hmessages | receive _ _ hmessages => exact hsame hmessages
  | queue _ _ hmessages =>
    exact ⟨r,hmessages ▸ List.mem_append_left _ hr,rfl,rfl,rfl⟩
  | mark _ _ _ _ hi hm _ hmessages =>
    exact ⟨r,hw.mark_kept hs hi hm hmessages r hr hlinked,rfl,rfl,rfl⟩
  | fold _ now _ seen status _ _ _ _ _ hmessages =>
    by_cases hadvanced : (applyCallback seen.status status.status).advanced
    · rw [if_pos hadvanced] at hmessages
      rw [hmessages]
      by_cases hid : r.id ∈ [seen.id]
      · refine ⟨_,Table.mem_edit.mpr (.inl ⟨r,hr,hid,rfl⟩),?_⟩
        have horigin := foldRow_origin status (applyCallback seen.status status.status).status now
          seen r
        exact ⟨foldRow_id _ _ _ _ _,congrArg (fun t => t.2.1) horigin,foldRow_provider _ _ _ _ _⟩
      · exact ⟨r,Table.mem_edit.mpr (.inr ⟨hr,hid⟩),rfl,rfl,rfl⟩
    · rw [if_neg hadvanced] at hmessages
      exact hsame hmessages

theorem Tracked.seen_marked {j : ℕ} {r : Request} {seen : MessageRow}
    (hj : w.requests[j]? = some r) (hphase : r.phase = .folding seen) {row : MessageRow}
    (hrow : row ∈ w.messages) (hnone : row.providerMessageId = none) : row.id ≠ seen.id := by
  intro hid
  obtain ⟨_,-,_,hr₀,hid₀,-,hlinked⟩ := hw.seen r (List.mem_of_getElem? hj) seen hphase
  rw [Table.mem_unique hs.keyed hrow hr₀ (hid.trans hid₀.symm),hlinked] at hnone
  cases hnone

theorem Tracked.unmarked_step (h : Moves w a w') (i : ℕ) (c : Call) (m : MessageRow)
    (hi : w'.calls[i]? = some c) (hm : c.phase.unmarked = some m) :
    ∃ r ∈ w'.messages, r.id = m.id ∧ r.accountId = m.accountId ∧ r.status = .queued ∧
      r.providerMessageId = none := by
  cases h with
  | quiet hmessages hunmarked =>
    obtain ⟨c₀,hi₀,hm₀⟩ := hunmarked i c m hi hm
    rw [hmessages]
    exact hw.unmarked i c₀ m hi₀ hm₀
  | queue _ _ hmessages hunmarked =>
    rw [hmessages]
    rcases hunmarked i c m hi hm with ⟨-,rfl⟩ | ⟨c₀,hi₀,hm₀⟩
    · exact ⟨_,List.mem_append_right _ (List.mem_singleton_self _),rfl,rfl,rfl,rfl⟩
    · obtain ⟨r,hr,hrest⟩ := hw.unmarked i c₀ m hi₀ hm₀
      exact ⟨r,List.mem_append_left _ hr,hrest⟩
  | mark j d n _ hj hn _ hmessages hunmarked =>
    obtain ⟨hij,c₀,hi₀,hm₀⟩ := hunmarked i c m hi hm
    obtain ⟨r,hr,hid,hrest⟩ := hw.unmarked i c₀ m hi₀ hm₀
    refine ⟨r,?_,hid,hrest⟩
    rw [hmessages]
    refine Table.mem_edit.mpr (.inr ⟨hr,fun hmem => hij ?_⟩)
    exact hw.apart i j c₀ d m n hi₀ hj hm₀ hn (hid.symm.trans (List.mem_singleton.mp hmem))
  | request _ _ _ _ hmessages hcalls | receive _ _ hmessages hcalls =>
    rw [hcalls] at hi
    rw [hmessages]
    exact hw.unmarked i c m hi hm
  | fold _ _ _ _ _ _ hj hphase _ hcalls hmessages =>
    rw [hcalls] at hi
    obtain ⟨r,hr,hid,haccount,hqueued,hnone⟩ := hw.unmarked i c m hi hm
    refine ⟨r,?_,hid,haccount,hqueued,hnone⟩
    rw [hmessages]
    split_ifs
    · exact Table.mem_edit.mpr (.inr ⟨hr,fun hmem =>
        hw.seen_marked hs hj hphase hr hnone (List.mem_singleton.mp hmem)⟩)
    · exact hr

theorem Tracked.apart_step (h : Moves w a w') (i j : ℕ) (c d : Call) (m n : MessageRow)
    (hi : w'.calls[i]? = some c) (hj : w'.calls[j]? = some d) (hm : c.phase.unmarked = some m)
    (hn : d.phase.unmarked = some n) (hid : m.id = n.id) : i = j := by
  cases h with
  | quiet _ hunmarked =>
    obtain ⟨c₀,hi₀,hm₀⟩ := hunmarked i c m hi hm
    obtain ⟨d₀,hj₀,hn₀⟩ := hunmarked j d n hj hn
    exact hw.apart i j c₀ d₀ m n hi₀ hj₀ hm₀ hn₀ hid
  | queue _ _ _ hunmarked =>
    -- a new message has an id that no message had
    have hfresh : ∀ {e : ℕ} {c₀ : Call} {m₀ : MessageRow}, w.calls[e]? = some c₀ →
        c₀.phase.unmarked = some m₀ → m₀.id ≠ w.messages.length := by
      intro e c₀ m₀ he hm₀ hlen
      obtain ⟨r,hr,_,-⟩ := hw.unmarked e c₀ m₀ he hm₀
      have hlt := hs.id_lt hr
      omega
    rcases hunmarked i c m hi hm with ⟨rfl,rfl⟩ | ⟨c₀,hi₀,hm₀⟩ <;>
      rcases hunmarked j d n hj hn with ⟨rfl,rfl⟩ | ⟨d₀,hj₀,hn₀⟩
    · rfl
    · exact (hfresh hj₀ hn₀ hid.symm).elim
    · exact (hfresh hi₀ hm₀ hid).elim
    · exact hw.apart i j c₀ d₀ m n hi₀ hj₀ hm₀ hn₀ hid
  | mark _ _ _ _ _ _ _ _ hunmarked =>
    obtain ⟨-,c₀,hi₀,hm₀⟩ := hunmarked i c m hi hm
    obtain ⟨-,d₀,hj₀,hn₀⟩ := hunmarked j d n hj hn
    exact hw.apart i j c₀ d₀ m n hi₀ hj₀ hm₀ hn₀ hid
  | request _ _ _ _ _ hcalls | receive _ _ _ hcalls | fold _ _ _ _ _ _ _ _ _ hcalls =>
    rw [hcalls] at hi hj
    exact hw.apart i j c d m n hi hj hm hn hid

end

section

variable (hs : w.Sends) (hw : w.Tracked) (h : Moves w a w') (r : MessageRow) (hr : r ∈ w'.messages)

include hs hw h r hr

theorem Tracked.linked (hlinked : r.providerMessageId ≠ none) :
    (∃ r₀ ∈ w.messages, r₀.id = r.id ∧ r₀.accountId = r.accountId ∧
      r₀.providerMessageId = r.providerMessageId) ∨
    ∃ p, r.providerMessageId = some (clip 200 p) ∧
      byProviderId r.accountId (clip 200 p) w.messages = none ∧
      ∀ r' ∈ w'.messages, r'.id ≠ r.id → r' ∈ w.messages := by
  have hsame : w'.messages = w.messages → ∃ r₀ ∈ w.messages, r₀.id = r.id ∧
      r₀.accountId = r.accountId ∧ r₀.providerMessageId = r.providerMessageId :=
    fun hmessages => ⟨r,hmessages ▸ hr,rfl,rfl,rfl⟩
  cases h with
  | quiet hmessages | request _ _ _ _ hmessages | receive _ _ hmessages =>
    exact .inl (hsame hmessages)
  | queue _ _ hmessages =>
    rw [hmessages] at hr
    rcases Table.mem_concat hr with hold | rfl
    · exact .inl ⟨r,hold,rfl,rfl,rfl⟩
    · exact absurd rfl hlinked
  | mark i c m _ hi hm hmarks hmessages =>
    obtain ⟨r₁,hr₁,hid₁,haccount₁,-,_⟩ := hw.unmarked i c m hi hm
    rw [hmessages] at hr
    rcases Table.mem_edit.mp hr with ⟨r₀,hr₀,hid,rfl⟩ | ⟨hold,-⟩
    · have hr₁ : r₀ = r₁ :=
        Table.mem_unique hs.keyed hr₀ hr₁ ((List.mem_singleton.mp hid).trans hid₁.symm)
      cases hmarks with
      | sent p _ _ hupdate hfree =>
        subst hupdate
        refine .inr ⟨p,rfl,?_,?_⟩
        · have haccount : r₀.accountId = m.accountId := by rw [hr₁,haccount₁]
          exact haccount ▸ hfree
        · intro r' hr' hne
          rw [hmessages] at hr'
          rcases Table.mem_edit.mp hr' with ⟨q,hq,hqid,rfl⟩ | ⟨hold,-⟩
          · exact absurd ((List.mem_singleton.mp hqid).trans (List.mem_singleton.mp hid).symm) hne
          · exact hold
      | failed _ _ hupdate =>
        subst hupdate
        exact .inl ⟨r₀,hr₀,rfl,rfl,rfl⟩
    · exact .inl ⟨r,hold,rfl,rfl,rfl⟩
  | fold _ now _ seen status _ _ _ _ _ hmessages =>
    left
    by_cases hadvanced : (applyCallback seen.status status.status).advanced
    · rw [if_pos hadvanced] at hmessages
      rw [hmessages] at hr
      rcases Table.mem_edit.mp hr with ⟨q,hq,-,rfl⟩ | ⟨hold,-⟩
      · have horigin := foldRow_origin status (applyCallback seen.status status.status).status now
          seen q
        exact ⟨q,hq,(foldRow_id _ _ _ _ _).symm,(congrArg (fun t => t.2.1) horigin).symm,
          (foldRow_provider _ _ _ _ _).symm⟩
      · exact ⟨r,hold,rfl,rfl,rfl⟩
    · rw [if_neg hadvanced] at hmessages
      exact hsame hmessages

theorem Tracked.unique_step (r' : MessageRow) (hr' : r' ∈ w'.messages)
    (haccount : r.accountId = r'.accountId) (hp : r.providerMessageId = r'.providerMessageId)
    (hlinked : r.providerMessageId ≠ none) : r.id = r'.id := by
  -- a new link is to an id that no row of the account had
  have hfresh : ∀ {x y : MessageRow} {p : String}, x.providerMessageId = some (clip 200 p) →
      byProviderId x.accountId (clip 200 p) w.messages = none →
      (∀ z ∈ w'.messages, z.id ≠ x.id → z ∈ w.messages) → y ∈ w'.messages →
      y.accountId = x.accountId → y.providerMessageId = x.providerMessageId → x.id = y.id := by
    intro x y p hx hnone hothers hy hxy hpp
    by_contra hne
    have hmem := hothers y hy (fun h => hne h.symm)
    have hnot := List.find?_eq_none.mp hnone y hmem
    exact hnot (by simp [hxy,hpp,hx])
  rcases hw.linked hs h r hr hlinked with ⟨r₀,hr₀,hid,hacc,hpr⟩ | ⟨p,hpp,hnone,hothers⟩
  · rcases hw.linked hs h r' hr' (hp ▸ hlinked) with ⟨r₁,hr₁,hid',hacc',hpr'⟩ | ⟨p,hpp,hnone,hothers⟩
    · rw [← hid,← hid']
      refine hw.unique r₀ hr₀ r₁ hr₁ ?_ ?_ ?_
      · rw [hacc,hacc',haccount]
      · rw [hpr,hpr',hp]
      · rw [hpr]
        exact hlinked
    · exact (hfresh hpp hnone hothers hr haccount hp).symm
  · exact hfresh hpp hnone hothers hr' haccount.symm hp.symm

theorem Tracked.short_step (p : String) (hp : p ∈ r.providerMessageId) : p.toList.length ≤ 200 := by
  have hsome : r.providerMessageId = some p := hp
  rcases hw.linked hs h r hr (by rw [hsome]; simp) with ⟨r₀,hr₀,-,-,hpr⟩ | ⟨q,hq,-,-⟩
  · exact hw.short r₀ hr₀ p (hpr.trans hsome)
  · rw [hsome] at hq
    rw [Option.some.inj hq]
    simp [clip]

end

end Steps

end World

end NexusAi.Messaging
