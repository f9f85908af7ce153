import NexusAi.Messaging.Sends

/-!
# At most one send for each key

The insert of a claim makes its call the owner, and the owner's last transaction writes
the claim once. So a key has one owner, the owner calls the provider once, another request
under the key is a conflict, and all that is returned under it is one message.
-/

namespace NexusAi.Messaging

namespace World

section Steps

variable {w : World} {i : ℕ}

theorem claimKey_won {a : ℕ} {k : String} {fingerprint : Digest} (h : w.keyOf a k = none) :
    claimKey a k fingerprint w.keys = (true,w.keys++[⟨a,k,fingerprint,.pending,none,none,none⟩]) := by
  unfold keyOf at h
  simp [claimKey,h]

theorem claimKey_lost {a : ℕ} {k : String} {fingerprint : Digest} {row : KeyRow}
    (h : w.keyOf a k = some row) : claimKey a k fingerprint w.keys = (false,w.keys) := by
  unfold keyOf at h
  simp [claimKey,h]

theorem keyOf_append (a b : ℕ) (k l : String) (fingerprint : Digest) :
    Table.find KeyRow.identity (b,l) (w.keys++[⟨a,k,fingerprint,.pending,none,none,none⟩]) =
      (w.keyOf b l).or (if (a,k) = (b,l) then
        some ⟨a,k,fingerprint,.pending,none,none,none⟩ else none) :=
  Table.find_append (b,l) _ w.keys

theorem Sends.claimed (hw : w.Sends) {request : SendMessageRequest} {isOwner : Bool} {k : String}
    (hi : w.calls[i]? = some ⟨request,isOwner,.checked⟩) (hkey : request.idempotencyKey = some k)
    (hfree : w.keyOf request.accountId k = none) :
    World.Sends { w with
      keys := w.keys++[⟨request.accountId,k,sendFingerprint request,.pending,none,none,none⟩]
      calls := w.calls.modify i fun c => { c with
        isOwner := true
        phase := .owner } } := by
  have hsame : ∀ {a : ℕ} {l : String}, Call.has ⟨request,isOwner,.checked⟩ a l →
      request.accountId = a ∧ k = l := fun h => ⟨h.1,Option.some.inj (hkey.symm.trans h.2)⟩
  refine hw.changed hi ⟨?_,fun _ => id,fun _ => id⟩
    (show (⟨request,true,.owner⟩ : Call).request = request from rfl)
    (Batch.modify_at hi _) ⟨?_,fun _ _ h => (by cases h),fun h => (by cases h),fun _ h => (by cases h),
      fun _ _ _ h => (by cases h)⟩ (fun _ => .inl) hw.single hw.numbered (.inl rfl)
    (fun _ => rfl) (fun _ => .inr ?_) (fun h => (by cases h)) (fun h => (by cases h)) ?_
  · intro a l row hrow
    refine ⟨row,?_,rfl,.inl rfl⟩
    refine (keyOf_append ..).trans ?_
    rw [hrow]
    rfl
  · intro a l _ hk
    obtain ⟨rfl,rfl⟩ := hsame hk
    refine ⟨⟨request.accountId,k,sendFingerprint request,.pending,none,none,none⟩,
      (keyOf_append ..).trans ?_,rfl,fun _ => rfl⟩
    rw [hfree,if_pos rfl]
    rfl
  · intro a l hk
    obtain ⟨rfl,rfl⟩ := hsame hk
    exact hfree
  · intro a l row m hrow hm
    rcases Option.or_eq_some_iff.mp ((keyOf_append ..).symm.trans hrow) with hold | ⟨-,hnew⟩
    · exact .inl hold
    · split_ifs at hnew
      rw [← Option.some.inj hnew] at hm
      cases hm

theorem keyOf_finalized (a b : ℕ) (k l : String) (status : SendIdempotencyStatus)
    (messageId : Option ℕ) (result : Option MessageRow) (errorCode : Option String) :
    Table.find KeyRow.identity (b,l)
        (finalizeKey a k status messageId result errorCode w.keys) =
      (w.keyOf b l).map fun r => if (b,l) = (a,k) then { r with
        status := status
        messageId := messageId
        result := result
        errorCode := errorCode } else r := by
  unfold finalizeKey keyOf
  rw [Table.find_edit]
  · simp only [List.mem_singleton]
  · exact fun _ _ => rfl

theorem open_of_called {p : CallPhase} (h : p.called) :
    p.early = false ∧ p.ended = false := by
  cases p <;> simp_all [CallPhase.called,CallPhase.early,CallPhase.ended]

theorem Sends.finalized (hw : w.Sends) {c : Call} {a : ℕ} {k : String} (hi : w.calls[i]? = some c)
    (hcalled : c.phase.called) (hk : c.has a k) {status : SendIdempotencyStatus}
    {messageId : Option ℕ} {result : Option MessageRow} {errorCode : Option String}
    (hresult : ∀ m, result = some m → status = .completed ∧ c.phase.message = some m)
    {outcome : Outcome} (houtcome : ∀ m, outcome = .returned m → result = some m) {w' : World}
    (hw' : w' = { w with
      keys := finalizeKey a k status messageId result errorCode w.keys }.enter i (.closed outcome)) :
    w'.Sends := by
  obtain ⟨hearly,hopen⟩ := open_of_called hcalled
  have howner := hw.owner hi hearly a k hk
  obtain ⟨row₀,hrow₀,hprint₀,hpending₀⟩ := hw.own i c a k hi howner hk
  have hcalls : ∀ j, w'.calls[j]? =
      if j = i then some { c with phase := .closed outcome } else w.calls[j]? := by
    rw [hw']
    exact fun j => enter_calls_self (w := { w with
      keys := finalizeKey a k status messageId result errorCode w.keys }) hi j
  have hother : ∀ {b : ℕ} {l : String}, (b,l) ≠ (a,k) → w'.keyOf b l = w.keyOf b l := by
    intro b l hne
    rw [hw']
    refine (keyOf_finalized a b k l status messageId result errorCode).trans ?_
    simp [hne]
  have hself : w'.keyOf a k = some { row₀ with
        status := status
        messageId := messageId
        result := result
        errorCode := errorCode } := by
    rw [hw']
    refine (keyOf_finalized a a k k status messageId result errorCode).trans ?_
    simp [hrow₀]
  have hsame : ∀ {b : ℕ} {l : String}, c.has b l → a = b ∧ k = l :=
    fun h => ⟨hk.1.symm.trans h.1,Option.some.inj (hk.2.symm.trans h.2)⟩
  have hprovided : w'.provided = w.provided := by rw [hw']; rfl
  have horigins : w'.origins = w.origins := by rw [hw']; rfl
  have hreq : ({ c with phase := .closed outcome } : Call).request = c.request := rfl
  refine hw.changed hi ⟨?_,fun t h => horigins ▸ h,fun j h => hprovided ▸ h⟩ hreq hcalls
    ⟨?_,fun _ _ h => ?_,fun h => (by cases h),fun _ h => (by cases h),?_⟩
    (fun t h => .inl (horigins ▸ h)) (horigins ▸ hw.single) (horigins ▸ hw.numbered)
    (.inl hprovided) id .inl (fun _ => rfl) (fun _ => rfl) ?_
  · intro b l row hrow
    by_cases hbl : (b,l) = (a,k)
    · -- while the owner is under way its claim has no result that could be returned
      obtain ⟨rfl,rfl⟩ := Prod.mk.inj hbl
      obtain rfl := Option.some.inj (hrow.symm.trans hrow₀)
      exact ⟨_,hself,rfl,.inr ⟨howner,hk,hpending₀ hopen⟩⟩
    · exact ⟨row,(hother hbl).trans hrow,rfl,.inl rfl⟩
  · intro b l _ hbl
    obtain ⟨rfl,rfl⟩ := hsame hbl
    exact ⟨_,hself,hprint₀,fun h => by cases h⟩
  · exact absurd howner (by simpa using h)
  · intro m b l hphase hbl
    obtain ⟨rfl,rfl⟩ := hsame hbl
    exact ⟨_,hself,houtcome m (CallPhase.closed.inj hphase)⟩
  · intro b l row m hrow hm
    by_cases hbl : (b,l) = (a,k)
    · obtain ⟨rfl,rfl⟩ := Prod.mk.inj hbl
      rw [← Option.some.inj (hself.symm.trans hrow)] at hm ⊢
      obtain ⟨hcompleted,hmessage⟩ := hresult m hm
      obtain ⟨horigin,hkeyed⟩ := hw.carried i c m hi hmessage
      rw [horigins,hprovided]
      exact .inr ⟨hcompleted,horigin,by rw [hkeyed,hk.1,hk.2],hw.called i c hi hcalled,hk⟩
    · exact .inl ((hother hbl).symm.trans hrow)

theorem origins_edit {ids : List ℕ} {f : MessageRow → MessageRow}
    (hf : ∀ r, (f r).origin = r.origin) :
    (Table.edit MessageRow.id ids f w.messages).map MessageRow.origin = w.origins :=
  Table.map_edit fun r _ _ => hf r

theorem Sends.found (hw : w.Sends) {i : ℕ} {c : Call} {m row : MessageRow}
    (hi : w.calls[i]? = some c) (hm : c.phase.message = some m)
    (hrow : Table.find MessageRow.id m.id w.messages = some row) : row.origin ∈ w.origins ∧
      row.origin.2 = (c.request.accountId,c.request.idempotencyKey) := by
  obtain ⟨horigin,hkeyed⟩ := hw.carried i c m hi hm
  have hmem : row.origin ∈ w.origins := List.mem_map_of_mem (Table.find_mem hrow)
  have hnodup : (w.origins.map Prod.fst).Nodup := by
    rw [hw.numbered]
    exact List.nodup_range
  have hid : row.id = m.id := Table.find_key hrow
  have hsame : row.origin = m.origin := List.inj_on_of_nodup_map hnodup hmem horigin hid
  exact ⟨hmem,by rw [hsame,hkeyed]⟩

theorem Sends.claimStep (hw : w.Sends) (i : ℕ) : (w.claimStep i).Sends := by
  unfold World.claimStep
  split
  · rename_i request _ hi
    split
    · rename_i hnone
      refine hw.entered hi rfl rfl rfl ⟨.inl rfl,rfl,?_,id,id,by simp [CallPhase.called],
        by simp [CallPhase.message],by simp⟩
      exact fun a k _ hk => (Call.not_has hnone a k hk).elim
    · rename_i k hkey
      cases hfree : w.keyOf request.accountId k with
      | none =>
        simp only [claimKey_won hfree,if_true]
        exact hw.claimed hi hkey hfree
      | some row =>
        simp only [claimKey_lost hfree]
        refine hw.entered hi rfl rfl rfl ⟨.inl rfl,rfl,?_,id,id,by simp [CallPhase.called],
          by simp [CallPhase.message],by simp⟩
        intro a l _ hk
        obtain ⟨rfl,hl⟩ := hk
        obtain rfl : k = l := Option.some.inj (hkey.symm.trans hl)
        exact .inr ⟨row,hfree,.inl rfl⟩
  · exact hw

theorem replayOrRaise_returned {existing : KeyRow} {fingerprint : Digest} {m : MessageRow}
    (h : replayOrRaise existing fingerprint = .returned m) : existing.result = some m := by
  unfold replayOrRaise at h
  split_ifs at h
  split at h
  · rename_i hresult
    rw [hresult,Outcome.returned.inj h]
  · cases h
  · cases h

section

variable (hw : w.Sends)

include hw

theorem Sends.lookupStep (i : ℕ) : (w.lookupStep i).Sends := by
  unfold World.lookupStep
  split
  · rename_i request isOwner hi
    have hclaim : ∀ a k, Call.has ⟨request,isOwner,.losing⟩ a k →
        ∃ r, w.keyOf a k = some r ∧
          request.idempotencyKey.bind (fun key =>
            Table.find KeyRow.identity (request.accountId,key) w.keys) = some r := by
      intro a k hk
      have hlookup : request.idempotencyKey.bind (fun key =>
          Table.find KeyRow.identity (request.accountId,key) w.keys) = w.keyOf a k := by
        rw [hk.2,← hk.1]
        rfl
      by_cases hown : isOwner
      · obtain ⟨r,hr,-⟩ := hw.own i _ a k hi hown hk
        exact ⟨r,hr,hlookup.trans hr⟩
      · rcases hw.turned i _ a k hi (Bool.eq_false_of_not_eq_true hown) hk with h | ⟨r,hr,-⟩
        · cases h
        · exact ⟨r,hr,hlookup.trans hr⟩
    split
    · rename_i existing hfound
      refine hw.closed hi rfl ?_ ?_
      · intro a k _ hk
        obtain ⟨r,hr,hlookup⟩ := hclaim a k hk
        obtain rfl := Option.some.inj (hfound.symm.trans hlookup)
        exact .inr ⟨existing,hr,.inr ⟨existing,rfl,rfl⟩⟩
      · intro m a k hreturned hk
        obtain ⟨r,hr,hlookup⟩ := hclaim a k hk
        obtain rfl := Option.some.inj (hfound.symm.trans hlookup)
        exact ⟨existing,hr,replayOrRaise_returned hreturned⟩
    · rename_i hfound
      refine hw.closed hi rfl ?_ (by simp)
      intro a k _ hk
      obtain ⟨r,-,hlookup⟩ := hclaim a k hk
      rw [hfound] at hlookup
      cases hlookup
  · exact hw

theorem Sends.persistStep (i : ℕ) : (w.persistStep i).Sends := by
  cases hi : w.calls[i]? with
  | none => simpa only [World.persistStep,hi] using hw
  | some c =>
    obtain ⟨_,_,phase⟩ := c
    cases phase with
    | owner => exact hw.queue hi
    | _ => simpa only [World.persistStep,hi] using hw

theorem Sends.provideStep (i : ℕ) (outcome : ProviderOutcome) :
    (w.provideStep i outcome).Sends := by
  unfold World.provideStep
  split
  · rename_i request isOwner message hi
    have howner := hw.owner hi rfl
    have hcarried := hw.carried i _ message hi rfl
    have hno : ∀ a k, isOwner = false → Call.has ⟨request,isOwner,.queued message⟩ a k → False := by
      intro a k hown hk
      have := howner a k hk
      simp only at this
      rw [hown] at this
      cases this
    split
    · refine hw.entered hi rfl rfl rfl ⟨.inr ⟨rfl,rfl,rfl,howner⟩,rfl,
        fun a k hown hk => (hno a k hown hk).elim,fun _ => rfl,fun _ => rfl,
        fun _ => List.mem_cons_self,?_,by simp⟩
      intro m hm
      obtain rfl := Option.some.inj hm
      exact hcarried
    · refine hw.entered hi rfl rfl rfl ⟨.inr ⟨rfl,rfl,?_,howner⟩,rfl,
        fun a k hown hk => (hno a k hown hk).elim,?_,?_,fun _ => List.mem_cons_self,?_,?_⟩
      · split_ifs <;> rfl
      · split_ifs <;> exact fun _ => rfl
      · split_ifs <;> exact fun _ => rfl
      · intro m hm
        split_ifs at hm
        · obtain rfl := Option.some.inj hm
          exact hcarried
        · cases hm
      · intro m a k hphase
        split_ifs at hphase
        cases hphase
  · exact hw

theorem Sends.updated {i : ℕ} {c : Call} (hi : w.calls[i]? = some c)
    (hcalled : c.phase.called) {ids : List ℕ} {f : MessageRow → MessageRow}
    (hf : ∀ r, (f r).origin = r.origin) {phase : CallPhase} (hlate : phase.late)
    (hcarried : ∀ m, phase.message = some m → m.origin ∈ w.origins ∧
      m.origin.2 = (c.request.accountId,c.request.idempotencyKey))
    (hreturned : ∀ m, phase = .closed (.returned m) → c.request.idempotencyKey = none) :
    ({ w with messages := Table.edit MessageRow.id ids f w.messages }.enter i phase).Sends := by
  obtain ⟨hearly,hopen⟩ := open_of_called hcalled
  have hpersisted : phase.persisted := by
    revert hlate
    cases phase <;> simp [CallPhase.late,CallPhase.persisted]
  refine hw.entered hi rfl rfl (origins_edit hf) ⟨.inl rfl,hopen,?_,fun _ => hlate,
    fun _ => hpersisted,fun _ => hw.called i c hi hcalled,fun m hm => ?_,?_⟩
  · intro a k hown hk
    rw [hw.owner hi hearly a k hk] at hown
    cases hown
  · rw [← origins_edit hf] at hcarried
    exact hcarried m hm
  · exact fun m a k hphase hk => (Call.not_has (hreturned m hphase) a k hk).elim

theorem Sends.markStep (i : ℕ) (now : ℤ) : (w.markStep i now).Sends := by
  unfold World.markStep
  split
  · rename_i request isOwner message _ _ hi
    split
    · exact hw.closed hi rfl (fun _ _ _ _ => .inl rfl) (by simp)
    · split
      · exact hw.closed hi rfl (fun _ _ _ _ => .inl rfl) (by simp)
      · rename_i row hrow
        refine hw.updated hi rfl ?_ ?_ ?_ ?_
        · exact fun _ => rfl
        · split_ifs <;> rfl
        · intro m hm
          split_ifs at hm
          · obtain rfl := Option.some.inj hm
            have hfound := hw.found hi rfl hrow
            exact hfound
          · cases hm
        · intro m hphase
          split_ifs at hphase with hnone
          simpa using hnone
  · rename_i hi
    split
    · exact hw.closed hi rfl (fun _ _ _ _ => .inl rfl) (by simp)
    · rename_i hrow
      refine hw.updated hi rfl ?_ ?_ ?_ ?_
      · exact fun _ => rfl
      · split_ifs <;> rfl
      · intro m hm
        split_ifs at hm
        · obtain rfl := Option.some.inj hm
          have hfound := hw.found hi rfl hrow
          exact hfound
        · cases hm
      · intro m hphase
        split_ifs at hphase
        cases hphase
  · exact hw

theorem Sends.unkeyed {i : ℕ} {c : Call} (hi : w.calls[i]? = some c)
    (hopen : c.phase.ended = false) (hkey : c.request.idempotencyKey = none)
    {outcome : Outcome} : (w.enter i (.closed outcome)).Sends :=
  hw.closed hi hopen (fun a k _ hk => (Call.not_has hkey a k hk).elim)
    (fun _ a k _ hk => (Call.not_has hkey a k hk).elim)

theorem Sends.finalizeStep (i : ℕ) (answered : Bool) : (w.finalizeStep i answered).Sends := by
  unfold World.finalizeStep
  split
  · rename_i request isOwner message hi
    cases hkey : request.idempotencyKey with
    | none => exact hw.unkeyed hi rfl hkey
    | some =>
      refine hw.finalized hi rfl ⟨rfl,hkey⟩ ?_ ?_ rfl
      · intro m hm
        exact ⟨rfl,hm⟩
      · intro m hm
        split_ifs at hm
        rw [Outcome.returned.inj hm]
  · rename_i request _ _ _ hi
    cases hkey : request.idempotencyKey with
    | none => exact hw.unkeyed hi rfl hkey
    | some =>
      refine hw.finalized hi rfl ⟨rfl,hkey⟩ ?_ ?_ rfl
      · intro m hm
        cases hm
      · intro m hm
        split_ifs at hm
  · exact hw

theorem Sends.abortStep (i : ℕ) (error : Option SendError) : (w.abortStep i error).Sends := by
  unfold World.abortStep
  split
  · exact hw
  · rename_i c hopen hi
    refine hw.closed hi ?_ (fun _ _ _ _ => .inl rfl) (by simp)
    obtain ⟨_,_,phase⟩ := c
    cases phase with
    | closed => exact absurd rfl (hopen _ _ _)
    | _ => rfl
  · exact hw

end

theorem readStep_tables (w : World) (j : ℕ) :
    (w.readStep j).calls = w.calls ∧ (w.readStep j).keys = w.keys ∧
      (w.readStep j).messages = w.messages ∧ (w.readStep j).provided = w.provided := by
  unfold World.readStep
  split
  · split
    · exact ⟨rfl,rfl,rfl,rfl⟩
    · split_ifs
      · exact ⟨rfl,rfl,rfl,rfl⟩
      · exact ⟨rfl,rfl,rfl,rfl⟩
      · split <;> exact ⟨rfl,rfl,rfl,rfl⟩
  · exact ⟨rfl,rfl,rfl,rfl⟩

theorem foldStep_tables (w : World) (j : ℕ) (now : ℤ) :
    (w.foldStep j now).calls = w.calls ∧ (w.foldStep j now).keys = w.keys ∧
      (w.foldStep j now).origins = w.origins ∧ (w.foldStep j now).provided = w.provided := by
  unfold World.foldStep
  split
  · split
    · exact ⟨rfl,rfl,rfl,rfl⟩
    · refine ⟨rfl,rfl,?_,rfl⟩
      simp only [origins,enterRequest]
      split_ifs
      · exact origins_edit fun r => foldRow_origin _ _ _ _ r
      · rfl
  · exact ⟨rfl,rfl,rfl,rfl⟩

theorem Sends.step (hw : w.Sends) (a : Action) : (w.step a).Sends := by
  cases a with
  | send _ refusal =>
    refine hw.begun rfl ?_
    cases refusal with
    | none => exact .inl rfl
    | some code => exact .inr ⟨code,rfl⟩
  | claim i => exact hw.claimStep i
  | lookup i => exact hw.lookupStep i
  | persist i => exact hw.persistStep i
  | provide i outcome => exact hw.provideStep i outcome
  | mark i now => exact hw.markStep i now
  | finalize i answered => exact hw.finalizeStep i answered
  | abort i error => exact hw.abortStep i error
  | receive | drop => exact hw.same rfl rfl rfl rfl
  | read j =>
    obtain ⟨hcalls,hkeys,hmessages,hprovided⟩ := readStep_tables w j
    exact hw.same hcalls hkeys (congrArg (List.map MessageRow.origin) hmessages) hprovided
  | fold j now =>
    obtain ⟨hcalls,hkeys,horigins,hprovided⟩ := foldStep_tables w j now
    exact hw.same hcalls hkeys horigins hprovided

theorem sends_initial : initial.Sends := by
  refine ⟨?_,?_,?_,List.nodup_nil,?_,?_,?_,?_,?_,rfl,?_,?_⟩
  · intro i c a k hc
    cases hc
  · intro i j c d a k hc
    cases hc
  · intro i c a k hc
    cases hc
  · intro i hi
    cases hi
  · intro i c hc
    cases hc
  · intro i c m hc
    cases hc
  · intro t ht
    cases ht
  · intro t ht
    cases ht
  · intro a k row m hrow
    cases hrow
  · intro i c m a k hc
    cases hc

end Steps

theorem sends_reach (as : List Action) : (reach as).Sends :=
  Run.exec_invariant step Sends (fun _ a hw => hw.step a) as initial sends_initial

end World

theorem replayOrRaise_conflict {existing : KeyRow} {fingerprint : Digest}
    (h : existing.requestFingerprint ≠ fingerprint) :
    replayOrRaise existing fingerprint = .raised .idempotencyConflict := by
  simp [replayOrRaise,h]

/-- Whatever the calls do, the provider is called once at the most under a key. A
call whose request is not the one of the claim sends nothing, and gets a conflict
unless a check or a failure ends it. All that is returned under the key is one
message, the only one that is queued under it, for which the provider was called. -/
theorem sends_once (as : List Action) (a : ℕ) (k : String) :
    ((World.reach as).provided.filter fun i =>
      ((World.reach as).calls[i]?).any fun c => c.has a k).length ≤ 1 ∧
    (∀ (i : ℕ) c row, (World.reach as).calls[i]? = some c → c.has a k →
      (World.reach as).keyOf a k = some row → row.requestFingerprint ≠ sendFingerprint c.request →
        i ∉ (World.reach as).provided ∧
        (c.phase = .losing ∨ c.phase = .closed (.raised .idempotencyConflict) ∨
          c.phase.unanswered)) ∧
    ∀ (i : ℕ) c m, (World.reach as).calls[i]? = some c → c.has a k →
      c.phase = .closed (.returned m) →
        (∃ j ∈ (World.reach as).provided, ∃ d, (World.reach as).calls[j]? = some d ∧ d.has a k) ∧
        m.origin ∈ (World.reach as).origins ∧
        (∀ t ∈ (World.reach as).origins, t.2 = (a,some k) → t = m.origin) ∧
        ∀ (j : ℕ) d m', (World.reach as).calls[j]? = some d → d.has a k →
          d.phase = .closed (.returned m') → m' = m := by
  have hw := World.sends_reach as
  refine ⟨?_,?_,?_⟩
  · -- all calls that count own the key, and no two of them do
    have howner : ∀ i ∈ (World.reach as).provided.filter (fun i =>
        ((World.reach as).calls[i]?).any fun c => c.has a k),
        ∃ c, (World.reach as).calls[i]? = some c ∧ c.isOwner ∧ c.has a k := by
      intro i hi
      obtain ⟨hmem,hany⟩ := List.mem_filter.mp hi
      obtain ⟨c,hc,-,howner⟩ := hw.late i hmem
      have hk : c.has a k := by simpa [hc] using hany
      exact ⟨c,hc,howner a k hk,hk⟩
    have hkeyed : Table.Keyed id ((World.reach as).provided.filter (fun i =>
        ((World.reach as).calls[i]?).any fun c => c.has a k)) := by
      rw [Table.Keyed,List.map_id]
      exact hw.once.filter _
    refine Table.length_le_one hkeyed ?_
    intro i hi j hj
    obtain ⟨c,hc,hcown,hck⟩ := howner i hi
    obtain ⟨d,hd,hdown,hdk⟩ := howner j hj
    exact hw.sole i j c d a k hc hd hcown hdown hck hdk
  · intro i c row hi hk hrow hdiffers
    have hown : c.isOwner = false := by
      by_contra hown
      obtain ⟨r,hr,hprint,-⟩ := hw.own i c a k hi (by simpa using hown) hk
      rw [Option.some.inj (hrow.symm.trans hr)] at hdiffers
      exact hdiffers hprint
    constructor
    · intro hmem
      obtain ⟨d,hd,-,howner⟩ := hw.late i hmem
      rw [Option.some.inj (hd.symm.trans hi)] at howner
      rw [howner a k hk] at hown
      cases hown
    · rcases hw.turned i c a k hi hown hk with h | ⟨r,hr,hphase | ⟨_,hprint,hphase⟩⟩
      · exact .inr (.inr h)
      · exact .inl hphase
      · rw [Option.some.inj (hrow.symm.trans hr)] at hdiffers
        rw [replayOrRaise_conflict (by rw [hprint]; exact hdiffers)] at hphase
        exact .inr (.inl hphase)
  · intro i c m hi hk hphase
    obtain ⟨row,hrow,hresult⟩ := hw.returned i c m a k hi hphase hk
    obtain ⟨-,horigin,hkeyed,hprovided⟩ := hw.result a k row m hrow hresult
    refine ⟨hprovided,horigin,?_,?_⟩
    · intro t ht hsame
      exact hw.single t ht m.origin horigin (hsame.trans hkeyed.symm) (by rw [hsame]; simp)
    · intro j d m' hd hdk hdphase
      obtain ⟨_,hrow',hresult'⟩ := hw.returned j d m' a k hd hdphase hdk
      rw [Option.some.inj (hrow'.symm.trans hrow),hresult] at hresult'
      exact (Option.some.inj hresult').symm

def sampleRequest : SendMessageRequest :=
  ⟨1,5,["a@x"],⟨.text,some "hello",none,[]⟩,none,none,some "k1"⟩

end NexusAi.Messaging
