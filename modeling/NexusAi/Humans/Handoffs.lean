import NexusAi.Humans.Operations

/-!
# Repeated handoff requests

No transaction changes what a work item took over from its request, and none
removes a handoff or the ownership of a conversation. A repeated request finds
its work item again. Whether it is answered depends on what has become of the
queue, the item and the ownership in the meantime.
-/

namespace NexusAi.Humans
open NexusAi.Checked

def WorkRow.fixed (w : WorkRow) : WorkSource × ℕ := (w.toWorkSource,w.id)

namespace Db

variable (db : Db)

def sources : List (WorkSource × ℕ) := db.works.map WorkRow.fixed
def handoffKeys : List String := db.handoffs.map HandoffRow.idempotencyKey
def conversations : List ℕ := db.ownership.map OwnershipRow.conversationId

/-- Work items are numbered, and an ownership names one of them. -/
structure Owned : Prop where
  numbered : ∀ w ∈ db.sources, w.2 < db.fresh
  named : ∀ o ∈ db.ownership, ∀ w ∈ o.workItemId, w ∈ db.sources.map Prod.snd

end Db

/-- What a transaction may do. A work item it creates is handed off with it. -/
structure Grows (db db' : Db) : Prop where
  works : db.sources <+: db'.sources
  handoffs : db.handoffKeys <+: db'.handoffKeys
  ownership : db.conversations <+: db'.conversations
  owned : db.Owned → db'.Owned
  handed : db.Owned → ∀ w ∈ db'.sources, w ∈ db.sources ∨ w.1.idempotencyKey ∈ db'.handoffKeys

variable {db db' db'' : Db}

theorem Grows.of_sources (hw : db'.sources = db.sources)
    (hh : db.handoffKeys <+: db'.handoffKeys) (ho : db.conversations <+: db'.conversations)
    (hfresh : db.fresh ≤ db'.fresh) (hown : ∀ o ∈ db'.ownership, ∀ w ∈ o.workItemId,
      w ∈ db.sources.map Prod.snd ∨ ∃ p ∈ db.ownership, w ∈ p.workItemId) : Grows db db' := by
  refine ⟨hw ▸ List.prefix_rfl,hh,ho,fun howned => ⟨?_,?_⟩,fun _ w hm => .inl (hw ▸ hm)⟩
  · rw [hw]
    exact fun w hm => (howned.numbered w hm).trans_le hfresh
  · rw [hw]
    intro o hm w hw
    rcases hown o hm w hw with hs | ⟨p,hp,hpw⟩
    · exact hs
    · exact howned.named p hp w hpw

theorem Grows.aside (hw : db'.works = db.works) (hh : db'.handoffs = db.handoffs)
    (ho : db'.ownership = db.ownership) (hfresh : db.fresh ≤ db'.fresh) : Grows db db' := by
  refine .of_sources (by rw [Db.sources,hw]; rfl) (by rw [Db.handoffKeys,Db.handoffKeys,hh])
    (by rw [Db.conversations,Db.conversations,ho]) hfresh ?_
  rw [ho]
  exact fun o hm w hw => .inr ⟨o,hm,hw⟩

theorem Grows.refl (db : Db) : Grows db db := .aside rfl rfl rfl le_rfl

theorem Grows.trans (h : Grows db db') (h' : Grows db' db'') : Grows db db'' := by
  refine ⟨h.works.trans h'.works,h.handoffs.trans h'.handoffs,h.ownership.trans h'.ownership,
    fun ho => h'.owned (h.owned ho),fun ho w hm => ?_⟩
  rcases h'.handed (h.owned ho) w hm with hw | hw
  · exact (h.handed ho w hw).imp_right fun hk => h'.handoffs.subset hk
  · exact .inr hw

theorem grows_setWork (id : ℕ) {f : WorkRow → WorkRow} (hf : ∀ w, (f w).fixed = w.fixed) :
    Grows db (db.setWork id f) :=
  .of_sources (Table.map_modify fun r _ _ => hf r) List.prefix_rfl List.prefix_rfl le_rfl
    fun o hm _ hw => .inr ⟨o,hm,hw⟩

theorem grows_setHandoff (id : ℕ) {f : HandoffRow → HandoffRow}
    (hf : ∀ h, (f h).idempotencyKey = h.idempotencyKey) : Grows db (db.setHandoff id f) := by
  refine .of_sources rfl ?_ List.prefix_rfl le_rfl fun o hm _ hw => .inr ⟨o,hm,hw⟩
  rw [Db.handoffKeys,Db.handoffKeys,Db.setHandoff,Table.map_modify fun r _ _ => hf r]

variable {id : ℕ} {f : OwnershipRow → OwnershipRow}

theorem conversations_setOwnership
    (h : db.setOwnership id f = .ok db') : db'.conversations = db.conversations := by
  simp only [Db.setOwnership,bind_ok,require_ok,pure_ok] at h
  obtain ⟨-,-,rfl⟩ := h
  exact Table.map_modify fun _ _ _ => rfl

theorem setOwnership_ok
    (h : db.setOwnership id f = .ok db')
    (hf : ∀ o, ∀ w ∈ (f o).workItemId, w ∈ db.sources.map Prod.snd ∨ w ∈ o.workItemId) :
    Grows db db' := by
  have hconv := (conversations_setOwnership h).symm
  simp only [Db.setOwnership,bind_ok,require_ok,pure_ok] at h
  obtain ⟨-,-,rfl⟩ := h
  refine .of_sources rfl List.prefix_rfl (hconv ▸ List.prefix_rfl) le_rfl ?_
  intro o hm w hw
  rcases Table.mem_modify.mp hm with ⟨p,hp,-,rfl⟩ | ⟨hp,-⟩
  · exact (hf p w hw).imp_right fun h => ⟨p,hp,h⟩
  · exact .inr ⟨o,hp,hw⟩

theorem grows_setOwnership
    (h : db.setOwnership id f = .ok db') (hf : ∀ o, (f o).workItemId = o.workItemId) :
    Grows db db' :=
  setOwnership_ok h fun o _ hw => .inr (hf o ▸ hw)

theorem grows_ownWork {id item : ℕ}
    (h : db'.setOwnership id f = .ok db'') (hin : item ∈ db.sources.map Prod.snd)
    (hf : ∀ o, (f o).workItemId = some item) (hg : Grows db db') : Grows db db'' := by
  refine hg.trans (setOwnership_ok h ?_)
  intro o w hw
  rw [hf,Option.mem_some_iff] at hw
  exact .inl (hw ▸ (hg.works.map Prod.snd).subset hin)

theorem addHandoff_ok {x : HandoffRow} (h : db.addHandoff x = .ok db') :
    Grows db db' ∧ x.idempotencyKey ∈ db'.handoffKeys ∧ x.idempotencyKey ∉ db.handoffKeys := by
  simp only [Db.addHandoff,bind_ok,require_ok,pure_ok] at h
  obtain ⟨-,hnew,rfl⟩ := h
  refine ⟨.of_sources rfl ?_ List.prefix_rfl (Nat.le_succ _)
    fun o hm w hw => .inr ⟨o,hm,hw⟩,?_,?_⟩
  · simp [Db.handoffKeys]
  · simp [Db.handoffKeys]
  · simpa [Db.handoffKeys] using hnew

theorem grows_addAssignment {a : AssignmentRow} (h : db.addAssignment a = .ok db') :
    Grows db db' := by
  simp only [Db.addAssignment,bind_ok,require_ok,pure_ok] at h
  obtain ⟨-,-,rfl⟩ := h
  exact .aside rfl rfl rfl (Nat.le_succ _)

theorem grows_ensureOwnership (id : ℕ) : Grows db (db.ensureOwnership id) := by
  unfold Db.ensureOwnership
  split
  · exact .refl db
  · refine .of_sources rfl List.prefix_rfl (by simp [Db.conversations]) le_rfl ?_
    intro o hm w hw
    rcases Table.mem_concat hm with hm | rfl
    · exact .inr ⟨o,hm,hw⟩
    · cases hw

theorem grows_load (agent : ℕ) (n : ℤ) (f : PresenceRow → PresenceRow) :
    Grows db ((db.count agent n).setPresence agent f) := .aside rfl rfl rfl le_rfl

theorem grows_release (a : AssignmentRow) (s : AssignmentState) (r : String) :
    Grows db (db.release a s r) := .aside rfl rfl rfl le_rfl

/-- Most transactions end with a work item and the ownership that names it. -/
theorem grows_settle {mid : Db} {work : ℕ} {k : WorkRow → WorkRow}
    (h : (mid.setWork work k).setOwnership id f = .ok db') (hg : Grows db mid) (hk : ∀ w, (k w).fixed = w.fixed)
    (hf : ∀ o, (f o).workItemId = o.workItemId) : Grows db db' :=
  (hg.trans (grows_setWork work hk)).trans (grows_setOwnership h hf)

variable {target : ℕ}

theorem grows_reassign {c : Authority} {token reason : String}
    (h : db.reassign c target token reason = .ok db') : Grows db db' := by
  simp only [Db.reassign,bind_ok] at h
  obtain ⟨-,-,-,-,-,-,_,h1,h2⟩ := h
  refine grows_settle h2 ?_ (fun _ => rfl) fun _ => rfl
  exact ((grows_release ..).trans (grows_addAssignment h1)).trans (.aside rfl rfl rfl le_rfl)

theorem grows_releaseCurrent (w : WorkRow) (r : String) : Grows db (db.releaseCurrent w r) := by
  unfold Db.releaseCurrent
  split
  · split_ifs
    · split <;> exact .aside rfl rfl rfl le_rfl
    · exact .refl db
  · exact .refl db

theorem grows_claimWork {now : ℤ} {locked : ℕ → Bool} {r : ClaimWorkRequest}
    (h : claimWork db now locked r = .ok db') : Grows db db' := by
  simp only [claimWork,bind_ok] at h
  obtain ⟨_,-,-,-,-,-,-,-,_,-,-,-,-,-,w,hw,o,-,-,-,_,h1,h2⟩ := h
  rw [present_ok] at hw
  have hin : w.id ∈ db.sources.map Prod.snd := by
    have hm := List.mem_of_mem_head? hw
    rw [List.mem_insertionSort] at hm
    rw [Db.sources,List.map_map]
    exact List.mem_map_of_mem (List.mem_of_mem_filter hm)
  refine grows_ownWork h2 hin (fun _ => rfl) ?_
  refine .trans ?_ (grows_load ..)
  refine .trans ?_ (grows_setWork w.id fun _ => rfl)
  exact (grows_ensureOwnership w.conversationId).trans (grows_addAssignment h1)

variable {r : AssignmentActionRequest}

theorem grows_acceptAssignment
    (h : acceptAssignment db r = .ok db') : Grows db db' := by
  simp only [acceptAssignment,bind_ok] at h
  obtain ⟨⟨a,w,o⟩,-,-,-,-,-,h⟩ := h
  dsimp only at h
  split_ifs at h
  · cases h
    exact .refl db
  · simp only [bind_ok] at h
    obtain ⟨-,-,-,-,-,-,h⟩ := h
    exact grows_settle h (.aside rfl rfl rfl le_rfl) (fun _ => rfl) fun _ => rfl

theorem grows_completeAssignment
    (h : completeAssignment db r = .ok db') : Grows db db' := by
  simp only [completeAssignment,bind_ok] at h
  obtain ⟨⟨a,w,o⟩,-,-,-,-,-,h⟩ := h
  dsimp only at h
  split_ifs at h
  · cases h
    exact .refl db
  · simp only [bind_ok] at h
    obtain ⟨-,-,h⟩ := h
    exact grows_settle h (grows_release ..) (fun _ => rfl) fun _ => rfl

theorem grows_transferToQueue
    (h : transferToQueue db target r = .ok db') : Grows db db' := by
  simp only [transferToQueue,bind_ok] at h
  obtain ⟨⟨a,w,o⟩,-,-,-,-,-,h⟩ := h
  exact grows_settle h (grows_release ..) (fun _ => rfl) fun _ => rfl

theorem grows_transferToAgent {t : String}
    (h : transferToAgent db target t r = .ok db') : Grows db db' := by
  simp only [transferToAgent,bind_ok] at h
  obtain ⟨c,-,-,-,h⟩ := h
  exact grows_reassign h

theorem grows_supervisorRelease {target : Option ℕ} {r : String}
    (h : supervisorRelease db id target r = .ok db') : Grows db db' := by
  simp only [supervisorRelease,bind_ok] at h
  obtain ⟨a,-,w,-,-,-,-,-,-,-,-,-,h⟩ := h
  exact grows_settle h (grows_release ..) (fun _ => rfl) fun _ => rfl

theorem grows_supervisorTransferToAgent {id target : ℕ} {t r : String}
    (h : supervisorTransferToAgent db id target t r = .ok db') : Grows db db' := by
  simp only [supervisorTransferToAgent,bind_ok] at h
  obtain ⟨a,-,w,-,-,-,o,-,-,-,-,-,-,-,h⟩ := h
  exact grows_reassign h

theorem grows_cancelWork {r : String} (h : cancelWork db id r = .ok db') :
    Grows db db' := by
  simp only [cancelWork,bind_ok] at h
  obtain ⟨w,-,h⟩ := h
  split_ifs at h
  · cases h
    exact .refl db
  · simp only [bind_ok] at h
    obtain ⟨-,-,h⟩ := h
    exact grows_settle h (grows_releaseCurrent w r) (fun _ => rfl) fun _ => rfl

theorem grows_returnToAi {r : ReturnToAiRequest} (h : returnToAi db r = .ok db') :
    Grows db db' := by
  unfold returnToAi at h
  split at h
  · simp only [bind_ok,pure_ok] at h
    obtain ⟨-,-,-,-,-,-,-,-,-,-,rfl⟩ := h
    exact .refl db
  · simp only [bind_ok] at h
    obtain ⟨⟨a,w,o⟩,-,-,-,_,h1,h2⟩ := h
    refine .trans ?_ (addHandoff_ok h2).1
    exact grows_settle h1 (grows_release ..) (fun _ => rfl) fun _ => rfl

theorem grows_bindAiReturn {key : String} {session : ℕ} (h : bindAiReturn db key session = .ok db') :
    Grows db db' := by
  simp only [bindAiReturn,bind_ok] at h
  obtain ⟨x,-,w,-,-,-,-,-,o,-,h⟩ := h
  split_ifs at h
  · cases h
    exact .refl db
  · simp only [bind_ok] at h
    obtain ⟨-,-,h⟩ := h
    exact grows_settle h (grows_setHandoff _ fun _ => rfl) (fun _ => rfl) fun _ => rfl

theorem grows_rejectAiReturn (h : rejectAiReturn db id = .ok db') : Grows db db' := by
  unfold rejectAiReturn at h
  split at h
  · split_ifs at h
    · cases h
      exact .refl db
    · split at h
      · exact grows_settle h (grows_setHandoff _ fun _ => rfl) (fun _ => rfl) fun _ => rfl
      · cases h
        exact .refl db
  · cases h
    exact .refl db

/-- A request that was answered has left its work item, a handoff under its key and the
ownership of its conversation. -/
structure Recorded (db : Db) (request : QueueHumanWorkRequest) (id : ℕ) : Prop where
  work : db.sources.find? (fun w => w.1.idempotencyKey = request.idempotencyKey) =
    some (request.toWorkSource,id)
  handoff : request.idempotencyKey ∈ db.handoffKeys
  ownership : request.conversationId ∈ db.conversations

variable {request : QueueHumanWorkRequest} {now : ℤ} {item : WorkRow} {id : ℕ}

theorem Grows.find {p : WorkSource × ℕ → Bool} {x : WorkSource × ℕ} (h : Grows db db')
    (hx : db.sources.find? p = some x) : db'.sources.find? p = some x := by
  obtain ⟨_,hrest⟩ := h.works
  rw [← hrest,List.find?_append,hx]
  rfl

theorem Recorded.grows (h : Recorded db request id) (hg : Grows db db') :
    Recorded db' request id :=
  ⟨hg.find h.work,hg.handoffs.subset h.handoff,hg.ownership.subset h.ownership⟩

theorem workByKey_source (db : Db) (key : String) :
    (db.workByKey key).map WorkRow.fixed =
      db.sources.find? fun w => w.1.idempotencyKey = key := by
  rw [Db.workByKey,Table.find,Db.sources,List.find?_map]
  rfl

theorem ownershipRow_isSome {conversation : ℕ} (h : conversation ∈ db.conversations) :
    ∃ o, db.ownershipRow conversation = some o := by
  cases ho : db.ownershipRow conversation with
  | some o => exact ⟨o,rfl⟩
  | none =>
    obtain ⟨o,hm,hid⟩ := List.mem_map.mp h
    exact absurd hid (Table.find_none ho o hm)

theorem createWork_cases {w : WorkRow} (h : createWork db now request = (db',w)) :
    (db' = db ∧ db.workByKey request.idempotencyKey = some w) ∨
    (db.workByKey request.idempotencyKey = none ∧ w.fixed = (request.toWorkSource,db.fresh) ∧
      db' = { db with works := db.works++[w], fresh := db.fresh+1 }) := by
  unfold createWork at h
  split at h
  · cases h
    exact .inl ⟨rfl,‹_›⟩
  · cases h
    exact .inr ⟨‹_›,rfl,rfl⟩

theorem mem_ensureOwnership {conversation w : ℕ} {o : OwnershipRow}
    (h : o ∈ (db.ensureOwnership conversation).ownership) (hw : o.workItemId = some w) :
    o ∈ db.ownership := by
  unfold Db.ensureOwnership at h
  split at h
  · exact h
  · rcases List.mem_append.mp h with h | h
    · exact h
    · cases List.mem_singleton.mp h
      cases hw

theorem requestAiHandoff_ok (h : requestAiHandoff db now request = .ok (db',item)) :
    ∃ mid, createWork db now request = (mid,item) ∧ item.toWorkSource = request.toWorkSource ∧
      request.conversationId ∈ db'.conversations ∧
      (item.id ∈ mid.sources.map Prod.snd → Grows mid db') ∧
      ((∃ o ∈ mid.ownership, o.workItemId = some item.id) ∨
        request.idempotencyKey ∈ db'.handoffKeys) := by
  unfold requestAiHandoff at h
  generalize hc : createWork db now request = c at h
  obtain ⟨mid,w⟩ := c
  simp only [bind_ok,require_ok,present_ok] at h
  obtain ⟨-,-,-,⟨hsrc,-⟩,o,ho,h⟩ := h
  have hkey := Table.find_key ho
  have hconv : request.conversationId ∈
      (mid.ensureOwnership request.conversationId).conversations :=
    List.mem_map.mpr ⟨o,Table.find_mem ho,hkey⟩
  split_ifs at h with hdone
  · cases h
    refine ⟨mid,rfl,hsrc,hconv,fun _ => grows_ensureOwnership _,.inl ⟨o,?_,hdone.1⟩⟩
    exact mem_ensureOwnership (Table.find_mem ho) hdone.1
  · simp only [bind_ok,pure_ok] at h
    obtain ⟨-,-,d1,h1,_,h2,h3⟩ := h
    cases h3
    obtain ⟨hg2,hhanded,-⟩ := addHandoff_ok h2
    have hg1 (hin : item.id ∈ mid.sources.map Prod.snd) : Grows mid d1 :=
      grows_ownWork h1 hin (fun _ => rfl) (grows_ensureOwnership _)
    refine ⟨mid,rfl,hsrc,?_,fun hin => (hg1 hin).trans hg2,.inr hhanded⟩
    apply hg2.ownership.subset
    rw [conversations_setOwnership h1]
    exact hconv

theorem grows_createWork {w : WorkRow} (hfix : w.fixed = (request.toWorkSource,db.fresh))
    (hg : Grows { db with works := db.works++[w], fresh := db.fresh+1 } db')
    (hdone : (∃ o ∈ db.ownership, o.workItemId = some w.id) ∨
      request.idempotencyKey ∈ db'.handoffKeys) : Grows db db' := by
  have hsrc : ({ db with works := db.works++[w], fresh := db.fresh+1 } : Db).sources =
      db.sources++[(request.toWorkSource,db.fresh)] := by simp [Db.sources,hfix]
  have hid : w.id = db.fresh := congrArg Prod.snd hfix
  have howned (ho : db.Owned) :
      ({ db with works := db.works++[w], fresh := db.fresh+1 } : Db).Owned := by
    constructor
    · intro x hx
      rcases List.mem_append.mp (hsrc ▸ hx) with hx | hx
      · exact (ho.numbered x hx).trans (Nat.lt_succ_self _)
      · cases List.mem_singleton.mp hx
        exact Nat.lt_succ_self _
    · intro o hm x hx
      rw [hsrc,List.map_append]
      exact List.mem_append_left _ (ho.named o hm x hx)
  refine ⟨?_,hg.handoffs,hg.ownership,fun ho => hg.owned (howned ho),fun ho x hx => ?_⟩
  · exact (hsrc ▸ List.prefix_append _ _ : db.sources <+: _).trans hg.works
  · rcases hg.handed (howned ho) x hx with hold | hnew
    · rcases List.mem_append.mp (hsrc ▸ hold) with hold | hold
      · exact .inl hold
      · cases List.mem_singleton.mp hold
        refine .inr (hdone.resolve_left ?_)
        rintro ⟨o,hm,hw⟩
        obtain ⟨y,hy,_⟩ := List.mem_map.mp (ho.named o hm w.id hw)
        have := ho.numbered y hy
        omega
    · exact .inr hnew

theorem grows_requestAiHandoff (h : requestAiHandoff db now request = .ok (db',item)) :
    Grows db db' := by
  obtain ⟨_,hc,-,-,hg,hdone⟩ := requestAiHandoff_ok h
  rcases createWork_cases hc with ⟨rfl,hkey⟩ | ⟨-,hfix,rfl⟩
  · exact hg (List.mem_map_of_mem (List.mem_map_of_mem (Table.find_mem hkey)))
  · refine grows_createWork hfix (hg ?_) hdone
    simp [Db.sources,WorkRow.fixed]

theorem recorded_of_ok (hhanded : ∀ w ∈ db'.sources, w.1.idempotencyKey ∈ db'.handoffKeys)
    (h : requestAiHandoff db now request = .ok (db',item)) : Recorded db' request item.id := by
  obtain ⟨mid,hc,hsrc,hconv,hg,-⟩ := requestAiHandoff_ok h
  have hfound : mid.workByKey request.idempotencyKey = some item := by
    rcases createWork_cases hc with ⟨rfl,hkey⟩ | ⟨hnone,_,rfl⟩
    · exact hkey
    · have hkey : item.idempotencyKey = request.idempotencyKey :=
        congrArg WorkSource.idempotencyKey hsrc
      rw [Db.workByKey,Table.find_append,show Table.find _ _ db.works = none from hnone]
      simp [hkey]
  have hwork : db'.sources.find? (fun w => w.1.idempotencyKey = request.idempotencyKey) =
      some (request.toWorkSource,item.id) := by
    refine (hg ?_).find ?_
    · exact List.mem_map_of_mem (List.mem_map_of_mem (Table.find_mem hfound))
    · rw [← workByKey_source,hfound,← hsrc]
      rfl
  exact ⟨hwork,hhanded _ (List.mem_of_find?_eq_some hwork),hconv⟩

theorem grows_transaction {a : Action} (h : transaction db a = .ok db') : Grows db db' := by
  cases a with
  | createQueue =>
    simp only [transaction,createQueue,bind_ok,pure_ok] at h
    obtain ⟨-,-,rfl⟩ := h
    exact .aside rfl rfl rfl (Nat.le_succ _)
  | updateQueue =>
    simp only [transaction,updateQueue,bind_ok,pure_ok] at h
    obtain ⟨q,-,-,-,rfl⟩ := h
    exact .aside rfl rfl rfl le_rfl
  | setPresence =>
    simp only [transaction,setPresence] at h
    split at h
    · cases h
      exact .aside rfl rfl rfl le_rfl
    · simp only [bind_ok,pure_ok] at h
      obtain ⟨-,-,-,-,rfl⟩ := h
      exact .aside rfl rfl rfl le_rfl
  | requestAiHandoff now r =>
    simp only [transaction] at h
    cases ha : requestAiHandoff db now r with
    | error => rw [ha] at h; cases h
    | ok => rw [ha] at h; cases h; exact grows_requestAiHandoff ha
  | claimWork => exact grows_claimWork h
  | acceptAssignment => exact grows_acceptAssignment h
  | completeAssignment => exact grows_completeAssignment h
  | transferToQueue => exact grows_transferToQueue h
  | transferToAgent => exact grows_transferToAgent h
  | supervisorRelease => exact grows_supervisorRelease h
  | supervisorTransferToAgent => exact grows_supervisorTransferToAgent h
  | cancelWork => exact grows_cancelWork h
  | returnToAi => exact grows_returnToAi h
  | bindAiReturn => exact grows_bindAiReturn h
  | rejectAiReturn => exact grows_rejectAiReturn h
  | markAiReturnAmbiguous id =>
    cases h
    exact grows_setHandoff id fun _ => rfl

theorem step_grows (db : Db) (a : Action) : Grows db (step db a) := by
  unfold step
  split
  · exact grows_transaction ‹_›
  · exact .refl db

theorem run_grows (as : List Action) (db : Db) : Grows db (Run.exec step as db) :=
  Run.exec_related step (fun _ => True) Grows (fun _ _ _ => trivial) .refl
    (fun _ _ _ => .trans) (fun s a _ => step_grows s a) as db trivial

theorem empty_owned : empty.Owned :=
  ⟨fun _ hm => absurd hm List.not_mem_nil,fun _ hm => absurd hm List.not_mem_nil⟩

theorem recorded_run {as bs : List Action}
    (h : requestAiHandoff (Run.exec step as empty) now request = .ok (db,item)) :
    Recorded (Run.exec step bs db) request item.id := by
  refine (recorded_of_ok ?_ h).grows (run_grows bs db)
  intro w hw
  have hg := (run_grows as empty).trans (grows_requestAiHandoff h)
  exact (hg.handed empty_owned w hw).resolve_left List.not_mem_nil

theorem Recorded.workByKey (h : Recorded db request id) :
    ∃ w, db.workByKey request.idempotencyKey = some w ∧ w.toWorkSource = request.toWorkSource ∧
      w.id = id := by
  have hw := workByKey_source db request.idempotencyKey
  rw [h.work,Option.map_eq_some_iff] at hw
  obtain ⟨w,hw,hfix⟩ := hw
  exact ⟨w,hw,congrArg Prod.fst hfix,congrArg Prod.snd hfix⟩

theorem replay_iff (h : Recorded db request id) :
    requestAiHandoff db now request = .ok (db',item) ↔ db' = db ∧
      db.serves request.queueId request.channel ∧
      db.workByKey request.idempotencyKey = some item ∧ item.queueId = request.queueId ∧
      ∃ o, db.ownershipRow request.conversationId = some o ∧ o.workItemId = some id ∧
        o.mode = .unassigned := by
  obtain ⟨w,hw,hsrc,rfl⟩ := h.workByKey
  obtain ⟨o,ho⟩ := ownershipRow_isSome h.ownership
  have hens : db.ensureOwnership request.conversationId = db := by simp only [Db.ensureOwnership,ho]
  simp only [requestAiHandoff,createWork,hw,hens,ho,bind_ok,require_ok,present_ok,hsrc]
  constructor
  · rintro ⟨-,hserves,-,⟨-,hqueue⟩,p,hp,h'⟩
    cases hp
    split_ifs at h' with hdone
    · cases h'
      exact ⟨rfl,hserves,rfl,hqueue,o,rfl,hdone⟩
    · simp only [bind_ok] at h'
      obtain ⟨-,-,d1,h1,_,h2,-⟩ := h'
      have hg : Grows db d1 := grows_ownWork h1
        (List.mem_map_of_mem (List.mem_map_of_mem (Table.find_mem hw))) (fun _ => rfl) (.refl db)
      exact absurd (hg.handoffs.subset h.handoff) (addHandoff_ok h2).2.2
  · rintro ⟨rfl,hserves,hitem,hqueue,p,hp,hdone⟩
    cases hp
    cases hitem
    exact ⟨(),hserves,(),⟨trivial,hqueue⟩,o,rfl,if_pos hdone⟩

def Answered (db : Db) (now : ℤ) (request : QueueHumanWorkRequest) (id : ℕ) : Prop :=
  ∃ db' item, requestAiHandoff db now request = .ok (db',item) ∧ item.id = id ∧
    db'.ownership = db.ownership ∧ db'.works = db.works ∧ db'.handoffs = db.handoffs

/-- A request that was answered once is answered again exactly while its queue serves the
channel, the item waits in that queue and the conversation is unassigned on the item. -/
theorem handoff_repeats_iff (as bs : List Action) (now now' : ℤ) (request : QueueHumanWorkRequest)
    (db : Db) (item : WorkRow)
    (h : requestAiHandoff (Run.exec step as empty) now request = .ok (db,item)) :
    Answered (Run.exec step bs db) now' request item.id ↔
      (Run.exec step bs db).serves request.queueId request.channel ∧
      (∃ w, (Run.exec step bs db).workByKey request.idempotencyKey = some w ∧
        w.queueId = request.queueId) ∧
      ∃ o, (Run.exec step bs db).ownershipRow request.conversationId = some o ∧
        o.workItemId = some item.id ∧ o.mode = .unassigned := by
  have hr : Recorded (Run.exec step bs db) request item.id := recorded_run h
  constructor
  · rintro ⟨_,w,hw,-⟩
    obtain ⟨-,hserves,hfound,hqueue,hown⟩ := (replay_iff hr).mp hw
    exact ⟨hserves,⟨w,hfound,hqueue⟩,hown⟩
  · rintro ⟨hserves,⟨w,hw,hqueue⟩,hown⟩
    obtain ⟨x,hx,-,hid⟩ := hr.workByKey
    cases hw.symm.trans hx
    exact ⟨_,w,(replay_iff hr).mpr ⟨rfl,hserves,hw,hqueue,hown⟩,hid,rfl,rfl,rfl⟩

def sales : List Action :=
  [.createQueue "sales" [.whatsapp] [] 5,.setPresence 7 .available 2 none]

def callBack : QueueHumanWorkRequest :=
  ⟨⟨1,none,.whatsapp,"conversation",none,none,none,0,"wants a call","call-back"⟩,0,none⟩

def called : WorkRow := ⟨callBack.toWorkSource,1,0,.queued,0,none,none,0⟩

def calledBack : Db := step (Run.exec step sales empty) (.requestAiHandoff 0 callBack)

def taken : List Action :=
  [.claimWork 0 (fun _ => false) ⟨0,1,[],7,"token"⟩,.acceptAssignment ⟨3,7,"token",1,3,"accept"⟩]

/-- The agent has claimed the item by then. -/
theorem callBack_repeats :
    requestAiHandoff (Run.exec step sales empty) 0 callBack = .ok (calledBack,called) ∧
      ((Run.exec step (taken.take 1) calledBack).workByKey "call-back").map WorkRow.state =
        some .claimed ∧
      Answered (Run.exec step (taken.take 1) calledBack) 60 callBack 1 :=
  ⟨rfl,rfl,(handoff_repeats_iff sales (taken.take 1) 0 60 callBack calledBack called rfl).mpr
    ⟨rfl,⟨_,rfl,rfl⟩,_,rfl,rfl,rfl⟩⟩

theorem taken_refuses :
    requestAiHandoff (Run.exec step sales empty) 0 callBack = .ok (calledBack,called) ∧
      requestAiHandoff (Run.exec step taken calledBack) 60 callBack =
        .error (.conflict "conversation is already human-owned") :=
  ⟨rfl,rfl⟩

end NexusAi.Humans
