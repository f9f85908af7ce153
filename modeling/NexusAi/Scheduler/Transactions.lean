import NexusAi.Scheduler.Effects

/-!
# Every transaction is a chain of effects

`Sound` is what the primary and foreign keys of the tables guarantee: rows are
found by identifiers that the counter has already passed, and an occurrence
names its schedule and its idempotency key. Every effect keeps it, and under
it every service operation is one effect, a batch one for each planned row.
-/

namespace NexusAi.Scheduler
open NexusAi.Checked

namespace Db

def scheduleIds (db : Db) : List ℕ := db.schedules.map ScheduleRow.id

def snapshots (db : Db) : List OccurrenceSnapshot :=
  db.occurrences.map OccurrenceRow.toOccurrenceSnapshot

structure Sound (db : Db) : Prop where
  schedulesKeyed : db.scheduleIds.Nodup
  schedulesBelow : ∀ i ∈ db.scheduleIds, i < db.fresh
  occurrencesKeyed : (db.snapshots.map OccurrenceSnapshot.id).Nodup
  occurrencesBelow : ∀ s ∈ db.snapshots, s.id < db.fresh
  owned : ∀ s ∈ db.snapshots, s.scheduleId ∈ db.scheduleIds
  named : ∀ s ∈ db.snapshots, s.p14IdempotencyKey = ⟨s.scheduleId,s.id⟩

theorem sound_empty (versions : List ℕ) : (empty versions).Sound := by
  constructor <;> simp [empty,scheduleIds,snapshots]

theorem Sound.keyed {db : Db} (h : db.Sound) : Table.Keyed (fun o => o.id) db.occurrences := by
  have := h.occurrencesKeyed
  rwa [snapshots,List.map_map] at this

theorem mem_snapshots {db : Db} {o : OccurrenceRow} (h : o ∈ db.occurrences) :
    o.toOccurrenceSnapshot ∈ db.snapshots :=
  List.mem_map_of_mem h

theorem scheduleIds_put (db : Db) (row : ScheduleRow) :
    (Table.put ScheduleRow.id row db.schedules).map ScheduleRow.id = db.scheduleIds :=
  Table.keys_put row db.schedules

theorem snapshots_put {db : Db} (h : db.Sound) {o o' : OccurrenceRow} (ho : o ∈ db.occurrences)
    (hs : o'.toOccurrenceSnapshot = o.toOccurrenceSnapshot) :
    (Table.put (fun o => o.id) o' db.occurrences).map OccurrenceRow.toOccurrenceSnapshot =
      db.snapshots := by
  apply Table.map_put
  intro r hr hid
  have hid' : o'.id = o.id := congrArg OccurrenceSnapshot.id hs
  rw [Table.mem_unique h.keyed hr ho (hid.trans hid'),hs]

theorem snapshots_cancel (db : Db) (id : ℕ) :
    (db.occurrences.map (cancelPendingOf id)).map OccurrenceRow.toOccurrenceSnapshot =
      db.snapshots := by
  rw [List.map_map]
  apply List.map_congr_left
  intro o _
  simp only [Function.comp_apply,cancelPendingOf]
  split_ifs <;> rfl

end Db

open Db

variable {db db' : Db} {row next : ScheduleRow} {id : ℕ} {reason : String}

theorem Db.Sound.same (h : db.Sound) (hids : db'.scheduleIds = db.scheduleIds)
    (hsnap : db'.snapshots = db.snapshots) (hf : db.fresh ≤ db'.fresh) : db'.Sound := by
  constructor
  · rw [hids]
    exact h.schedulesKeyed
  · rw [hids]
    exact fun i hi => (h.schedulesBelow i hi).trans_le hf
  · rw [hsnap]
    exact h.occurrencesKeyed
  · rw [hsnap]
    exact fun s hs => (h.occurrencesBelow s hs).trans_le hf
  · rw [hids,hsnap]
    exact h.owned
  · rw [hsnap]
    exact h.named

theorem sound_create (h : db.Sound) {hs : List HistoryRow} (hid : row.id = db.fresh) : ({ db with
      schedules := db.schedules++[row], history := db.history++hs, fresh := db.fresh+1 } :
        Db).Sound := by
  constructor
  · simp only [scheduleIds,List.map_append,List.map_cons,List.map_nil]
    apply List.Nodup.append h.schedulesKeyed (by simp)
    rw [List.disjoint_singleton,hid]
    exact fun hm => lt_irrefl _ (h.schedulesBelow _ hm)
  · intro i hi
    simp only [scheduleIds,List.map_append,List.map_cons,List.map_nil,List.mem_append,
      List.mem_singleton] at hi
    rcases hi with hi | rfl
    · exact (h.schedulesBelow i hi).trans (Nat.lt_succ_self _)
    · exact hid ▸ Nat.lt_succ_self _
  · exact h.occurrencesKeyed
  · exact fun s hs => (h.occurrencesBelow s hs).trans (Nat.lt_succ_self _)
  · intro s hs
    simp only [scheduleIds,List.map_append,List.mem_append]
    exact .inl (h.owned s hs)
  · exact h.named

theorem sound_materialize (h : db.Sound) {plan : Plan} {hs : List HistoryRow}
    (hrow : row.id ∈ db.scheduleIds) : ({ db with
      schedules := Table.put ScheduleRow.id (afterPlan row plan.next) db.schedules
      occurrences := db.occurrences++occurrencesFrom row db.fresh plan.selected
      history := db.history++hs
      fresh := db.fresh+plan.selected.length } : Db).Sound := by
  have hids := scheduleIds_put db (afterPlan row plan.next)
  have hnew : ∀ s ∈ (occurrencesFrom row db.fresh plan.selected).map
      OccurrenceRow.toOccurrenceSnapshot, db.fresh ≤ s.id ∧ s.id < db.fresh+plan.selected.length ∧
      s.scheduleId = row.id ∧ s.p14IdempotencyKey = ⟨s.scheduleId,s.id⟩ := by
    intro s hs
    obtain ⟨o,ho,rfl⟩ := List.mem_map.mp hs
    obtain ⟨hlo,hhi,t,-,he⟩ := mem_occurrencesFrom ho
    exact ⟨hlo,hhi,by rw [he]; rfl,by rw [he]; rfl⟩
  constructor
  · rw [scheduleIds,hids]
    exact h.schedulesKeyed
  · rw [scheduleIds,hids]
    exact fun i hi => (h.schedulesBelow i hi).trans_le (Nat.le_add_right _ _)
  · simp only [snapshots,List.map_append]
    apply List.Nodup.append h.occurrencesKeyed
    · rw [List.map_map]
      exact ids_occurrencesFrom row db.fresh plan.selected
    · intro i hi hi'
      obtain ⟨s,hs,rfl⟩ := List.mem_map.mp hi
      obtain ⟨t,ht,_⟩ := List.mem_map.mp hi'
      have := h.occurrencesBelow s hs
      have := (hnew t ht).1
      omega
  · intro s hs
    simp only [snapshots,List.map_append,List.mem_append] at hs
    rcases hs with hs | hs
    · exact (h.occurrencesBelow s hs).trans_le (Nat.le_add_right _ _)
    · exact (hnew s hs).2.1
  · intro s hs
    rw [scheduleIds,hids]
    simp only [snapshots,List.map_append,List.mem_append] at hs
    rcases hs with hs | hs
    · exact h.owned s hs
    · rw [(hnew s hs).2.2.1]
      exact hrow
  · intro s hs
    simp only [snapshots,List.map_append,List.mem_append] at hs
    rcases hs with hs | hs
    · exact h.named s hs
    · exact (hnew s hs).2.2.2

theorem scheduleRow_id (h : db.scheduleRow id = some row) : row ∈ db.schedules ∧ row.id = id :=
  ⟨Table.find_mem h,Table.find_key h⟩

theorem Effect.sound {lab : Label} (e : Effect lab db db') (h : db.Sound) : db'.Sound := by
  cases e with
  | create fresh => exact sound_create h fresh
  | edit | activate | pause | resume => exact h.same (scheduleIds_put _ _) rfl le_rfl
  | cancel => exact h.same (scheduleIds_put _ _) (snapshots_cancel _ _) le_rfl
  | materialize found => exact sound_materialize h (List.mem_map_of_mem (scheduleRow_id found).1)
  | cancelOccurrence found => exact h.same rfl (snapshots_put h found rfl) le_rfl
  | claim found => exact h.same rfl (snapshots_put h found rfl) (Nat.le_succ _)
  | attempt fenced => exact h.same rfl (snapshots_put h (fencedRow_some fenced).1 rfl) le_rfl
  | start => exact h.same rfl rfl (Nat.le_succ _)
  | settle _ _ fenced _ same =>
    exact h.same (scheduleIds_put _ _) (snapshots_put h (fencedRow_some fenced).1 same) le_rfl

theorem quiet_schedule {previous : Option ScheduleState} {target : ScheduleState}
    {source : Source} : KeepsClaims [⟨id,.schedule previous target,reason,source,none⟩] := by
  intro h hh i t
  rw [List.mem_singleton.mp hh]
  simp

theorem quiet_occurrence {sid : ℕ} {previous : Option OccurrenceState} {target : OccurrenceState}
    {source : Source} (hp : previous ≠ some .claimed) :
    KeepsClaims [⟨sid,.occurrence id previous target,reason,source,none⟩] := by
  intro h hh i t
  rw [List.mem_singleton.mp hh]
  simp [hp]

theorem createScheduleRequest_effect {request : CreateScheduleRequest}
    (h : createScheduleRequest db request = .ok (db',row)) : Effect .create db db' := by
  simp only [createScheduleRequest,bind_ok,require_ok] at h
  obtain ⟨_,-,h⟩ := h
  split at h
  · simp at h
  · simp only [createSchedule,bind_ok,require_ok,pure_ok,Prod.mk.injEq] at h
    obtain ⟨_,-,rfl,rfl⟩ := h
    exact .create rfl rfl rfl rfl rfl quiet_schedule

theorem validate_fields {f : ScheduleFields} {spec : ScheduleSpec}
    (h : ScheduleSpec.validate f = .ok spec) : spec.toScheduleFields = f := by
  unfold ScheduleSpec.validate at h
  split_ifs at h
  split at h
  · cases h
    rfl
  · cases h

theorem updateSchedule_effect {request : UpdateScheduleRequest}
    (h : updateSchedule db id request = .ok (db',next)) : Effect (.edit id) db db' := by
  simp only [updateSchedule,bind_ok,require_ok,present_ok,pure_ok,Prod.mk.injEq] at h
  obtain ⟨_,hrow,_,hstate,_,-,_,hspec,rfl,-⟩ := h
  obtain rfl := (scheduleRow_id hrow).2
  refine .edit hrow hstate ?_
  rw [validate_fields hspec]
  rfl

theorem activateSchedule_effect (h : activateSchedule db id = .ok (db',next)) :
    Effect (.activate id) db db' := by
  simp only [activateSchedule,bind_ok,require_ok,present_ok] at h
  obtain ⟨_,hrow,_,hstate,_,hslot,_,hend,h⟩ := h
  obtain ⟨-,rfl,rfl⟩ := transitionSchedule_ok h
  obtain rfl := (scheduleRow_id hrow).2
  exact .activate hrow hstate hslot hend quiet_schedule

theorem targets_paused {s : ScheduleState} (h : ScheduleState.paused ∈ s.targets) :
    s = .active := by
  cases s <;> simp_all [ScheduleState.targets]

theorem pauseSchedule_effect (h : pauseSchedule db id = .ok (db',next)) :
    Effect (.pause id) db db' := by
  simp only [pauseSchedule,bind_ok,present_ok] at h
  obtain ⟨_,hrow,h⟩ := h
  obtain ⟨ht,rfl,rfl⟩ := transitionSchedule_ok h
  obtain rfl := (scheduleRow_id hrow).2
  exact .pause hrow (targets_paused ht) quiet_schedule

theorem resumeSchedule_effect (h : resumeSchedule db id = .ok (db',next)) :
    Effect (.resume id) db db' := by
  simp only [resumeSchedule,bind_ok,require_ok,present_ok] at h
  obtain ⟨_,hrow,_,hstate,_,hm,h⟩ := h
  obtain ⟨-,rfl,rfl⟩ := transitionSchedule_ok h
  obtain rfl := (scheduleRow_id hrow).2
  exact .resume hrow hstate hm quiet_schedule

theorem cancelRows_ok {os : List OccurrenceRow} {rest : List OccurrenceRow}
    (hk : Table.Keyed (fun o => o.id) db.occurrences) (hos : (os.map fun o => o.id).Nodup)
    (hmem : ∀ o ∈ os, o ∈ db.occurrences) (h : cancelRows db os = .ok (db',rest)) :
    ∃ hs, KeepsClaims hs ∧ db' = { db with
      occurrences := db.occurrences.map fun o =>
        if o.id ∈ os.map (fun o => o.id) then { o with state := .cancelled } else o
      history := db.history++hs } := by
  induction os generalizing db rest with
  | nil =>
    cases h
    exact ⟨[],by simp [KeepsClaims],by simp⟩
  | cons o os ih =>
    simp only [cancelRows,bind_ok,pure_ok,Prod.mk.injEq] at h
    obtain ⟨_,h1,⟨_,_⟩,h2,rfl,-⟩ := h
    obtain ⟨p,-,rfl⟩ := logOccurrence_ok h1
    simp only [List.map_cons,List.nodup_cons] at hos
    have hmem' : ∀ q ∈ os, q ∈ Table.put (fun o => o.id)
        { o with state := OccurrenceState.cancelled } db.occurrences := by
      intro q hq
      rw [Table.mem_put]
      refine .inr ⟨hmem q (by simp [hq]),?_⟩
      intro he
      exact hos.1 (he ▸ List.mem_map_of_mem hq)
    obtain ⟨_,hq,rfl⟩ := ih (Table.keyed_put hk) hos.2 hmem' h2
    have h0 : KeepsClaims [⟨p.scheduleId,.occurrence o.id (some .pending) .cancelled,
        "SCHEDULE_CANCELLED",.api,none⟩] := quiet_occurrence (by simp)
    refine ⟨_,h0.append hq,?_⟩
    simp only [Db.log,Db.putOccurrence,List.append_assoc,Db.mk.injEq,true_and,and_true]
    simp only [Table.put,Table.modify,List.map_map]
    apply List.map_congr_left
    intro q hqm
    by_cases he : q.id = o.id
    · have hqo := Table.mem_unique hk hqm (hmem o (by simp)) he
      subst hqo
      simp [hos.1]
    · simp [he]

theorem cancelPending_ok {rest : List OccurrenceRow} (h : cancelPending db id = .ok (db',rest))
    (hk : Table.Keyed (fun o => o.id) db.occurrences) : ∃ hs, KeepsClaims hs ∧ db' = { db with
      occurrences := db.occurrences.map (cancelPendingOf id), history := db.history++hs } := by
  obtain ⟨hs,hq,rfl⟩ := cancelRows_ok hk (hk.sublist (List.filter_sublist.map _))
    (fun o ho => List.mem_of_mem_filter ho) h
  refine ⟨hs,hq,?_⟩
  simp only [Db.mk.injEq,true_and,and_true]
  apply List.map_congr_left
  intro o ho
  have hiff : o.id ∈ (db.occurrences.filter fun p => p.scheduleId = id &&
      p.state = .pending).map (fun p => p.id) ↔
      o.scheduleId = id ∧ o.state = .pending := by
    simp only [List.mem_map,List.mem_filter,Bool.and_eq_true,decide_eq_true_eq]
    constructor
    · rintro ⟨p,⟨hp,hc⟩,he⟩
      rwa [Table.mem_unique hk hp ho he] at hc
    · exact fun hc => ⟨o,⟨ho,hc⟩,rfl⟩
  simp only [cancelPendingOf,hiff]

theorem cancelSchedule_effect (hs : db.Sound) (h : cancelSchedule db id = .ok (db',next)) :
    Effect (.cancel id) db db' := by
  simp only [cancelSchedule,bind_ok,present_ok,pure_ok,Prod.mk.injEq] at h
  obtain ⟨row,hrow,⟨_,_⟩,h1,⟨_,cancelled⟩,h2,rfl,rfl⟩ := h
  obtain ⟨ht,rfl,rfl⟩ := transitionSchedule_ok h1
  obtain rfl := (scheduleRow_id hrow).2
  obtain ⟨_,hq,rfl⟩ := cancelPending_ok h2 hs.keyed
  have h0 : KeepsClaims [⟨row.id,.schedule (some row.state) .cancelled,
      "SCHEDULE_CANCELLED",.api,none⟩] := quiet_schedule
  convert Effect.cancel hrow ht (h0.append hq) using 1
  simp only [Db.putSchedule,Db.logSchedule,Db.log,List.append_assoc]

theorem occurrenceRow_put (hs : db.Sound) {o o' : OccurrenceRow} (ho : o ∈ db.occurrences)
    (hid : o'.id = o.id) : (db.putOccurrence o').occurrenceRow o'.id = some o' := by
  rw [Db.occurrenceRow,Db.putOccurrence,Table.find_put,if_pos rfl,hid,
    Table.find_of_mem hs.keyed ho]
  rfl

variable {o : OccurrenceRow}

theorem occurrenceRow_some (h : db.occurrenceRow id = some o) :
    o ∈ db.occurrences ∧ o.id = id :=
  ⟨Table.find_mem h,by simpa using List.find?_some h⟩

theorem cancelOccurrence_effect (h : cancelOccurrence db id = .ok (db',o)) :
    Effect (.cancelOccurrence id) db db' := by
  simp only [cancelOccurrence,cancelOccurrenceRow,requireOccurrenceTransition,bind_ok,present_ok,
    require_ok,pure_ok,Prod.mk.injEq] at h
  obtain ⟨p,hp,_,_,_,h1,rfl,-⟩ := h
  obtain ⟨q,-,rfl⟩ := logOccurrence_ok h1
  obtain ⟨hm,rfl⟩ := occurrenceRow_some hp
  have hpending : p.state = .pending := by
    cases hps : p.state <;> simp_all [OccurrenceState.targets]
  exact .cancelOccurrence hm hpending (quiet_occurrence (by simp [hpending]))

theorem claimableSchedule_some {q : Query} (hs : db.Sound) (h : claimableSchedule db q = some row) :
    db.scheduleRow row.id = some row ∧ row.state = .active := by
  obtain ⟨o,-,ho⟩ := List.exists_of_findSome?_eq_some h
  have hp := List.find?_some ho
  simp only [Bool.and_eq_true,decide_eq_true_eq] at hp
  exact ⟨Table.find_of_mem hs.schedulesKeyed (List.mem_of_find?_eq_some ho),hp.1.2⟩

theorem claimableOccurrence_some {q : Query}
    (h : claimableOccurrence db q id = some o) :
    o ∈ db.occurrences ∧ o.scheduleId = id ∧ o.state = .pending := by
  have hm := List.mem_of_mem_head? h
  rw [List.mem_insertionSort] at hm
  simp only [List.mem_filter,isClaimable,Bool.and_eq_true,decide_eq_true_eq] at hm
  exact ⟨hm.1,hm.2.1.1,hm.2.1.2.1⟩

theorem claimDue_effect {outer inner : Query} {owner : ℕ} {claim : Option OccurrenceClaim}
    (hs : db.Sound) (h : claimDue db outer inner owner = .ok (db',claim)) :
    (db' = db ∧ claim = none) ∨ ∃ c, claim = some c ∧ Effect (.claim c) db db' := by
  unfold claimDue at h
  split at h
  · cases h
    exact .inl ⟨rfl,rfl⟩
  · rename_i hrow
    split at h
    · cases h
      exact .inl ⟨rfl,rfl⟩
    · rename_i ho
      simp only [bind_ok,pure_ok,Prod.mk.injEq] at h
      obtain ⟨_,-,_,h1,rfl,rfl⟩ := h
      obtain ⟨p,-,rfl⟩ := logOccurrence_ok h1
      obtain ⟨hfound,hactive⟩ := claimableSchedule_some hs hrow
      obtain ⟨hm,hsid,hpending⟩ := claimableOccurrence_some ho
      exact .inr ⟨_,rfl,.claim hm hpending hfound hactive hsid (quiet_occurrence (by simp))⟩

theorem beginDispatch_effect {claim : OccurrenceClaim} (h : beginDispatch db claim = .ok db') :
    Effect (.attempt claim) db db' := by
  simp only [beginDispatch,bind_ok,present_ok,pure_ok] at h
  obtain ⟨o,ho,rfl⟩ := h
  exact .attempt ho

theorem startRun_effect {version : ℕ} {key : IdempotencyKey} {input : Json.Fields} {stale : Bool}
    {run : RunRow} (h : startRun db version key input stale = .ok (db',run)) :
    run.versionId = version ∧ run.idempotencyKey = key ∧ run ∈ db'.runs ∧
      (db' = db ∨ Effect (.start run) db db') := by
  have hfound : ∀ r, runByIdempotency db version key = some r →
      r.versionId = version ∧ r.idempotencyKey = key ∧ r ∈ db.runs := by
    intro r hr
    have hp := List.find?_some hr
    simp only [Bool.and_eq_true,decide_eq_true_eq] at hp
    exact ⟨hp.1,hp.2,List.mem_of_find?_eq_some hr⟩
  simp only [startRun,bind_ok,require_ok] at h
  obtain ⟨_,-,h⟩ := h
  split at h
  · rename_i r hr
    simp only [bind_ok,require_ok,pure_ok,Prod.mk.injEq] at h
    obtain ⟨_,-,rfl,rfl⟩ := h
    have hr' : runByIdempotency db version key = some r := by
      cases stale with
      | true => simp at hr
      | false => simpa using hr
    obtain ⟨hv,hk,hm⟩ := hfound r hr'
    exact ⟨hv,hk,hm,.inl rfl⟩
  · split at h
    · rename_i r hr
      simp only [bind_ok,require_ok,pure_ok,Prod.mk.injEq] at h
      obtain ⟨_,-,rfl,rfl⟩ := h
      obtain ⟨hv,hk,hm⟩ := hfound r hr
      exact ⟨hv,hk,hm,.inl rfl⟩
    · rename_i hnone
      simp only [pure_ok,Prod.mk.injEq] at h
      obtain ⟨rfl,rfl⟩ := h
      exact ⟨rfl,rfl,by simp,.inr (.start rfl hnone)⟩

theorem settleDispatch_effect {claim : OccurrenceClaim} {settled : OccurrenceRow → OccurrenceRow}
    {target : OccurrenceState} {why : String} {o' : OccurrenceRow} (hs : db.Sound)
    (honest : ∀ o ∈ db.occurrences, o.id = claim.occurrence.id →
      o.scheduleId = claim.occurrence.scheduleId)
    (h : settleDispatch db claim settled target reason why = .ok (db',o'))
    (same : ∀ o, (settled o).toOccurrenceSnapshot = o.toOccurrenceSnapshot ∧
      (settled o).claimOwnerId = o.claimOwnerId ∧ (settled o).claimToken = o.claimToken ∧
      (settled o).state = target) (ht : target = .dispatched ∨ target = .failed) :
    (∃ o, fencedRow db claim = some o ∧ o' = settled o) ∧ Effect (.settle claim o') db db' := by
  simp only [settleDispatch,bind_ok,present_ok] at h
  obtain ⟨row,hrow,o,ho,_,h1,h⟩ := h
  obtain ⟨hm,hid,-,-,-⟩ := fencedRow_some ho
  obtain ⟨hsnap,howner,htoken,hstate⟩ := same o
  obtain ⟨hrm,hrid⟩ := scheduleRow_id hrow
  have hsid : o.scheduleId = row.id := (honest o hm hid).trans hrid.symm
  have hsid' : (settled o).scheduleId = row.id :=
    (congrArg OccurrenceSnapshot.scheduleId hsnap).trans hsid
  have hid' : (settled o).id = o.id := congrArg OccurrenceSnapshot.id hsnap
  rw [← hrid] at hrow
  obtain ⟨p,hp,rfl⟩ := logOccurrence_ok h1
  obtain rfl : settled o = p := by
    rw [occurrenceRow_put hs hm hid'] at hp
    exact Option.some.inj hp
  have htarget : (settled o).state = .dispatched ∨ (settled o).state = .failed := by
    rw [hstate]
    exact ht
  split_ifs at h with hc
  · simp only [bind_ok,pure_ok,Prod.mk.injEq] at h
    obtain ⟨⟨_,_⟩,h2,rfl,rfl⟩ := h
    obtain ⟨-,rfl,rfl⟩ := transitionSchedule_ok h2
    refine ⟨⟨o,ho,rfl⟩,?_⟩
    have h0 : KeepsClaims [⟨row.id,.schedule (some row.state) .completed,why,.worker,none⟩] :=
      quiet_schedule
    convert Effect.settle reason hrow ho hsid hsnap howner htoken htarget h0 using 1
    simp only [Db.logSchedule,Db.log,Db.putSchedule,Db.putOccurrence,afterSettling,if_pos hc,hid',
      hsid',hstate,List.append_assoc,List.singleton_append]
  · simp only [pure_ok,Prod.mk.injEq] at h
    obtain ⟨rfl,rfl⟩ := h
    refine ⟨⟨o,ho,rfl⟩,?_⟩
    have hnil : KeepsClaims [] := by simp [KeepsClaims]
    convert Effect.settle reason hrow ho hsid hsnap howner htoken htarget hnil using 1
    simp only [Db.log,Db.putSchedule,Db.putOccurrence,afterSettling,if_neg hc,hid',hsid',hstate,
      Table.put_self hs.schedulesKeyed hrm]

end NexusAi.Scheduler
