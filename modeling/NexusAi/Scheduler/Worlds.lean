import NexusAi.Scheduler.Rows

/-!
# Worlds

In every reachable world the claims that workers hold are honest and every run
was started for such a claim. Under these facts a step of the system is a
chain of effects that its action licenses, and what the effects keep of the
life of a schedule, all steps keep.
-/

namespace NexusAi.Scheduler
open NexusAi.Checked

def Outcome.Settles : Outcome → OccurrenceRow → Prop
  | .accepted runId, o => o.state = .dispatched ∧ o.workflowRunId = some runId
  | .rejected _, o => o.state = .failed
  | .lost _, o => o.state = .failed

def Licensed (w : World) : Action → Label → Prop
  | .createSchedule _, .create => True
  | .updateSchedule id _, .edit i => i = id
  | .activateSchedule id, .activate i => i = id
  | .pauseSchedule id, .pause i => i = id
  | .resumeSchedule id, .resume i => i = id
  | .cancelSchedule id, .cancel i => i = id
  | .materializeDue q limit, .materialize row plan =>
    ∃ r plans, materializeDue w.db q limit = .ok r ∧
      planRows q.now (dueScheduleRows w.db q limit) limit = .ok plans ∧ (row,plan) ∈ plans
  | .cancelOccurrence id, .cancelOccurrence i => i = id
  | .claimDue _ _ _, .claim _ => True
  | .beginDispatch i, .attempt c => w.claims[i]? = some c
  | .startRun i _ _, .start run => ∃ k, w.calls[i]? = some k ∧ k.outcome = none ∧
      run.versionId = k.claim.occurrence.workflowVersionId ∧
      run.idempotencyKey = k.claim.occurrence.p14IdempotencyKey
  | .settle i, .settle c o =>
    ∃ outcome, w.calls[i]? = some ⟨c,some outcome,false⟩ ∧ (fencedRow w.db c).isSome ∧
      outcome.Settles o
  | _, _ => False

variable {w : World} {a : Action} {id : ℕ} {c : OccurrenceClaim} {P : Label → Prop} {db : Db}

theorem licensed_edit (h : Licensed w a (.edit id)) :
    ∃ request, a = .updateSchedule id request := by
  cases a with
  | updateSchedule i request =>
    obtain rfl : id = i := h
    exact ⟨request,rfl⟩
  | _ => exact h.elim

theorem licensed_resume (h : Licensed w a (.resume id)) : a = .resumeSchedule id := by
  cases a with
  | resumeSchedule i =>
    obtain rfl : id = i := h
    rfl
  | _ => exact h.elim

theorem licensed_materialize {row : ScheduleRow} {plan : Plan}
    (h : Licensed w a (.materialize row plan)) : ∃ q limit r plans,
      a = .materializeDue q limit ∧ materializeDue w.db q limit = .ok r ∧
      planRows q.now (dueScheduleRows w.db q limit) limit = .ok plans ∧ (row,plan) ∈ plans := by
  cases a with
  | materializeDue q limit =>
    obtain ⟨r,plans,hr,hp,hm⟩ := h
    exact ⟨q,limit,r,plans,rfl,hr,hp,hm⟩
  | _ => exact h.elim

theorem licensed_cancelOccurrence (h : Licensed w a (.cancelOccurrence id)) :
    a = .cancelOccurrence id := by
  cases a with
  | cancelOccurrence i =>
    obtain rfl : id = i := h
    rfl
  | _ => exact h.elim

theorem licensed_settle {o : OccurrenceRow} (h : Licensed w a (.settle c o)) :
    ∃ i outcome, a = .settle i ∧ w.calls[i]? = some ⟨c,some outcome,false⟩ ∧
      (fencedRow w.db c).isSome ∧ outcome.Settles o := by
  cases a with
  | settle i =>
    obtain ⟨outcome,hi,hf,ho⟩ := h
    exact ⟨i,outcome,rfl,hi,hf,ho⟩
  | _ => exact h.elim

theorem commit_effect {α : Type} {x : Result (Db × α)}
    (h : ∀ db' a, x = .ok (db',a) → ∃ lab, P lab ∧ Effect lab db db') :
    commit x db = db ∨ ∃ lab, P lab ∧ Effect lab db (commit x db) := by
  rcases commit_cases x db with ⟨p,hp,he⟩ | he
  · rw [he]
    exact .inr (h p.1 p.2 hp)
  · exact .inl he

theorem settleCall_effect {db' : Db} {claim : OccurrenceClaim} {outcome : Outcome}
    {o : OccurrenceRow} (hs : db.Sound) (hc : claim.Honest db)
    (h : settleCall db claim outcome = .ok (db',o)) :
    Effect (.settle claim o) db db' ∧ outcome.Settles o := by
  have honest : ∀ o ∈ db.occurrences, o.id = claim.occurrence.id →
      o.scheduleId = claim.occurrence.scheduleId := by
    obtain ⟨-,p,hp,hsnap,-⟩ := hc
    intro o ho hid
    have he : o = p := Table.mem_unique hs.keyed ho hp
      (hid.trans (congrArg OccurrenceSnapshot.id hsnap).symm)
    rw [he]
    exact congrArg OccurrenceSnapshot.scheduleId hsnap
  cases outcome with
  | accepted =>
    simp only [settleCall,finishDispatch] at h
    obtain ⟨⟨p,-,rfl⟩,e⟩ := settleDispatch_effect hs honest h
      (fun _ => ⟨rfl,rfl,rfl,rfl⟩) (.inl rfl)
    exact ⟨e,rfl,rfl⟩
  | rejected | lost =>
    simp only [settleCall,failDispatch] at h
    obtain ⟨⟨p,-,rfl⟩,e⟩ := settleDispatch_effect hs honest h
      (fun _ => ⟨rfl,rfl,rfl,rfl⟩) (.inr rfl)
    exact ⟨e,rfl⟩

structure World.Sound (w : World) : Prop where
  db : w.db.Sound
  claims : ∀ c ∈ w.claims, c.Honest w.db
  calls : ∀ k ∈ w.calls, k.claim ∈ w.claims
  runsKeyed : (w.db.runs.map fun r => (r.versionId,r.idempotencyKey)).Nodup
  runs : ∀ r ∈ w.db.runs, ∃ c ∈ w.claims, r.versionId = c.occurrence.workflowVersionId ∧
    r.idempotencyKey = c.occurrence.p14IdempotencyKey

theorem sound_initial (versions : List ℕ) : (initial versions).Sound := by
  constructor
  · exact Db.sound_empty versions
  all_goals simp [initial,empty]

/-- The workflow service refuses without effect, or it answers with a run of
the claim's version and key or loses that answer. -/
theorem deliver_cases (db : Db) (claim : OccurrenceClaim) (stale : Bool) (delivery : Delivery) :
    (∃ code, deliver db claim stale delivery = (db,.rejected code)) ∨
    ∃ run db' outcome, deliver db claim stale delivery = (db',outcome) ∧
      run.versionId = claim.occurrence.workflowVersionId ∧
      run.idempotencyKey = claim.occurrence.p14IdempotencyKey ∧ run ∈ db'.runs ∧
      (db' = db ∨ Effect (.start run) db db') ∧
      (outcome = .accepted run.id ∨ ∃ code, outcome = .lost code) := by
  cases delivery with
  | rejected code => exact .inl ⟨code,rfl⟩
  | answered =>
    simp only [deliver]
    split
    · rename_i db' run h
      obtain ⟨hv,hk,hm,he⟩ := startRun_effect h
      exact .inr ⟨run,db',_,rfl,hv,hk,hm,he,.inl rfl⟩
    · exact .inl ⟨_,rfl⟩
  | lost code =>
    simp only [deliver]
    split
    · rename_i db' run h
      obtain ⟨hv,hk,hm,he⟩ := startRun_effect h
      exact .inr ⟨run,db',_,rfl,hv,hk,hm,he,.inr ⟨code,rfl⟩⟩
    · exact .inl ⟨_,rfl⟩

theorem deliver_effect (db : Db) (claim : OccurrenceClaim) (stale : Bool) (delivery : Delivery) :
    (deliver db claim stale delivery).1 = db ∨ ∃ run,
      Effect (.start run) db (deliver db claim stale delivery).1 ∧
      run.versionId = claim.occurrence.workflowVersionId ∧
      run.idempotencyKey = claim.occurrence.p14IdempotencyKey := by
  rcases deliver_cases db claim stale delivery with
    ⟨code,he⟩ | ⟨run,db',outcome,he,hv,hk,-,hdb | e,-⟩
  · exact .inl (by rw [he])
  · exact .inl (by rw [he]; exact hdb)
  · exact .inr ⟨run,by rw [he]; exact e,hv,hk⟩

theorem step_effect (hw : w.Sound) (ha : ∀ q limit, a ≠ .materializeDue q limit) :
    (step w a).db = w.db ∨ ∃ lab, Licensed w a lab ∧ Effect lab w.db (step w a).db := by
  cases a with
  | materializeDue q limit => exact absurd rfl (ha q limit)
  | createSchedule =>
    exact commit_effect fun db' r h => ⟨.create,trivial,createScheduleRequest_effect h⟩
  | updateSchedule id =>
    exact commit_effect fun db' r h => ⟨.edit id,rfl,updateSchedule_effect h⟩
  | activateSchedule id =>
    exact commit_effect fun db' r h => ⟨.activate id,rfl,activateSchedule_effect h⟩
  | pauseSchedule id => exact commit_effect fun db' r h => ⟨.pause id,rfl,pauseSchedule_effect h⟩
  | resumeSchedule id =>
    exact commit_effect fun db' r h => ⟨.resume id,rfl,resumeSchedule_effect h⟩
  | cancelSchedule id =>
    exact commit_effect fun db' r h => ⟨.cancel id,rfl,cancelSchedule_effect hw.db h⟩
  | cancelOccurrence id =>
    exact commit_effect fun db' r h => ⟨.cancelOccurrence id,rfl,cancelOccurrence_effect h⟩
  | claimDue =>
    simp only [step]
    split
    · rename_i db' claim h
      rcases claimDue_effect hw.db h with ⟨rfl,-⟩ | ⟨c,-,e⟩
      · exact .inl rfl
      · exact .inr ⟨.claim c,trivial,e⟩
    · exact .inl rfl
  | beginDispatch =>
    simp only [step]
    split
    · exact .inl rfl
    · rename_i claim hi
      split
      · rename_i db' h
        exact .inr ⟨.attempt claim,hi,beginDispatch_effect h⟩
      · exact .inl rfl
  | startRun _ stale delivery =>
    simp only [step]
    split
    · rename_i claim _ hi
      rcases deliver_effect w.db claim stale delivery with he | ⟨run,e,hv,hk⟩
      · exact .inl he
      · exact .inr ⟨.start run,⟨_,hi,rfl,hv,hk⟩,e⟩
    · exact .inl rfl
  | settle =>
    simp only [step]
    split
    · rename_i claim outcome hi
      have hc := hw.claims _ (hw.calls _ (List.mem_of_getElem? hi))
      refine commit_effect fun db' o h => ?_
      obtain ⟨e,ho⟩ := settleCall_effect hw.db hc h
      exact ⟨.settle claim o,⟨outcome,hi,e.fenced,ho⟩,e⟩
    · exact .inl rfl

/-- A step changes nothing, is one effect, or applies the plans of a batch. -/
theorem step_cases (hw : w.Sound) (a : Action) : (step w a).db = w.db ∨
    (∃ lab, Licensed w a lab ∧ Effect lab w.db (step w a).db) ∨
    ∃ now plans os, Executable w.db now plans ∧
      (∀ p ∈ plans, Licensed w a (.materialize p.1 p.2)) ∧
      applyPlans plans w.db = .ok ((step w a).db,os) := by
  by_cases ha : ∀ q limit, a ≠ .materializeDue q limit
  · exact (step_effect hw ha).imp_right .inl
  · push Not at ha
    obtain ⟨q,limit,rfl⟩ := ha
    rcases commit_cases (materializeDue w.db q limit) w.db with ⟨p,hp,he⟩ | he
    · obtain ⟨plans,hplans,happly⟩ := materializeDue_ok hp
      refine .inr (.inr ⟨_,plans,p.2,executable_due hw.db hplans,
        fun _ hm => ⟨p,plans,hp,hplans,hm⟩,?_⟩)
      simp only [step,he]
      exact happly
    · exact .inl he

theorem step_chain (hw : w.Sound) (a : Action) : Chain (Licensed w a) w.db (step w a).db := by
  rcases step_cases hw a with he | ⟨_,hlic,e⟩ | ⟨_,_,_,hx,hlic,happly⟩
  · rw [he]
    exact .refl _
  · exact .one e hlic
  · exact applyPlans_chain hx hlic happly

theorem step_life (hw : w.Sound) (a : Action) {sid : ℕ} {l : Life} (hl : w.db.life sid = some l) :
    ∃ l', (step w a).db.life sid = some l' ∧
      (l' = l ∨ ∃ lab, Licensed w a lab ∧ Move lab l l') := by
  rcases step_cases hw a with he | ⟨lab,hlic,e⟩ | ⟨_,_,_,hx,hlic,happly⟩
  · rw [he]
    exact ⟨l,hl,.inl rfl⟩
  · obtain ⟨l',hl',h⟩ := e.life hw.db hl
    exact ⟨l',hl',h.imp_right fun hm => ⟨lab,hlic,hm⟩⟩
  · obtain ⟨l',hl',h⟩ := applyPlans_life hw.db hx happly hl
    refine ⟨l',hl',h.imp_right ?_⟩
    rintro ⟨plan,hm,hmove⟩
    exact ⟨.materialize l.row plan,hlic _ hm,hmove⟩

theorem step_life_new (hw : w.Sound) (a : Action) {sid : ℕ} {l : Life} (hl : w.db.life sid = none)
    (hl' : (step w a).db.life sid = some l) : l.Blank := by
  have hsame : (step w a).db.scheduleIds = w.db.scheduleIds → l.Blank := by
    intro hids
    rw [life_none,← hids,← life_none] at hl
    rw [hl] at hl'
    cases hl'
  rcases step_cases hw a with he | ⟨_,-,e⟩ | ⟨_,_,_,-,-,happly⟩
  · exact hsame (congrArg Db.scheduleIds he)
  · exact e.life_new hw.db hl hl'
  · exact hsame (applyPlans_ids happly)

/-- The invariant rule of lives: what blank lives have and what the moves that
the action licenses keep, all lives have after the step. -/
theorem step_lives (hw : w.Sound) (a : Action) {inv : Life → Prop} (hblank : ∀ l, l.Blank → inv l)
    (hmove : ∀ lab l l', Licensed w a lab → w.db.life l.row.id = some l → inv l →
      Move lab l l' → inv l') (h : ∀ sid l, w.db.life sid = some l → inv l) :
    ∀ sid l, (step w a).db.life sid = some l → inv l := by
  intro sid l' hl'
  cases hl : w.db.life sid with
  | none => exact hblank l' (step_life_new hw a hl hl')
  | some l =>
    obtain ⟨l₂,h₂,hstep⟩ := step_life hw a hl
    obtain rfl : l₂ = l' := Option.some.inj (h₂.symm.trans hl')
    rcases hstep with rfl | ⟨lab,hlic,hm⟩
    · exact h sid _ hl
    · refine hmove lab l _ hlic ?_ (h sid l hl) hm
      rw [(scheduleRow_id (life_some.mp hl).1).2]
      exact hl

theorem Chain.runs {db' : Db} (ch : Chain P db db') (hP : ∀ run, ¬ P (.start run)) :
    db'.runs = db.runs := by
  induction ch with
  | refl => rfl
  | cons licensed first _ ih =>
    rcases first.runs with he | ⟨run,rfl,-⟩
    · exact ih.trans he
    · exact absurd licensed (hP run)

theorem not_licensed_start (ha : ∀ i stale d, a ≠ .startRun i stale d) (run : RunRow) :
    ¬ Licensed w a (.start run) := by
  cases a with
  | startRun i stale d => exact absurd rfl (ha i stale d)
  | _ => exact id

theorem sound_of_chain (hw : w.Sound) {calls : List Call} (ch : Chain P w.db db)
    (hruns : db.runs = w.db.runs) (hcalls : ∀ k ∈ calls, k.claim ∈ w.claims) :
    (⟨db,w.claims,calls⟩ : World).Sound where
  db := ch.sound hw.db
  claims c hc := ch.honest hw.db (hw.claims c hc)
  calls := hcalls
  runsKeyed := by
    dsimp only
    rw [hruns]
    exact hw.runsKeyed
  runs := by
    dsimp only
    rw [hruns]
    exact hw.runs

theorem calls_set (hw : w.Sound) {i : ℕ} {k : Call} {outcome : Option Outcome} {settled : Bool}
    (hi : w.calls[i]? = some k) :
    ∀ k' ∈ w.calls.set i ⟨k.claim,outcome,settled⟩, k'.claim ∈ w.claims := by
  intro k' hk'
  rcases List.mem_or_eq_of_mem_set hk' with hk' | rfl
  · exact hw.calls k' hk'
  · exact hw.calls k (List.mem_of_getElem? hi)

theorem sound_claim (hw : w.Sound) (e : Effect (.claim c) w.db db) :
    (⟨db,w.claims++[c],w.calls⟩ : World).Sound := by
  have hruns : db.runs = w.db.runs := by
    rcases e.runs with he | ⟨_,he,-⟩
    · exact he
    · cases he
  constructor
  · exact e.sound hw.db
  · intro d hd
    rcases Table.mem_concat hd with hd | rfl
    · exact e.honest hw.db (hw.claims d hd)
    · cases e with
      | claim found =>
        refine ⟨rfl,_,?_,rfl,rfl,rfl,.inl rfl⟩
        exact Table.mem_put.mpr (.inl ⟨⟨_,found,rfl⟩,rfl⟩)
  · exact fun k hk => List.mem_append_left _ (hw.calls k hk)
  · dsimp only
    rw [hruns]
    exact hw.runsKeyed
  · dsimp only
    rw [hruns]
    intro r hr
    obtain ⟨d,hd,h⟩ := hw.runs r hr
    exact ⟨d,List.mem_append_left _ hd,h⟩

theorem runByIdempotency_none {version : ℕ} {key : IdempotencyKey}
    (h : runByIdempotency db version key = none) (r : RunRow) (hr : r ∈ db.runs) :
    ¬ (r.versionId = version ∧ r.idempotencyKey = key) := by
  have := List.find?_eq_none.mp h r hr
  simpa using this

theorem sound_start (hw : w.Sound) {run : RunRow} {calls : List Call} (hc : c ∈ w.claims)
    (hv : run.versionId = c.occurrence.workflowVersionId)
    (hk : run.idempotencyKey = c.occurrence.p14IdempotencyKey) (e : Effect (.start run) w.db db)
    (hcalls : ∀ k ∈ calls, k.claim ∈ w.claims) : (⟨db,w.claims,calls⟩ : World).Sound := by
  have hs := e.sound hw.db
  have hh := fun d hd => e.honest hw.db (hw.claims d hd)
  cases e with
  | start _ absent =>
    refine ⟨hs,hh,hcalls,?_,?_⟩
    · simp only [List.map_append,List.map_cons,List.map_nil]
      apply List.Nodup.append hw.runsKeyed (by simp)
      rw [List.disjoint_singleton]
      intro hm
      obtain ⟨r,hr,he⟩ := List.mem_map.mp hm
      simp only [Prod.mk.injEq] at he
      exact runByIdempotency_none absent r hr he
    · intro r hr
      rcases Table.mem_concat hr with hr | rfl
      · exact hw.runs r hr
      · exact ⟨c,hc,hv,hk⟩

theorem step_sound (hw : w.Sound) (a : Action) : (step w a).Sound := by
  have hch := step_chain hw a
  have hruns := fun ha => hch.runs (not_licensed_start (a := a) ha)
  cases a with
  | claimDue =>
    simp only [step]
    split
    · rename_i db' claim h
      rcases claimDue_effect hw.db h with ⟨rfl,rfl⟩ | ⟨c,rfl,e⟩
      · simpa using hw
      · exact sound_claim hw e
    · exact hw
  | beginDispatch =>
    simp only [step] at hch hruns ⊢
    split
    · exact hw
    · rename_i claim hi
      split
      · rename_i db' h
        have e := beginDispatch_effect h
        have hr : db'.runs = w.db.runs := by
          rcases e.runs with he | ⟨_,he,-⟩
          · exact he
          · cases he
        refine sound_of_chain hw (Chain.one (P := fun _ => True) e trivial) hr ?_
        intro k hk
        rcases Table.mem_concat hk with hk | rfl
        · exact hw.calls k hk
        · exact List.mem_of_getElem? hi
      · exact hw
  | startRun _ stale delivery =>
    simp only [step]
    split
    · rename_i claim _ hi
      rcases deliver_effect w.db claim stale delivery with he | ⟨_,e,hv,hk⟩
      · rw [he]
        exact sound_of_chain hw (Chain.refl (P := fun _ => True) _) rfl (calls_set hw hi)
      · exact sound_start hw (hw.calls _ (List.mem_of_getElem? hi)) hv hk e (calls_set hw hi)
    · exact hw
  | settle =>
    have hr := hruns (by simp)
    simp only [step] at hch hr ⊢
    split
    · rename_i hi
      rw [hi] at hch hr
      exact sound_of_chain hw hch hr (calls_set hw hi)
    · exact hw
  | _ => exact sound_of_chain hw hch (hruns (by simp)) hw.calls

theorem reach_sound (versions : List ℕ) (as : List Action) : (reach versions as).Sound :=
  Run.exec_invariant step World.Sound (fun _ a h => step_sound h a) as _ (sound_initial versions)

/-- What every move of a schedule keeps holds along the runs that meet a condition. -/
theorem reach_lives {versions : List ℕ} {as : List Action} (inv : Life → Prop)
    {ok : World → Action → Prop} (hblank : ∀ l, l.Blank → inv l)
    (hmove : ∀ {w a}, w.Sound → ok w a → ∀ {lab l l'}, Licensed w a lab →
      w.db.life l.row.id = some l → inv l → Move lab l l' → inv l')
    (h : Run.Conforms step ok as (initial versions)) :
    ∀ sid l, (reach versions as).db.life sid = some l → inv l :=
  (Run.exec_conforming step ok (fun w => w.Sound ∧ ∀ sid l, w.db.life sid = some l → inv l)
    (fun w a hok hw => ⟨step_sound hw.1 a,step_lives hw.1 a hblank
      (fun _ _ _ => hmove hw.1 hok) hw.2⟩) as (initial versions) h
    ⟨sound_initial versions,by simp [initial,empty,Db.life,Db.scheduleRow,Table.find]⟩).2

theorem reach_append (versions : List ℕ) (as bs : List Action) :
    reach versions (as++bs) = Run.exec step bs (reach versions as) :=
  Run.exec_append step as bs (initial versions)

end NexusAi.Scheduler
