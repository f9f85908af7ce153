import NexusAi.Scheduler.Worlds

/-!
# Fencing of dispatches

An occurrence is handed out once, leaves CLAIMED once and is final afterwards.
A run exists only for an occurrence that was claimed, and only one for each.
-/

namespace NexusAi.Scheduler

def leavesClaimed (id : ℕ) (h : HistoryRow) : Bool :=
  match h.transition with
  | .occurrence i (some .claimed) _ => i == id
  | _ => false

def Db.departures (db : Db) (id : ℕ) : ℕ := db.history.countP (leavesClaimed id)

/-- An occurrence that left CLAIMED did so once and is DISPATCHED or FAILED. -/
def Db.DepartsOnce (db : Db) : Prop :=
  ∀ id, db.departures id ≤ 1 ∧ (0 < db.departures id →
    ∃ o ∈ db.occurrences, o.id = id ∧ (o.state = .dispatched ∨ o.state = .failed))

theorem KeepsClaims.departures {hs : List HistoryRow} (h : KeepsClaims hs) (id : ℕ) :
    hs.countP (leavesClaimed id) = 0 := by
  rw [List.countP_eq_zero]
  intro x hx
  have hq := h x hx
  unfold leavesClaimed
  split
  · rename_i i t he
    exact absurd he (hq i t)
  · simp

variable {lab : Label} {db db' : Db} {o : OccurrenceRow} {w : World} {r : RunRow}

theorem Effect.departures (e : Effect lab db db') (id : ℕ) : db'.departures id = db.departures id ∨
      db'.departures id = db.departures id+1 ∧
        (∃ o ∈ db.occurrences, o.id = id ∧ o.state = .claimed) ∧
        ∃ o ∈ db'.occurrences, o.id = id ∧ (o.state = .dispatched ∨ o.state = .failed) := by
  cases e with
  | edit | attempt | start => exact .inl rfl
  | @settle _ _ _ o settled _ _ _ fenced _ same _ _ target quiet =>
    obtain ⟨found,-,hclaimed,-⟩ := fencedRow_some fenced
    have hsame : settled.id = o.id := congrArg OccurrenceSnapshot.id same
    by_cases hid : o.id = id
    · refine .inr ⟨?_,⟨o,found,hid,hclaimed⟩,settled,?_,hsame.trans hid,target⟩
      · simp [Db.departures,List.countP_append,quiet.departures id,leavesClaimed,
          hid]
      · exact Table.mem_put.mpr (.inl ⟨⟨o,found,hsame.symm⟩,rfl⟩)
    · left
      simp [Db.departures,List.countP_append,quiet.departures id,leavesClaimed,hid]
  | create _ _ _ _ _ quiet | activate _ _ _ _ quiet | pause _ _ quiet | resume _ _ _ quiet
  | cancel _ _ quiet | materialize _ _ _ _ _ quiet | cancelOccurrence _ _ quiet
  | claim _ _ _ _ _ quiet =>
    exact .inl (by simp [Db.departures,List.countP_append,quiet.departures id])

theorem Advance.final {o' : OccurrenceRow} (a : Advance lab o o') (h : o.state.terminal) :
    o' = o := by
  cases a with
  | kept => rfl
  | cancelled pending | claimed pending => simp [pending,OccurrenceState.terminal] at h
  | attempted claimed | settled claimed => simp [claimed,OccurrenceState.terminal] at h

theorem Effect.final (e : Effect lab db db') (hs : db.Sound) (ho : o ∈ db.occurrences)
    (ht : o.state.terminal) : o ∈ db'.occurrences := by
  obtain ⟨_,ho',ha⟩ := (e.rows hs).after o ho
  rw [ha.final ht] at ho'
  exact ho'

theorem Effect.departsOnce (e : Effect lab db db') (hs : db.Sound) (h : db.DepartsOnce) :
    db'.DepartsOnce := by
  intro id
  obtain ⟨hle,hfinal⟩ := h id
  rcases e.departures id with he | ⟨he,⟨o,ho,hid,hclaimed⟩,hafter⟩
  · rw [he]
    refine ⟨hle,fun hpos => ?_⟩
    obtain ⟨o,ho,hid,hstate⟩ := hfinal hpos
    refine ⟨o,e.final hs ho ?_,hid,hstate⟩
    rcases hstate with hstate | hstate <;> rw [hstate] <;> rfl
  · have hzero : db.departures id = 0 := by
      by_contra hne
      obtain ⟨p,hp,hpid,hstate⟩ := hfinal (Nat.pos_of_ne_zero hne)
      obtain rfl := Table.mem_unique hs.keyed ho hp (hid.trans hpid.symm)
      simp [hclaimed] at hstate
    rw [he,hzero]
    exact ⟨le_rfl,fun _ => hafter⟩

theorem Chain.departsOnce {P : Label → Prop} (ch : Chain P db db') (hs : db.Sound)
    (h : db.DepartsOnce) : db'.DepartsOnce := by
  induction ch with
  | refl => exact h
  | cons _ first _ ih => exact ih (first.sound hs) (first.departsOnce hs h)

theorem Chain.final {P : Label → Prop} (ch : Chain P db db') (hs : db.Sound)
    (ho : o ∈ db.occurrences) (ht : o.state.terminal) : o ∈ db'.occurrences := by
  induction ch with
  | refl => exact ho
  | cons _ first _ ih => exact ih (first.sound hs) (first.final hs ho ht)

theorem reach_departsOnce (versions : List ℕ) (as : List Action) :
    (reach versions as).db.DepartsOnce := by
  have h := Run.exec_invariant step (fun w => w.Sound ∧ w.db.DepartsOnce)
    (fun w a hw => ⟨step_sound hw.1 a,(step_chain hw.1 a).departsOnce hw.1.db hw.2⟩) as
    (initial versions) ⟨sound_initial versions,by
      intro id
      simp [initial,empty,Db.departures]⟩
  exact h.2

theorem exec_final (bs : List Action) (w : World) (hw : w.Sound) :
    ∀ o ∈ w.db.occurrences, o.state.terminal →
      o ∈ (Run.exec step bs w).db.occurrences :=
  Run.exec_related step World.Sound
    (fun w w' => ∀ o ∈ w.db.occurrences, o.state.terminal → o ∈ w'.db.occurrences)
    (fun _ a h => step_sound h a) (fun _ _ ho _ => ho)
    (fun _ _ _ h h' o ho ht => h' o (h o ho ht) ht)
    (fun _ a h _ ho ht => (step_chain h a).final h.db ho ht) bs w hw

theorem World.Sound.claim_unique (hw : w.Sound) {c d : OccurrenceClaim} (hc : c ∈ w.claims)
    (hd : d ∈ w.claims) (h : c.occurrence.id = d.occurrence.id) :
    c.ownerId = d.ownerId ∧ c.claimToken = d.claimToken ∧
      c.occurrence.toOccurrenceSnapshot = d.occurrence.toOccurrenceSnapshot := by
  obtain ⟨-,o,ho,hos,howner,htoken,-⟩ := hw.claims c hc
  obtain ⟨-,p,hp,hps,howner',htoken',-⟩ := hw.claims d hd
  have hid : o.id = p.id := by
    rw [hos,hps]
    exact h
  obtain rfl := Table.mem_unique hw.db.keyed ho hp hid
  rw [howner] at howner'
  rw [htoken] at htoken'
  exact ⟨Option.some.inj howner',Option.some.inj htoken',hos.symm.trans hps⟩

section

variable (hw : w.Sound) (hr : r ∈ w.db.runs)

include hw hr

theorem World.Sound.run_claim : ∃ c ∈ w.claims, r.versionId = c.occurrence.workflowVersionId ∧
      r.idempotencyKey = ⟨c.occurrence.scheduleId,c.occurrence.id⟩ := by
  obtain ⟨c,hc,hv,hk⟩ := hw.runs r hr
  obtain ⟨-,o,ho,hos,-⟩ := hw.claims c hc
  have hn := hw.db.named _ (Db.mem_snapshots ho)
  rw [hos] at hn
  exact ⟨c,hc,hv,hk.trans hn⟩

theorem World.Sound.run_unique {s : RunRow} (hs : s ∈ w.db.runs)
    (h : r.idempotencyKey = s.idempotencyKey) : r = s := by
  obtain ⟨c,hc,hv,hk⟩ := hw.run_claim hr
  obtain ⟨d,hd,hv',hk'⟩ := hw.run_claim hs
  have hid : c.occurrence.id = d.occurrence.id := by
    rw [hk,hk'] at h
    exact congrArg IdempotencyKey.occurrenceId h
  have hsnap := (hw.claim_unique hc hd hid).2.2
  apply List.inj_on_of_nodup_map hw.runsKeyed hr hs
  simp only [Prod.mk.injEq]
  exact ⟨by rw [hv,hv',hsnap],h⟩

theorem World.Sound.run_state (ho : o ∈ w.db.occurrences)
    (h : r.idempotencyKey = o.p14IdempotencyKey) :
    o.state = .claimed ∨ o.state = .dispatched ∨ o.state = .failed := by
  obtain ⟨c,hc,-,hk⟩ := hw.run_claim hr
  obtain ⟨-,p,hp,hps,-,-,hstate⟩ := hw.claims c hc
  have hn := hw.db.named _ (Db.mem_snapshots ho)
  rw [h,hn] at hk
  have hid : o.id = p.id := by
    rw [hps]
    exact congrArg IdempotencyKey.occurrenceId hk
  rw [Table.mem_unique hw.db.keyed ho hp hid]
  exact hstate

end

/-- Along every run: claims of one occurrence agree, no occurrence leaves
CLAIMED twice, a final row is still there after any continuation, a key has at
most one run and a cancelled or skipped occurrence none. -/
theorem dispatch_fenced (versions : List ℕ) (as bs : List Action) :
    (∀ c ∈ (reach versions as).claims, ∀ d ∈ (reach versions as).claims,
      c.occurrence.id = d.occurrence.id → c.ownerId = d.ownerId ∧ c.claimToken = d.claimToken) ∧
    (∀ id, (reach versions as).db.departures id ≤ 1) ∧
    (∀ o ∈ (reach versions as).db.occurrences, o.state.terminal →
      o ∈ (reach versions (as++bs)).db.occurrences) ∧
    (∀ r ∈ (reach versions as).db.runs, ∀ s ∈ (reach versions as).db.runs,
      r.idempotencyKey = s.idempotencyKey → r = s) ∧
    ∀ o ∈ (reach versions as).db.occurrences, o.state = .cancelled ∨ o.state = .skipped →
      ∀ r ∈ (reach versions as).db.runs, r.idempotencyKey ≠ o.p14IdempotencyKey := by
  have hw := reach_sound versions as
  refine ⟨?_,fun id => (reach_departsOnce versions as id).1,?_,?_,?_⟩
  · intro c hc d hd h
    obtain ⟨howner,htoken,-⟩ := hw.claim_unique hc hd h
    exact ⟨howner,htoken⟩
  · rw [reach_append]
    exact exec_final bs _ hw
  · exact fun r hr s hs h => hw.run_unique hr hs h
  · intro o ho hstate r hr h
    have := hw.run_state hr ho h
    rcases hstate with hstate | hstate <;> simp [hstate] at this

/-- Every occurrence is one of a schedule, and every run was started for one occurrence, of
its version, that was claimed. -/
theorem runs_traced (versions : List ℕ) (as : List Action) :
    let db := (reach versions as).db
    (∀ o ∈ db.occurrences, o.scheduleId ∈ db.scheduleIds) ∧
    ∀ r ∈ db.runs, ∃ o ∈ db.occurrences, r.idempotencyKey = ⟨o.scheduleId,o.id⟩ ∧
      r.versionId = o.workflowVersionId ∧
      (o.state = .claimed ∨ o.state = .dispatched ∨ o.state = .failed) ∧
      ∀ o' ∈ db.occurrences, r.idempotencyKey = o'.p14IdempotencyKey → o' = o := by
  intro db
  have hw := reach_sound versions as
  refine ⟨fun o ho => hw.db.owned _ (Db.mem_snapshots ho),fun r hr => ?_⟩
  obtain ⟨c,hc,hversion,hkey⟩ := hw.runs r hr
  obtain ⟨-,o,ho,hsnap,-,-,hstate⟩ := hw.claims c hc
  rw [← hsnap] at hversion hkey
  have hnamed (x) (hx : x ∈ db.occurrences) := hw.db.named _ (Db.mem_snapshots hx)
  refine ⟨o,ho,hkey.trans (hnamed o ho),hversion,hstate,fun o' ho' hkey' => ?_⟩
  have hid := (hnamed o' ho').symm.trans (hkey'.symm.trans (hkey.trans (hnamed o ho)))
  exact Table.mem_unique hw.db.keyed ho' ho (congrArg IdempotencyKey.occurrenceId hid)

end NexusAi.Scheduler
