import NexusAi.Scheduler.Fencing

/-!
# No double firing

The cursor of a schedule runs ahead of the wall-clock readings of all of its
occurrences, and a recurrence never moves it back. Only resuming a schedule
whose cursor was consumed sets it to the first slot again, so a schedule fires
each reading once as long as it is not resumed in that condition. Only the end of
a dispatch completes a one-time schedule: one that is skipped or cancelled leaves
it active with its cursor consumed.
-/

namespace NexusAi.Scheduler
open NexusAi.Checked

def Life.locals (l : Life) : List ℤ := l.occs.map fun o => o.intendedLocalTime

/-- Readings are distinct and the cursor is ahead of them. A one-time schedule
has at most one, and none as long as its cursor is set. -/
structure Life.Orderly (l : Life) : Prop where
  draft : l.row.state = .draft → l.occs = []
  distinct : l.locals.Nodup
  ahead : ∀ t, l.row.nextLocalTime = some t → ∀ x ∈ l.locals, x < t
  once : l.row.spec.scheduleType = .oneTime →
    l.occs.length ≤ 1 ∧ (l.row.nextLocalTime.isSome → l.occs = [])

variable {l : Life}

theorem orderly_blank (h : l.Blank) : l.Orderly := by
  obtain ⟨-,-,-,-,ho⟩ := h
  constructor <;> simp [Life.locals,ho]

theorem orderly_same (h : l.Orderly) {row : ScheduleRow} {occs : List OccurrenceRow}
    (hstate : row.state ≠ .draft) (hspec : row.spec = l.row.spec)
    (hcursor : ∀ t, row.nextLocalTime = some t → l.row.nextLocalTime = some t)
    (hlocals : occs.map (fun o => o.intendedLocalTime) = l.locals) :
    (⟨row,occs⟩ : Life).Orderly := by
  have hlen : occs.length = l.occs.length := by
    have := congrArg List.length hlocals
    simpa [Life.locals] using this
  constructor
  · exact fun hd => absurd hd hstate
  · rw [Life.locals,hlocals]
    exact h.distinct
  · intro t ht
    rw [Life.locals,hlocals]
    exact h.ahead t (hcursor t ht)
  · intro hone
    dsimp only at hone ⊢
    rw [hspec] at hone
    obtain ⟨hle,hnone⟩ := h.once hone
    refine ⟨hlen ▸ hle,fun hs => ?_⟩
    obtain ⟨t,ht⟩ := Option.isSome_iff_exists.mp hs
    have hnil := hnone (by rw [hcursor t ht]; rfl)
    exact List.eq_nil_of_length_eq_zero (by rw [hlen,hnil]; rfl)

theorem locals_put {occs : List OccurrenceRow} {o o' : OccurrenceRow}
    (hk : Table.Keyed (fun o => o.id) occs) (ho : o ∈ occs)
    (hs : o'.toOccurrenceSnapshot = o.toOccurrenceSnapshot) :
    (Table.put (fun o => o.id) o' occs).map (fun o => o.intendedLocalTime) =
      occs.map fun o => o.intendedLocalTime := by
  apply Table.map_put
  intro r hr hid
  have hid' : o'.id = o.id := congrArg OccurrenceSnapshot.id hs
  rw [Table.mem_unique hk hr ho (hid.trans hid')]
  exact (congrArg OccurrenceSnapshot.intendedLocalTime hs).symm

variable {now : ℤ} {room : ℕ} {plan : Plan}

theorem once_planned (h : l.Orderly)
    (planned : planRow l.row now room = .ok plan) (hone : l.row.spec.scheduleType = .oneTime) :
    l.occs.length+plan.selected.length ≤ 1 := by
  obtain ⟨-,hlow,-,hsingle⟩ := planRow_readings planned
  obtain ⟨hle,hnil⟩ := h.once hone
  cases hs : plan.selected with
  | nil => simpa using hle
  | cons s =>
    obtain ⟨t,ht,-⟩ := hlow s (by simp [hs])
    rw [hnil (by rw [ht]; rfl),← hs]
    simpa using hsingle (l.row.spec.oneTime_iff.mp hone)

theorem orderly_materialize (h : l.Orderly) {room n : ℕ}
    (active : l.row.state = .active) (planned : planRow l.row now room = .ok plan) :
    (⟨afterPlan l.row plan.next,l.occs++occurrencesFrom l.row n plan.selected⟩ : Life).Orderly := by
  obtain ⟨hnodup,hlow,hfuture,-⟩ := planRow_readings planned
  have hlocals : (⟨afterPlan l.row plan.next,l.occs++occurrencesFrom l.row n plan.selected⟩ :
      Life).locals = l.locals++plan.selected.map fun s => s.slot.intendedLocalTime := by
    rw [Life.locals,List.map_append,map_occurrencesFrom (fun _ _ => rfl)]
    rfl
  constructor
  · intro hd
    dsimp only at hd
    by_cases hstate : (afterPlan l.row plan.next).state = l.row.state
    · rw [hstate,active] at hd
      cases hd
    · cases (afterPlan_exhausted hstate).2.2.symm.trans hd
  · rw [hlocals]
    refine h.distinct.append hnodup ?_
    intro x hx hx'
    obtain ⟨s,hs,rfl⟩ := List.mem_map.mp hx'
    obtain ⟨t,ht,hle⟩ := hlow s hs
    exact absurd (h.ahead t ht _ hx) (not_lt.mpr hle)
  · intro t ht x hx
    rw [hlocals] at hx
    obtain ⟨f,hf,rfl⟩ := afterPlan_cursor ht
    obtain ⟨t₀,ht₀,hle,hall⟩ := hfuture f hf
    rcases List.mem_append.mp hx with hx | hx
    · exact (h.ahead t₀ ht₀ x hx).trans_le hle
    · obtain ⟨s,hs,rfl⟩ := List.mem_map.mp hx
      exact hall s hs
  · intro hone
    dsimp only at hone ⊢
    rw [afterPlan_spec] at hone
    refine ⟨?_,by simp [afterPlan,hone]⟩
    rw [List.length_append,length_occurrencesFrom]
    exact once_planned h planned hone

/-- A schedule is resumed with its cursor set or before its first occurrence,
and it is not edited. -/
def resumesAhead (sid : ℕ) (w : World) : Action → Bool
  | .updateSchedule id _ => id != sid
  | .resumeSchedule id => id != sid ||
    match w.db.scheduleRow sid with
    | some row => row.state != .paused || row.nextFireAt.isSome && row.nextLocalTime.isSome ||
        (w.db.occurrencesOf sid).isEmpty
    | none => true
  | _ => true

theorem orderly_resume (h : l.Orderly) {next : ScheduleRow}
    (cursor : withCursor l.row = .ok next)
    (hok : (l.row.nextFireAt.isSome && l.row.nextLocalTime.isSome || l.occs.isEmpty)) :
    (⟨{ next with state := .active, revision := next.revision+1 },l.occs⟩ : Life).Orderly := by
  rw [Bool.or_eq_true,Bool.and_eq_true] at hok
  rcases hok with ⟨hf,hl⟩ | he
  · have hnext : l.row = next := by
      rw [← Option.not_isNone,Bool.not_eq_true'] at hf hl
      simpa [withCursor,hf,hl] using cursor
    subst hnext
    exact orderly_same h (by simp) rfl (fun t ht => ht) rfl
  · have hnil := List.isEmpty_iff.mp he
    constructor <;> simp [Life.locals,hnil]

theorem move_orderly {w : World} (hw : w.Sound) {a : Action} {sid : ℕ}
    (hok : resumesAhead sid w a) {lab : Label} {l l' : Life} (hlic : Licensed w a lab)
    (hl : w.db.life l.row.id = some l) (hid : l.row.id = sid) (h : l.Orderly)
    (m : Move lab l l') : l'.Orderly := by
  have hk := life_keyed hw.db hl
  have hput : ∀ {row : ScheduleRow} {o o' : OccurrenceRow}, o ∈ l.occs →
      o'.toOccurrenceSnapshot = o.toOccurrenceSnapshot → row.spec = l.row.spec →
      row.nextLocalTime = l.row.nextLocalTime → (row.state = .draft → l.row.state = .draft) →
      (⟨row,Table.put (fun o => o.id) o' l.occs⟩ : Life).Orderly := by
    intro row o o' ho hs hspec hcur hdraft
    refine orderly_same h ?_ hspec (fun t ht => hcur ▸ ht) (locals_put hk ho hs)
    intro hd
    rw [h.draft (hdraft hd)] at ho
    cases ho
  cases m with
  | edit =>
    obtain ⟨_,rfl⟩ := licensed_edit hlic
    simp [resumesAhead,hid] at hok
  | activate draft =>
    have hnil := h.draft draft
    constructor <;> simp [Life.locals,hnil]
  | pause => exact orderly_same h (by simp) rfl (fun t ht => ht) rfl
  | resume paused cursor =>
    obtain rfl := licensed_resume hlic
    obtain ⟨hrow,hoccs⟩ := life_some.mp hl
    rw [hid] at hrow hoccs
    refine orderly_resume h cursor ?_
    rw [hoccs]
    simpa [resumesAhead,hid,hrow,paused] using hok
  | cancel =>
    refine orderly_same h (by simp) rfl (fun t ht => ht) ?_
    rw [List.map_map]
    apply List.map_congr_left
    intro o _
    simp only [Function.comp_apply,cancelPendingOf]
    split_ifs <;> rfl
  | materialize active _ _ planned => exact orderly_materialize h active planned
  | cancelOccurrence found | claim found | attempt found => exact hput found rfl rfl rfl id
  | settle found _ _ same =>
    refine hput found same ?_ ?_ ?_
    · unfold afterSettling
      split_ifs <;> rfl
    · unfold afterSettling
      split_ifs <;> rfl
    · unfold afterSettling
      split_ifs with hc
      · simp
      · exact id

theorem reach_orderly (versions : List ℕ) (as : List Action) (sid : ℕ)
    (h : Run.Conforms step (fun w a => resumesAhead sid w a) as (initial versions)) :
    ∀ l, (reach versions as).db.life sid = some l → l.Orderly := by
  intro l hl
  refine reach_lives (fun l => l.row.id = sid → l.Orderly) (fun l hb _ => orderly_blank hb) ?_ h
    sid l hl (scheduleRow_id (life_some.mp hl).1).2
  intro w a hw hok lab l l' hlic hl hinv m hid
  have hid' : l.row.id = sid := m.row_id.symm.trans hid
  exact move_orderly hw hok hlic hl hid' (hinv hid') m

theorem runs_of_single {w : World} (hw : w.Sound) {sid : ℕ}
    (h : (w.db.occurrencesOf sid).length ≤ 1) {r s : RunRow} (hr : r ∈ w.db.runs)
    (hs : s ∈ w.db.runs) (hrs : r.idempotencyKey.scheduleId = sid)
    (hss : s.idempotencyKey.scheduleId = sid) : r = s := by
  have hrow : ∀ x ∈ w.db.runs, x.idempotencyKey.scheduleId = sid →
      ∃ o ∈ w.db.occurrencesOf sid, x.idempotencyKey = ⟨o.scheduleId,o.id⟩ := by
    intro x hx hxs
    obtain ⟨c,hc,-,hk⟩ := hw.run_claim hx
    obtain ⟨-,o,ho,hos,-⟩ := hw.claims c hc
    rw [← hos] at hk
    rw [hk] at hxs
    exact ⟨o,List.mem_filter.mpr ⟨ho,by simpa using hxs⟩,hk⟩
  obtain ⟨o,ho,hko⟩ := hrow r hr hrs
  obtain ⟨p,hp,hkp⟩ := hrow s hs hss
  have hop : o = p := by
    cases hc : w.db.occurrencesOf sid with
    | nil => simp [hc] at ho
    | cons _ qs =>
      have hqs : qs = [] := by simpa [hc] using h
      simp only [hc,hqs,List.mem_singleton] at ho hp
      rw [ho,hp]
  apply hw.run_unique hr hs
  rw [hko,hkp,hop]

/-- A schedule that is not edited and never resumed with a consumed cursor has
no two occurrences of one reading, and a one-time schedule one occurrence and
one run at most. -/
theorem fires_once (versions : List ℕ) (as : List Action) (sid : ℕ)
    (h : Run.Conforms step (fun w a => resumesAhead sid w a) as (initial versions)) :
    (∀ o ∈ (reach versions as).db.occurrences, ∀ p ∈ (reach versions as).db.occurrences,
      o.scheduleId = sid → p.scheduleId = sid → o.intendedLocalTime = p.intendedLocalTime →
      o = p) ∧
    ∀ row, (reach versions as).db.scheduleRow sid = some row →
      row.spec.scheduleType = .oneTime →
      ((reach versions as).db.occurrencesOf sid).length ≤ 1 ∧
      ∀ r ∈ (reach versions as).db.runs, ∀ s ∈ (reach versions as).db.runs,
        r.idempotencyKey.scheduleId = sid → s.idempotencyKey.scheduleId = sid → r = s := by
  have hw := reach_sound versions as
  have horder := reach_orderly versions as sid h
  constructor
  · intro o ho p hp hos hps hlocal
    cases hl : (reach versions as).db.life sid with
    | none => exact absurd (hos ▸ hw.db.owned _ (Db.mem_snapshots ho)) (life_none.mp hl)
    | some l =>
      have hd := (horder l hl).distinct
      have hoccs := (life_some.mp hl).2
      rw [Life.locals,hoccs] at hd
      exact List.inj_on_of_nodup_map hd (List.mem_filter.mpr ⟨ho,by simpa using hos⟩)
        (List.mem_filter.mpr ⟨hp,by simpa using hps⟩) hlocal
  · intro row hrow hone
    have hl : (reach versions as).db.life sid =
        some ⟨row,(reach versions as).db.occurrencesOf sid⟩ := life_some.mpr ⟨hrow,rfl⟩
    have hlen := ((horder _ hl).once hone).1
    exact ⟨hlen,fun r hr s hs => runs_of_single hw hlen hr hs⟩

def pausedEarly : List Action :=
  setUp (once .fireOnce)++[.pauseSchedule 0,.resumeSchedule 0,
    .materializeDue (clock (2*Calendar.hour)) 100,
    .claimDue (clock (2*Calendar.hour)) (clock (2*Calendar.hour)) 7,
    .beginDispatch 0,.startRun 0 false .answered,.settle 0]

theorem pausedEarly_fires_once :
    Run.Conforms step (fun w a => resumesAhead 0 w a) pausedEarly (initial [0]) ∧
      ∀ o ∈ (reach [0] pausedEarly).db.occurrences, ∀ p ∈ (reach [0] pausedEarly).db.occurrences,
        o.scheduleId = 0 → p.scheduleId = 0 → o.intendedLocalTime = p.intendedLocalTime → o = p :=
  have h : Run.Conforms step (fun w a => resumesAhead 0 w a) pausedEarly (initial [0]) := by
    decide +kernel
  ⟨h,(fires_once [0] pausedEarly 0 h).1⟩

/-- Paused and resumed between its occurrence and the dispatch. -/
def pausedLate : List Action :=
  setUp (once .fireOnce)++[.materializeDue (clock (2*Calendar.hour)) 100,.pauseSchedule 0,
    .resumeSchedule 0,.materializeDue (clock (2*Calendar.hour)) 100,
    .claimDue (clock (2*Calendar.hour)) (clock (2*Calendar.hour)) 7,
    .claimDue (clock (2*Calendar.hour)) (clock (2*Calendar.hour)) 7,
    .beginDispatch 0,.startRun 0 false .answered,
    .beginDispatch 1,.startRun 1 false .answered]

/-- The one-time schedule then owns two occurrences of the same reading, under
different revisions, and starts two runs. -/
theorem pausedLate_fires_twice :
    (∃ o ∈ (reach [0] pausedLate).db.occurrences, ∃ p ∈ (reach [0] pausedLate).db.occurrences,
      o.scheduleId = 0 ∧ p.scheduleId = 0 ∧ o.intendedLocalTime = p.intendedLocalTime ∧ o ≠ p) ∧
    (reach [0] pausedLate).db.runs.map (fun r => r.idempotencyKey) = [⟨0,1⟩,⟨0,2⟩] := by
  decide +kernel

/-- An active one-time schedule has a cursor or a live occurrence. -/
def Life.Busy (l : Life) : Prop :=
  l.row.spec.scheduleType = .oneTime → l.row.state = .active →
    (l.row.nextFireAt.isSome ∧ l.row.nextLocalTime.isSome) ∨
    ∃ o ∈ l.occs, o.state = .pending ∨ o.state = .claimed

def OccurrenceRow.live (o : OccurrenceRow) : Bool := o.state == .pending || o.state == .claimed

/-- The slot at the cursor has come, lies in the window and exists, and the
policy dispatches it. -/
def firesAt (row : ScheduleRow) (now : ℤ) : Bool :=
  row.spec.misfirePolicy != .skip &&
    match row.nextFireAt, row.nextLocalTime with
    | some fireAt, some localTime => fireAt ≤ now &&
        (∀ e ∈ row.spec.endAt, fireAt ≤ e) &&
        row.spec.timezone.zone.wall fireAt = localTime
    | _, _ => false

/-- A batch meets a one-time schedule only when it fires or has a live
occurrence already, and the last live occurrence of an active one-time
schedule is not cancelled once the cursor is consumed. -/
def keepsWork (w : World) : Action → Bool
  | .materializeDue q limit =>
    match materializeDue w.db q limit, planRows q.now (dueScheduleRows w.db q limit) limit with
    | .ok _, .ok plans => plans.all fun p =>
        p.1.spec.scheduleType != .oneTime || firesAt p.1 q.now ||
          (w.db.occurrencesOf p.1.id).any OccurrenceRow.live
    | _, _ => true
  | .cancelOccurrence id =>
    match w.db.occurrenceRow id with
    | some o =>
      o.state != .pending || match w.db.scheduleRow o.scheduleId with
      | some row => row.spec.scheduleType != .oneTime || row.state != .active ||
          row.nextFireAt.isSome && row.nextLocalTime.isSome ||
          (w.db.occurrencesOf row.id).any fun p => p.id != id && p.live
      | none => true
    | none => true
  | _ => true

variable {row : ScheduleRow}

theorem elapsedSlots_fires {due : List TemporalSlot} {next : Option TemporalSlot}
    (hone : row.spec.recurrence = none) (hf : firesAt row now)
    (h : elapsedSlots row now = .ok (due,next)) :
    ∃ slot, due = [slot] ∧ slot.nonexistent = false := by
  unfold firesAt at hf
  unfold elapsedSlots at h
  split at h
  · rename_i fireAt localTime hfire hlocal
    simp only [hfire,hlocal,Bool.and_eq_true,decide_eq_true_eq] at hf
    obtain ⟨-,⟨hnow,hend⟩,hwall⟩ := hf
    simp only [bind_ok] at h
    obtain ⟨_,hreading,h⟩ := h
    obtain ⟨-,rfl⟩ := inRange_ok.mp hreading
    obtain ⟨n,hn⟩ : ∃ n, maxSearchSteps = n+1 := ⟨_,rfl⟩
    have hin : ¬ ∃ e ∈ row.spec.endAt, fireAt > e := by
      push Not
      exact hend
    simp only [hn,elapsedFrom,if_neg (not_lt.mpr hnow),if_neg hin,hone,Except.ok.injEq,
      Prod.mk.injEq] at h
    exact ⟨_,h.1.symm,by simp [hwall]⟩
  · rename_i hnone
    split at hf
    · rename_i fireAt localTime hfire hlocal
      exact absurd hlocal (hnone fireAt localTime hfire)
    · simp at hf

theorem divide_single (spec : ScheduleSpec) (hroom : 0 < room) (slot : TemporalSlot) :
    (divide spec room [slot]).1 = [slot] := by
  have hc := spec.catchUpBounds.1
  unfold divide
  split
  · simp [Nat.min_eq_left hroom]
  · rfl
  · have hmin : min (min 1 spec.maxCatchUp) room = 1 := by omega
    simp [hmin]

theorem planRow_fires (hroom : 0 < room)
    (hone : row.spec.recurrence = none) (hf : firesAt row now)
    (h : planRow row now room = .ok plan) : ∃ s ∈ plan.selected, s.state = .pending := by
  simp only [planRow,bind_ok,pure_ok] at h
  obtain ⟨⟨_,_⟩,hdue,rfl⟩ := h
  obtain ⟨_,rfl,hexists⟩ := elapsedSlots_fires hone hf hdue
  have hpolicy : row.spec.misfirePolicy ≠ .skip := by
    simp only [firesAt,Bool.and_eq_true,bne_iff_ne] at hf
    exact hf.1
  simp [divide_single row.spec hroom,disposition,hexists,hpolicy]

theorem withCursor_set {next : ScheduleRow} (h : withCursor row = .ok next) :
    next.nextFireAt.isSome ∧ next.nextLocalTime.isSome := by
  unfold withCursor at h
  split_ifs at h with hc
  · simp only [bind_ok,pure_ok] at h
    obtain ⟨_,-,rfl⟩ := h
    exact ⟨rfl,rfl⟩
  · rw [pure_ok] at h
    subst h
    simpa [Option.isSome_iff_ne_none] using hc

theorem occurrence_of_selected (row : ScheduleRow) (n : ℕ) {ss : List Selected} {s : Selected}
    (hs : s ∈ ss) : ∃ o ∈ occurrencesFrom row n ss, o.state = s.state := by
  have hstates : (occurrencesFrom row n ss).map OccurrenceRow.state = ss.map Selected.state :=
    map_occurrencesFrom (fun _ _ => rfl) n ss
  exact List.mem_map.mp (hstates ▸ List.mem_map_of_mem hs)

theorem live_iff (o : OccurrenceRow) :
    o.live ↔ o.state = .pending ∨ o.state = .claimed := by
  simp [OccurrenceRow.live]

theorem busy_put {o o' : OccurrenceRow} (ho : o ∈ l.occs) (hid : o'.id = o.id)
    (hlive : o'.state = .claimed) : (⟨row,Table.put (fun o => o.id) o' l.occs⟩ : Life).Busy := by
  intro _ _
  refine .inr ⟨o',?_,.inr hlive⟩
  exact Table.mem_put.mpr (.inl ⟨⟨o,ho,hid.symm⟩,rfl⟩)

theorem move_busy {w : World} (hw : w.Sound) {a : Action} (hok : keepsWork w a)
    {lab : Label} {l l' : Life} (hlic : Licensed w a lab) (hl : w.db.life l.row.id = some l)
    (m : Move lab l l') : l'.Busy := by
  cases m with
  | edit editable =>
    intro _ hactive
    rcases editable with he | he <;> rw [he] at hactive <;> cases hactive
  | activate => exact fun _ _ => .inl ⟨rfl,rfl⟩
  | pause | cancel => exact fun _ hactive => nomatch hactive
  | resume _ cursor =>
    have hset := withCursor_set cursor
    exact fun _ _ => .inl hset
  | @materialize _ _ _ _ n =>
    intro hone _
    dsimp only at hone ⊢
    rw [afterPlan_spec] at hone
    obtain ⟨q,_,_,_,rfl,hdone,hplans,hm⟩ := licensed_materialize hlic
    obtain ⟨_,hroom,hplan⟩ := (planRows_mem hplans).2 _ hm
    simp only [keepsWork,hdone,hplans,List.all_eq_true] at hok
    have hrow := hok _ hm
    simp only [hone,bne_self_eq_false,Bool.false_or,Bool.or_eq_true,List.any_eq_true,live_iff,
      ← (life_some.mp hl).2] at hrow
    refine .inr ?_
    rcases hrow with hf | ⟨o,ho,hlive⟩
    · obtain ⟨s,hs,hpending⟩ := planRow_fires hroom (l.row.spec.oneTime_iff.mp hone) hf hplan
      obtain ⟨o,ho,he⟩ := occurrence_of_selected l.row n hs
      exact ⟨o,List.mem_append_right _ ho,.inl (he.trans hpending)⟩
    · exact ⟨o,List.mem_append_left _ ho,hlive⟩
  | @cancelOccurrence _ o found pending =>
    intro hone hactive
    dsimp only at hone hactive ⊢
    obtain rfl := licensed_cancelOccurrence hlic
    obtain ⟨hmem,hsid⟩ := life_scheduleId hl found
    obtain ⟨hrow,hoccs⟩ := life_some.mp hl
    have ho : w.db.occurrenceRow o.id = some o := Table.find_of_mem hw.db.keyed hmem
    simp only [keepsWork,ho,pending,bne_self_eq_false,Bool.false_or] at hok
    rw [hsid,hrow] at hok
    simp only [hone,hactive,bne_self_eq_false,Bool.false_or,Bool.or_eq_true,Bool.and_eq_true,
      List.any_eq_true,live_iff,← hoccs,bne_iff_ne] at hok
    rcases hok with hcursor | ⟨p,hp,hne,hlive⟩
    · exact .inl hcursor
    · exact .inr ⟨p,Table.mem_put.mpr (.inr ⟨hp,hne⟩),hlive⟩
  | claim found => exact busy_put found rfl rfl
  | attempt found claimed => exact busy_put found rfl claimed
  | settle =>
    intro hone hactive
    by_cases hc : l.row.spec.scheduleType = .oneTime ∧ l.row.state = .active
    · simp only [afterSettling,if_pos hc] at hactive
      cases hactive
    · simp only [afterSettling,if_neg hc] at hone hactive
      exact absurd ⟨hone,hactive⟩ hc

/-- Along every run whose steps keep the work of one-time schedules, an active
one has a cursor or an occurrence that is pending or claimed. -/
theorem active_has_work (versions : List ℕ) (as : List Action)
    (h : Run.Conforms step (fun w a => keepsWork w a) as (initial versions)) :
    ∀ row ∈ (reach versions as).db.schedules, row.spec.scheduleType = .oneTime →
      row.state = .active → (row.nextFireAt.isSome ∧ row.nextLocalTime.isSome) ∨
      ∃ o ∈ (reach versions as).db.occurrences, o.scheduleId = row.id ∧
        (o.state = .pending ∨ o.state = .claimed) := by
  have hall := reach_lives Life.Busy ?_ (fun hw hok _ _ _ hlic hl _ => move_busy hw hok hlic hl) h
  · intro row hrow hone hactive
    have hl : (reach versions as).db.life row.id =
        some ⟨row,(reach versions as).db.occurrencesOf row.id⟩ :=
      life_some.mpr ⟨Table.find_of_mem (reach_sound versions as).db.schedulesKeyed hrow,rfl⟩
    rcases hall _ _ hl hone hactive with hcursor | ⟨o,ho,hlive⟩
    · exact .inl hcursor
    · obtain ⟨hmem,hsid⟩ := life_scheduleId hl ho
      exact .inr ⟨o,hmem,hsid,hlive⟩
  · intro l hb _ hactive
    rw [hb.1] at hactive
    cases hactive

/-- A one-time schedule that is fired and whose occurrence is claimed. -/
def firedOnce : List Action :=
  setUp (once .fireOnce)++[.materializeDue (clock (2*Calendar.hour)) 100,
    .claimDue (clock (2*Calendar.hour)) (clock (2*Calendar.hour)) 7]

theorem firedOnce_has_work :
    Run.Conforms step (fun w a => keepsWork w a) firedOnce (initial [0]) ∧
      ∀ row ∈ (reach [0] firedOnce).db.schedules, row.spec.scheduleType = .oneTime →
        row.state = .active → (row.nextFireAt.isSome ∧ row.nextLocalTime.isSome) ∨
        ∃ o ∈ (reach [0] firedOnce).db.occurrences, o.scheduleId = row.id ∧
          (o.state = .pending ∨ o.state = .claimed) :=
  have h : Run.Conforms step (fun w a => keepsWork w a) firedOnce (initial [0]) := by
    decide +kernel
  ⟨h,active_has_work [0] firedOnce h⟩

def skippedOnce : List Action :=
  setUp (once .skip)++[.materializeDue (clock (2*Calendar.hour)) 100]

/-- Its occurrence is skipped and it stays active with nothing left to do. -/
theorem skippedOnce_idles :
    ∃ row ∈ (reach [0] skippedOnce).db.schedules, row.spec.scheduleType = .oneTime ∧
      row.state = .active ∧ row.nextFireAt = none ∧ row.nextLocalTime = none ∧
      (reach [0] skippedOnce).db.occurrences.map (fun o => o.state) = [.skipped] := by
  decide +kernel

end NexusAi.Scheduler
