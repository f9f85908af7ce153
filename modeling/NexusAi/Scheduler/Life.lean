import NexusAi.Scheduler.Transactions

/-!
# The life of a single schedule

A schedule with its own occurrences is a state machine of its own. `Move` is
its transition relation, free of the tables and of every other schedule, and
`Effect.life` shows that an effect on the database either leaves a life alone
or makes one move of it. What holds in all lives is proved about moves.
-/

namespace NexusAi.Scheduler

structure Life where
  row : ScheduleRow
  occs : List OccurrenceRow

def Db.occurrencesOf (db : Db) (sid : ℕ) : List OccurrenceRow :=
  db.occurrences.filter fun o => o.scheduleId = sid

def Db.life (db : Db) (sid : ℕ) : Option Life :=
  (db.scheduleRow sid).map fun row => ⟨row,db.occurrencesOf sid⟩

def Life.Blank (l : Life) : Prop :=
  l.row.state = .draft ∧ l.row.nextFireAt = none ∧ l.row.nextLocalTime = none ∧
    l.row.revision = 1 ∧ l.occs = []

inductive Move : Label → Life → Life → Prop
  | edit {l : Life} {spec : ScheduleSpec} (editable : l.row.state = .draft ∨ l.row.state = .paused)
      (sameType : spec.scheduleType = l.row.spec.scheduleType) :
      Move (.edit l.row.id) l ⟨{ l.row with
        spec := spec, revision := l.row.revision+1, nextFireAt := none, nextLocalTime := none },
        l.occs⟩
  | activate {l : Life} {slot : TemporalSlot} (draft : l.row.state = .draft)
      (first : firstSlot l.row.spec.startAt l.row.spec.timezone.zone l.row.spec.recurrence =
        .ok slot)
      (inWindow : ∀ e ∈ l.row.spec.endAt, slot.scheduledFor ≤ e) :
      Move (.activate l.row.id) l ⟨{ l.row with
        nextFireAt := some slot.scheduledFor, nextLocalTime := some slot.intendedLocalTime,
        state := .active, revision := l.row.revision+1 },l.occs⟩
  | pause {l : Life} (active : l.row.state = .active) :
      Move (.pause l.row.id) l
        ⟨{ l.row with state := .paused, revision := l.row.revision+1 },l.occs⟩
  | resume {l : Life} {next : ScheduleRow} (paused : l.row.state = .paused)
      (cursor : withCursor l.row = .ok next) :
      Move (.resume l.row.id) l
        ⟨{ next with state := .active, revision := next.revision+1 },l.occs⟩
  | cancel {l : Life} (allowed : ScheduleState.cancelled ∈ l.row.state.targets) :
      Move (.cancel l.row.id) l
        ⟨{ l.row with state := .cancelled, revision := l.row.revision+1 },
          l.occs.map (cancelPendingOf l.row.id)⟩
  | materialize {l : Life} {plan : Plan} {now : ℤ} {remaining n : ℕ}
      (active : l.row.state = .active) (fires : l.row.nextFireAt.isSome)
      (open_ : 0 < remaining) (planned : planRow l.row now remaining = .ok plan) :
      Move (.materialize l.row plan) l
        ⟨afterPlan l.row plan.next,l.occs++occurrencesFrom l.row n plan.selected⟩
  | cancelOccurrence {l : Life} {o : OccurrenceRow} (found : o ∈ l.occs)
      (pending : o.state = .pending) :
      Move (.cancelOccurrence o.id) l
        ⟨l.row,Table.put (fun o => o.id) { o with state := .cancelled } l.occs⟩
  | claim {l : Life} {o : OccurrenceRow} {owner token : ℕ} (found : o ∈ l.occs)
      (pending : o.state = .pending) (active : l.row.state = .active) :
      Move (.claim ⟨{ o with
          state := .claimed, claimOwnerId := some owner, claimToken := some token },
          owner,token,o.workflowInput⟩) l
        ⟨l.row,Table.put (fun o => o.id) { o with
          state := .claimed, claimOwnerId := some owner, claimToken := some token } l.occs⟩
  | attempt {l : Life} {claim : OccurrenceClaim} {o : OccurrenceRow} (found : o ∈ l.occs)
      (claimed : o.state = .claimed) :
      Move (.attempt claim) l ⟨l.row,Table.put (fun o => o.id)
        { o with dispatchAttemptCount := o.dispatchAttemptCount+1 } l.occs⟩
  | settle {l : Life} {claim : OccurrenceClaim} {o settled : OccurrenceRow} (found : o ∈ l.occs)
      (claimed : o.state = .claimed) (fenced : o.id = claim.occurrence.id)
      (same : settled.toOccurrenceSnapshot = o.toOccurrenceSnapshot)
      (target : settled.state = .dispatched ∨ settled.state = .failed) :
      Move (.settle claim settled) l
        ⟨afterSettling l.row,Table.put (fun o => o.id) settled l.occs⟩

variable {db : Db} {sid : ℕ}

theorem life_some {l : Life} :
    db.life sid = some l ↔ db.scheduleRow sid = some l.row ∧ l.occs = db.occurrencesOf sid := by
  simp only [Db.life,Option.map_eq_some_iff]
  constructor
  · rintro ⟨row,hrow,rfl⟩
    exact ⟨hrow,rfl⟩
  · rintro ⟨hrow,hocc⟩
    exact ⟨l.row,hrow,by rw [← hocc]⟩

theorem life_keyed (hs : db.Sound) {l : Life} (h : db.life sid = some l) :
    Table.Keyed (fun o => o.id) l.occs := by
  rw [(life_some.mp h).2]
  exact hs.keyed.sublist (List.filter_sublist.map _)

theorem life_scheduleId {l : Life} (h : db.life sid = some l)
    {o : OccurrenceRow} (ho : o ∈ l.occs) : o ∈ db.occurrences ∧ o.scheduleId = sid := by
  rw [(life_some.mp h).2,Db.occurrencesOf,List.mem_filter] at ho
  exact ⟨ho.1,by simpa using ho.2⟩

theorem life_none : db.life sid = none ↔ sid ∉ db.scheduleIds := by
  simp only [Db.life,Option.map_eq_none_iff,Db.scheduleRow,Table.find,List.find?_eq_none,
    Db.scheduleIds,List.mem_map,decide_eq_true_eq,not_exists,not_and]

theorem scheduleRow_put {row row' : ScheduleRow} (hrow : db.scheduleRow row.id = some row)
    (hid : row'.id = row.id) (sid : ℕ) :
    (db.putSchedule row').scheduleRow sid =
      if row.id = sid then some row' else db.scheduleRow sid := by
  rw [Db.scheduleRow,Db.putSchedule,Table.find_put,hid]
  split_ifs with h
  · subst h
    have := hrow
    rw [Db.scheduleRow] at this
    rw [this]
    rfl
  · rfl

theorem occurrencesOf_put (hs : db.Sound) {o o' : OccurrenceRow} (ho : o ∈ db.occurrences)
    (hsnap : o'.toOccurrenceSnapshot = o.toOccurrenceSnapshot) (sid : ℕ) :
    (db.putOccurrence o').occurrencesOf sid =
      if o.scheduleId = sid then Table.put (fun o => o.id) o' (db.occurrencesOf sid)
      else db.occurrencesOf sid := by
  have hid : o'.id = o.id := congrArg OccurrenceSnapshot.id hsnap
  have hsid : o'.scheduleId = o.scheduleId := congrArg OccurrenceSnapshot.scheduleId hsnap
  have hfilter : (db.putOccurrence o').occurrencesOf sid =
      Table.put (fun o => o.id) o' (db.occurrencesOf sid) := by
    apply Table.filter_put
    intro r hr he
    rw [Table.mem_unique hs.keyed hr ho (he.trans hid),hsid]
  rw [hfilter]
  split_ifs with h
  · rfl
  · apply Table.put_absent
    intro r hr he
    simp only [Db.occurrencesOf,List.mem_filter,decide_eq_true_eq] at hr
    exact h (Table.mem_unique hs.keyed hr.1 ho (he.trans hid) ▸ hr.2)

theorem occurrencesOf_cancel (db : Db) (id sid : ℕ) :
    (db.occurrences.map (cancelPendingOf id)).filter (fun o => o.scheduleId = sid) =
      if id = sid then (db.occurrencesOf sid).map (cancelPendingOf id)
      else db.occurrencesOf sid := by
  have hsid : ∀ o, (cancelPendingOf id o).scheduleId = o.scheduleId := by
    intro o
    unfold cancelPendingOf
    split_ifs <;> rfl
  rw [List.filter_map,Db.occurrencesOf]
  simp only [Function.comp_def,hsid]
  split_ifs with h
  · rfl
  · conv_rhs => rw [← List.map_id (List.filter _ _)]
    apply List.map_congr_left
    intro o ho
    simp only [List.mem_filter,decide_eq_true_eq] at ho
    have hn : ¬ (o.scheduleId = id ∧ o.state = .pending) := fun hc => h (hc.1.symm.trans ho.2)
    simp [cancelPendingOf,hn]

theorem occurrencesOf_new (row : ScheduleRow) (n : ℕ) (ss : List Selected) (sid : ℕ) :
    (occurrencesFrom row n ss).filter (fun o => o.scheduleId = sid) =
      if row.id = sid then occurrencesFrom row n ss else [] := by
  have hsid : ∀ o ∈ occurrencesFrom row n ss, o.scheduleId = row.id := by
    intro o ho
    obtain ⟨-,-,t,-,he⟩ := mem_occurrencesFrom ho
    rw [he]
    rfl
  split_ifs with h
  · apply List.filter_eq_self.mpr
    intro o ho
    simp [hsid o ho,h]
  · apply List.filter_eq_nil_iff.mpr
    intro o ho
    simp [hsid o ho,h]

section Projection

variable {db db' : Db} {sid : ℕ} {l : Life}

theorem life_congr (hsch : db'.schedules = db.schedules) (hocc : db'.occurrences = db.occurrences) :
    db'.life sid = db.life sid := by
  simp only [Db.life,Db.scheduleRow,Db.occurrencesOf,hsch,hocc]

variable {row : ScheduleRow} {lab : Label}

section

variable (hl : db.life sid = some l)

include hl

theorem life_put_occurrence {o o' : OccurrenceRow} (hs : db.Sound) (found : o ∈ db.occurrences)
    (hsch : db'.schedules = db.schedules)
    (hocc : db'.occurrences = Table.put (fun o => o.id) o' db.occurrences)
    (hsnap : o'.toOccurrenceSnapshot = o.toOccurrenceSnapshot) :
    (o ∈ l.occs ∧ db'.life sid = some ⟨l.row,Table.put (fun o => o.id) o' l.occs⟩) ∨
      db'.life sid = some l := by
  obtain ⟨hrow,hoccs⟩ := life_some.mp hl
  have hput := occurrencesOf_put hs found hsnap sid
  rw [life_congr (show db'.schedules = (db.putOccurrence o').schedules from hsch) hocc]
  by_cases h : o.scheduleId = sid
  · rw [if_pos h,← hoccs] at hput
    refine .inl ⟨?_,life_some.mpr ⟨hrow,hput.symm⟩⟩
    rw [hoccs,Db.occurrencesOf,List.mem_filter]
    exact ⟨found,by simp [h]⟩
  · rw [if_neg h,← hoccs] at hput
    exact .inr (life_some.mpr ⟨hrow,hput.symm⟩)

theorem move_of_row {row' : ScheduleRow} (occs' : List OccurrenceRow)
    (found : db.scheduleRow row.id = some row)
    (hsch : db'.schedules = Table.put ScheduleRow.id row' db.schedules) (hid : row'.id = row.id)
    (hocc : db'.occurrencesOf sid = if row.id = sid then occs' else db.occurrencesOf sid)
    (hmove : l.row = row → Move lab l ⟨row',occs'⟩) :
    ∃ l', db'.life sid = some l' ∧ (l' = l ∨ Move lab l l') := by
  obtain ⟨hrow,hoccs⟩ := life_some.mp hl
  have hput := scheduleRow_put found hid sid
  rw [Db.scheduleRow,Db.putSchedule,← hsch] at hput
  by_cases h : row.id = sid
  · rw [if_pos h] at hput hocc
    have he : l.row = row := Option.some.inj (hrow.symm.trans (h ▸ found))
    exact ⟨⟨row',occs'⟩,life_some.mpr ⟨hput,hocc.symm⟩,.inr (hmove he)⟩
  · rw [if_neg h] at hput hocc
    exact ⟨l,life_some.mpr ⟨hput.trans hrow,hoccs.trans hocc.symm⟩,.inl rfl⟩

theorem move_of_occurrence {o o' : OccurrenceRow} (hs : db.Sound) (found : o ∈ db.occurrences)
    (hsch : db'.schedules = db.schedules)
    (hocc : db'.occurrences = Table.put (fun o => o.id) o' db.occurrences)
    (hsnap : o'.toOccurrenceSnapshot = o.toOccurrenceSnapshot)
    (hmove : o ∈ l.occs → Move lab l ⟨l.row,Table.put (fun o => o.id) o' l.occs⟩) :
    ∃ l', db'.life sid = some l' ∧ (l' = l ∨ Move lab l l') := by
  rcases life_put_occurrence hl hs found hsch hocc hsnap with ⟨hm,h⟩ | h
  · exact ⟨_,h,.inr (hmove hm)⟩
  · exact ⟨_,h,.inl rfl⟩

end

theorem withCursor_id {next : ScheduleRow} (h : withCursor row = .ok next) : next.id = row.id := by
  unfold withCursor at h
  split_ifs at h
  · simp only [Checked.bind_ok,Checked.pure_ok] at h
    obtain ⟨_,-,rfl⟩ := h
    rfl
  · rw [Checked.pure_ok] at h
    rw [h]

theorem afterSettling_id (row : ScheduleRow) : (afterSettling row).id = row.id := by
  unfold afterSettling
  split_ifs <;> rfl

theorem Move.row_id {l l' : Life} (m : Move lab l l') : l'.row.id = l.row.id := by
  cases m with
  | resume _ cursor =>
    have hid := withCursor_id cursor
    exact hid
  | materialize => exact afterPlan_id _ _
  | settle => exact afterSettling_id _
  | _ => rfl

theorem Effect.life (e : Effect lab db db') (hs : db.Sound) (hl : db.life sid = some l) :
    ∃ l', db'.life sid = some l' ∧ (l' = l ∨ Move lab l l') := by
  obtain ⟨hrow,hoccs⟩ := life_some.mp hl
  have hsame : ∀ i, db.occurrencesOf sid = if i = sid then l.occs else db.occurrencesOf sid := by
    simp [hoccs]
  cases e with
  | create =>
    refine ⟨l,life_some.mpr ⟨?_,hoccs⟩,.inl rfl⟩
    rw [Db.scheduleRow] at hrow ⊢
    rw [Table.find_append,hrow]
    rfl
  | edit found editable sameType =>
    refine move_of_row hl _ found rfl rfl (hsame _) ?_
    rintro rfl
    exact .edit editable sameType
  | activate found draft first inWindow =>
    refine move_of_row hl _ found rfl rfl (hsame _) ?_
    rintro rfl
    exact .activate draft first inWindow
  | pause found active =>
    refine move_of_row hl _ found rfl rfl (hsame _) ?_
    rintro rfl
    exact .pause active
  | resume found paused cursor =>
    have hid := withCursor_id cursor
    refine move_of_row hl _ found rfl hid (hsame _) ?_
    rintro rfl
    exact .resume paused cursor
  | cancel found allowed =>
    refine move_of_row hl _ found rfl rfl (occurrencesOf_cancel db _ sid) ?_
    rintro rfl
    rw [← hoccs]
    exact .cancel allowed
  | @materialize _ row plan _ _ _ found active fires open_ planned =>
    refine move_of_row hl (l.occs++occurrencesFrom row db.fresh plan.selected) found rfl
      (afterPlan_id row plan.next) ?_ ?_
    · rw [Db.occurrencesOf,List.filter_append,occurrencesOf_new,hoccs]
      split_ifs
      · rfl
      · exact List.append_nil _
    · rintro rfl
      exact .materialize active fires open_ planned
  | cancelOccurrence found pending =>
    exact move_of_occurrence hl hs found rfl rfl rfl fun hm => .cancelOccurrence hm pending
  | @claim _ _ o _ _ found pending schedule active owns =>
    refine move_of_occurrence hl hs found rfl rfl rfl fun hm => .claim hm pending ?_
    have hsid : o.scheduleId = sid := by
      rw [hoccs,Db.occurrencesOf,List.mem_filter] at hm
      simpa using hm.2
    rw [owns] at hsid
    rw [hsid] at schedule
    rw [Option.some.inj (hrow.symm.trans schedule)]
    exact active
  | attempt fenced =>
    obtain ⟨found,-,claimed,-⟩ := fencedRow_some fenced
    exact move_of_occurrence hl hs found rfl rfl rfl fun hm => .attempt hm claimed
  | start => exact ⟨l,hl,.inl rfl⟩
  | @settle _ _ row o _ _ _ schedule fenced owns same _ _ target =>
    obtain ⟨found,hfid,claimed,-⟩ := fencedRow_some fenced
    have hocc := occurrencesOf_put hs found same sid
    rw [owns] at hocc
    refine move_of_row hl _ schedule rfl (afterSettling_id row) hocc ?_
    rintro rfl
    have hsid : l.row.id = sid := (scheduleRow_id hrow).2
    rw [← hoccs]
    refine .settle ?_ claimed hfid same target
    rw [hoccs,Db.occurrencesOf,List.mem_filter]
    exact ⟨found,by simp [owns,hsid]⟩

theorem Effect.life_new (e : Effect lab db db') (hs : db.Sound) (hl : db.life sid = none)
    (hl' : db'.life sid = some l) : l.Blank := by
  have hout := life_none.mp hl
  obtain ⟨hrow',hoccs'⟩ := life_some.mp hl'
  have hin : sid ∈ db'.scheduleIds :=
    (scheduleRow_id hrow').2 ▸ List.mem_map_of_mem (scheduleRow_id hrow').1
  cases e with
  | @create _ row _ _ draft noFire noLocal first =>
    have hsid : sid = row.id := by
      simp only [Db.scheduleIds,List.map_append,List.map_cons,List.map_nil,List.mem_append,
        List.mem_singleton] at hin
      exact hin.resolve_left hout
    subst hsid
    obtain rfl : row = l.row := by
      rw [Db.scheduleRow,Table.find_append] at hrow'
      simp only [Db.life,Option.map_eq_none_iff,Db.scheduleRow] at hl
      rw [hl,if_pos rfl] at hrow'
      exact Option.some.inj hrow'
    refine ⟨draft,noFire,noLocal,first,?_⟩
    rw [hoccs',Db.occurrencesOf]
    apply List.filter_eq_nil_iff.mpr
    intro o ho hc
    simp only [decide_eq_true_eq] at hc
    exact hout (hc ▸ hs.owned _ (Db.mem_snapshots ho))
  | cancelOccurrence | claim | attempt | start => exact absurd hin hout
  | _ =>
    have hput : sid ∈ (Table.put ScheduleRow.id _ db.schedules).map ScheduleRow.id := hin
    rw [Db.scheduleIds_put] at hput
    exact absurd hput hout

/-- A sequence of effects whose labels all meet a condition. -/
inductive Chain (P : Label → Prop) : Db → Db → Prop
  | refl (db : Db) : Chain P db db
  | cons {lab : Label} {db₁ db₂ db₃ : Db} (licensed : P lab) (first : Effect lab db₁ db₂)
      (rest : Chain P db₂ db₃) : Chain P db₁ db₃

theorem Chain.one {P : Label → Prop} (e : Effect lab db db') (h : P lab) : Chain P db db' :=
  .cons h e (.refl db')

theorem Chain.sound {P : Label → Prop} (c : Chain P db db') (hs : db.Sound) : db'.Sound := by
  induction c with
  | refl => exact hs
  | cons _ first _ ih => exact ih (first.sound hs)

end Projection

end NexusAi.Scheduler
