import NexusAi.Scheduler.Worlds

/-!
# Occurrence keys never collide

An occurrence key holds the revision of its schedule and the reading. Every
change of state raises the revision, and under one revision the cursor only
moves ahead, so the unique constraint on keys is never violated and a plan
that can be made can also be applied.
-/

namespace NexusAi.Scheduler
open NexusAi.Checked

/-- Keys of the current revision lie behind the cursor. -/
structure Life.Keyed (l : Life) : Prop where
  positive : 1 ≤ l.row.revision
  revisions : ∀ o ∈ l.occs, o.occurrenceKey.scheduleRevision ≤ l.row.revision
  behind : ∀ o ∈ l.occs, o.occurrenceKey.scheduleRevision = l.row.revision →
    ∀ t, l.row.nextLocalTime = some t → o.occurrenceKey.intendedLocalTime < t

variable {l : Life} {row : ScheduleRow} {now : ℤ} {db : Db}

theorem keyed_blank (h : l.Blank) : l.Keyed := by
  obtain ⟨-,-,-,hr,ho⟩ := h
  constructor <;> simp [hr,ho]

theorem keyed_raised (h : l.Keyed) {occs : List OccurrenceRow}
    (hrev : row.revision = l.row.revision+1)
    (hkeys : ∀ o ∈ occs, ∃ p ∈ l.occs, o.occurrenceKey = p.occurrenceKey) :
    (⟨row,occs⟩ : Life).Keyed := by
  constructor
  · dsimp only
    omega
  · intro o ho
    obtain ⟨p,hp,he⟩ := hkeys o ho
    have := h.revisions p hp
    dsimp only
    rw [he]
    omega
  · intro o ho hr
    obtain ⟨p,hp,he⟩ := hkeys o ho
    have := h.revisions p hp
    dsimp only at hr
    rw [he] at hr
    omega

theorem keyed_put (h : l.Keyed) {o o' : OccurrenceRow} (ho : o ∈ l.occs)
    (hs : o'.toOccurrenceSnapshot = o.toOccurrenceSnapshot) :
    (⟨l.row,Table.put (fun o => o.id) o' l.occs⟩ : Life).Keyed := by
  have hkey : ∀ p ∈ Table.put (fun o => o.id) o' l.occs,
      ∃ r ∈ l.occs, p.occurrenceKey = r.occurrenceKey := by
    intro p hp
    rcases Table.mem_put.mp hp with ⟨-,rfl⟩ | ⟨hp,-⟩
    · exact ⟨o,ho,congrArg OccurrenceSnapshot.occurrenceKey hs⟩
    · exact ⟨p,hp,rfl⟩
  refine ⟨h.positive,?_,?_⟩
  · intro p hp
    obtain ⟨r,hr,he⟩ := hkey p hp
    exact he ▸ h.revisions r hr
  · intro p hp
    obtain ⟨r,hr,he⟩ := hkey p hp
    exact he ▸ h.behind r hr

theorem keyed_materialize (h : l.Keyed) {room n : ℕ} {plan : Plan}
    (planned : planRow l.row now room = .ok plan) :
    (⟨afterPlan l.row plan.next,l.occs++occurrencesFrom l.row n plan.selected⟩ : Life).Keyed := by
  obtain ⟨-,-,hfuture,-⟩ := planRow_readings planned
  have hnew : ∀ o ∈ occurrencesFrom l.row n plan.selected,
      o.occurrenceKey.scheduleRevision = l.row.revision ∧
        ∃ s ∈ plan.selected, o.occurrenceKey.intendedLocalTime = s.slot.intendedLocalTime := by
    intro o ho
    obtain ⟨-,-,s,hs,he⟩ := mem_occurrencesFrom ho
    rw [he]
    exact ⟨rfl,s,hs,rfl⟩
  have hrev := afterPlan_revision l.row plan.next
  constructor
  · have := h.positive
    dsimp only
    omega
  · intro o ho
    dsimp only
    rcases List.mem_append.mp ho with ho | ho
    · have := h.revisions o ho
      omega
    · have := (hnew o ho).1
      omega
  · intro o ho hr t ht
    dsimp only at hr ht
    obtain ⟨f,hf,rfl⟩ := afterPlan_cursor ht
    obtain ⟨t₀,ht₀,hle,hall⟩ := hfuture f hf
    have hkeep : (afterPlan l.row plan.next).revision = l.row.revision := by
      rcases hrev with ⟨-,hnone⟩ | hkeep
      · rw [hnone] at ht
        cases ht
      · exact hkeep
    rcases List.mem_append.mp ho with ho | ho
    · exact (h.behind o ho (hr.trans hkeep) t₀ ht₀).trans_le hle
    · obtain ⟨-,s,hs,he⟩ := hnew o ho
      rw [he]
      exact hall s hs

theorem withCursor_revision {next : ScheduleRow} (h : withCursor row = .ok next) :
    next.revision = row.revision := by
  unfold withCursor at h
  split_ifs at h
  · simp only [bind_ok,pure_ok] at h
    obtain ⟨_,-,rfl⟩ := h
    rfl
  · rw [pure_ok] at h
    rw [h]

theorem move_keyed {lab : Label} {l' : Life} (h : l.Keyed) (m : Move lab l l') : l'.Keyed := by
  have same : ∀ o ∈ l.occs, ∃ p ∈ l.occs, o.occurrenceKey = p.occurrenceKey :=
    fun o ho => ⟨o,ho,rfl⟩
  cases m with
  | edit | activate | pause => exact keyed_raised h rfl same
  | resume _ cursor =>
    have hrev := withCursor_revision cursor
    exact keyed_raised h (congrArg (·+1) hrev) same
  | cancel =>
    refine keyed_raised h rfl ?_
    intro o ho
    obtain ⟨p,hp,rfl⟩ := List.mem_map.mp ho
    refine ⟨p,hp,?_⟩
    unfold cancelPendingOf
    split_ifs <;> rfl
  | materialize _ _ _ planned => exact keyed_materialize h planned
  | cancelOccurrence found | claim found | attempt found => exact keyed_put h found rfl
  | settle found _ _ same =>
    unfold afterSettling
    split_ifs
    · refine keyed_raised h rfl ?_
      intro p hp
      rcases Table.mem_put.mp hp with ⟨-,rfl⟩ | ⟨hp,-⟩
      · exact ⟨_,found,congrArg OccurrenceSnapshot.occurrenceKey same⟩
      · exact ⟨p,hp,rfl⟩
    · exact keyed_put h found same

theorem Effect.keyed {lab : Label} {db' : Db} (e : Effect lab db db') (hs : db.Sound)
    (h : ∀ sid l, db.life sid = some l → l.Keyed) : ∀ sid l, db'.life sid = some l → l.Keyed := by
  intro sid l' hl'
  cases hl : db.life sid with
  | none => exact keyed_blank (e.life_new hs hl hl')
  | some l =>
    obtain ⟨l₂,h₂,hm⟩ := e.life hs hl
    obtain rfl : l₂ = l' := Option.some.inj (h₂.symm.trans hl')
    rcases hm with rfl | hm
    · exact h sid _ hl
    · exact move_keyed (h sid l hl) hm

theorem reach_keyed (versions : List ℕ) (as : List Action) :
    ∀ sid l, (reach versions as).db.life sid = some l → l.Keyed :=
  reach_lives Life.Keyed (fun _ => keyed_blank) (fun _ _ _ _ _ _ _ => move_keyed)
    (Run.conforms_of_forall step (fun _ => True) as _ (by simp))

section

variable (hbelow : ∀ p ∈ db.occurrences, p.p14IdempotencyKey.occurrenceId < db.fresh)
  (hrev : 1 ≤ row.revision)

include hbelow hrev

theorem addOccurrence_total {s : Selected} (hfold : s.slot.fold = 0)
    (hkey : ∀ p ∈ db.occurrences, p.scheduleId = row.id → p.occurrenceKey ≠ keyOf row s.slot) :
    ∃ r, addOccurrence db row s.slot s.state s.reason = .ok r := by
  let o := newOccurrence row s.slot (keyOf row s.slot) s.state s.reason db.fresh
  have hname : ∀ p ∈ db.occurrences, p.p14IdempotencyKey ≠ o.p14IdempotencyKey := by
    intro p hp he
    have := hbelow p hp
    rw [he] at this
    exact absurd this (lt_irrefl _)
  obtain ⟨p,hp⟩ : ∃ p, Table.find (fun o : OccurrenceRow => o.id) o.id (db.occurrences++[o]) =
      some p := by
    rw [Table.find_append,if_pos rfl]
    cases Table.find (fun o : OccurrenceRow => o.id) o.id db.occurrences with
    | none => exact ⟨o,rfl⟩
    | some p => exact ⟨p,rfl⟩
  simp only [addOccurrence,buildOccurrenceKey,Db.logOccurrence,bind_ok,require_ok,present_ok,
    pure_ok]
  exact ⟨_,_,⟨(),hrev,(),.inl hfold,rfl⟩,(),fun q hq hc => hkey q hq hc.1 hc.2,(),hname,_,
    ⟨p,hp,rfl⟩,rfl⟩

theorem addOccurrences_total {ss : List Selected} (hfold : ∀ s ∈ ss, s.slot.fold = 0)
    (hnodup : (ss.map fun s => s.slot.intendedLocalTime).Nodup)
    (hkey : ∀ p ∈ db.occurrences, p.scheduleId = row.id → ∀ s ∈ ss,
      p.occurrenceKey ≠ keyOf row s.slot) : ∃ r, addOccurrences row ss db = .ok r := by
  induction ss generalizing db with
  | nil => exact ⟨_,rfl⟩
  | cons s ss ih =>
    simp only [List.map_cons,List.nodup_cons] at hnodup
    obtain ⟨⟨db1,o⟩,h1⟩ := addOccurrence_total hbelow hrev (hfold s (by simp))
      (fun p hp hr => hkey p hp hr s (by simp))
    obtain ⟨ho,_,-,hdb⟩ := addOccurrence_ok h1
    have hmem : ∀ p ∈ db1.occurrences, p ∈ db.occurrences ∨ p = o := by
      intro p hp
      rw [hdb] at hp
      simpa using hp
    have hbelow1 : ∀ p ∈ db1.occurrences, p.p14IdempotencyKey.occurrenceId < db1.fresh := by
      intro p hp
      have hfresh : db1.fresh = db.fresh+1 := by rw [hdb]
      rcases hmem p hp with hp | rfl
      · have := hbelow p hp
        omega
      · rw [ho,hfresh]
        exact Nat.lt_succ_self _
    have hkey1 : ∀ p ∈ db1.occurrences, p.scheduleId = row.id → ∀ t ∈ ss,
        p.occurrenceKey ≠ keyOf row t.slot := by
      intro p hp hr t ht
      rcases hmem p hp with hp | rfl
      · exact hkey p hp hr t (by simp [ht])
      · intro he
        rw [ho] at he
        have hlocal : s.slot.intendedLocalTime = t.slot.intendedLocalTime :=
          congrArg OccurrenceKey.intendedLocalTime he
        exact hnodup.1 (hlocal ▸ List.mem_map_of_mem (f := fun s => s.slot.intendedLocalTime) ht)
    obtain ⟨r,h2⟩ := ih hbelow1 (fun t ht => hfold t (by simp [ht])) hnodup.2 hkey1
    simp only [addOccurrences,bind_ok,pure_ok]
    exact ⟨_,_,h1,r,h2,rfl⟩

end

theorem recordMisfireAccounting_total (db : Db) {omitted : List TemporalSlot} (reason : String)
    (hrev : 1 ≤ row.revision) (hfold : ∀ s ∈ omitted, s.fold = 0) :
    ∃ db', recordMisfireAccounting db row omitted reason = .ok db' := by
  unfold recordMisfireAccounting
  split
  · rename_i first last hfirst hlast
    have h1 := hfold first (List.mem_of_mem_head? hfirst)
    have h2 := hfold last (List.mem_of_getLast? hlast)
    simp only [bind_ok,require_ok]
    split_ifs
    · exact ⟨_,(),hrev,(),⟨.inl h1,.inl h2⟩,rfl⟩
    · exact ⟨_,(),hrev,(),⟨.inl h1,.inl h2⟩,rfl⟩
  · exact ⟨_,rfl⟩

theorem moveCursor_total (db : Db) (next : Option TemporalSlot) (active : row.state = .active) :
    ∃ db', moveCursor db row next = .ok db' := by
  unfold moveCursor
  split_ifs
  · exact ⟨_,rfl⟩
  · cases next with
    | none =>
      simp only [transitionSchedule,requireScheduleTransition,bind_ok,require_ok,pure_ok]
      exact ⟨_,_,⟨(),by rw [active]; decide,rfl⟩,rfl⟩
    | some => exact ⟨_,rfl⟩

theorem applyPlan_total (hs : db.Sound) (hl : db.life l.row.id = some l) (hk : l.Keyed)
    (active : l.row.state = .active) {room : ℕ} {plan : Plan}
    (planned : planRow l.row now room = .ok plan) : ∃ r, applyPlan l.row plan db = .ok r := by
  obtain ⟨due,hdue,hsub,homit⟩ := planRow_slots planned
  obtain ⟨hsorted,hlow,-,-⟩ := elapsedSlots_order hdue
  have hfold := (elapsedSlots_future hdue).2
  have hslot : ∀ s ∈ plan.selected, s.slot ∈ due :=
    fun s h => hsub.subset (List.mem_map_of_mem h)
  have hadd : ∃ r, addOccurrences l.row plan.selected db = .ok r := by
    refine addOccurrences_total ?_ hk.positive (fun s h => hfold _ (hslot s h)) ?_ ?_
    · intro p hp
      rw [hs.named _ (Db.mem_snapshots hp)]
      exact hs.occurrencesBelow _ (Db.mem_snapshots hp)
    · have hn := (hsorted.imp (fun hlt => ne_of_lt hlt)).sublist (hsub.map _)
      rwa [List.map_map] at hn
    · intro p hp hr s h he
      have hm : p ∈ l.occs := by
        rw [(life_some.mp hl).2,Db.occurrencesOf,List.mem_filter]
        exact ⟨hp,by simpa using hr⟩
      obtain ⟨t,ht,hle⟩ := hlow s.slot (hslot s h)
      have hlt := hk.behind p hm (by rw [he]; rfl) t ht
      rw [he] at hlt
      exact absurd hlt (not_lt.mpr hle)
  obtain ⟨⟨db1,_⟩,h1⟩ := hadd
  obtain ⟨db2,h2⟩ := recordMisfireAccounting_total db1 plan.accountingReason hk.positive
    (fun s h => hfold s (homit.subset h))
  obtain ⟨_,h3⟩ := moveCursor_total db2 plan.next active
  simp only [applyPlan,bind_ok,pure_ok]
  exact ⟨_,_,h1,_,h2,_,h3,rfl⟩

theorem applyPlans_total {plans : List (ScheduleRow × Plan)} (hs : db.Sound)
    (hk : ∀ sid l, db.life sid = some l → l.Keyed) (hx : Executable db now plans) :
    ∃ r, applyPlans plans db = .ok r := by
  induction plans generalizing db with
  | nil => exact ⟨_,rfl⟩
  | cons p plans ih =>
    obtain ⟨row,plan⟩ := p
    obtain ⟨hfound,hactive,-⟩ := hx.rows (row,plan) (by simp)
    obtain ⟨_,-,hplan⟩ := hx.plans (row,plan) (by simp)
    have hl : db.life row.id = some ⟨row,db.occurrencesOf row.id⟩ := life_some.mpr ⟨hfound,rfl⟩
    obtain ⟨⟨_,_⟩,h1⟩ := applyPlan_total hs hl (hk _ _ hl) hactive hplan
    obtain ⟨e,hx1⟩ := hx.first h1
    obtain ⟨r,h2⟩ := ih (e.sound hs) (e.keyed hs hk) hx1
    simp only [applyPlans,bind_ok,pure_ok]
    exact ⟨_,_,h1,_,h2,rfl⟩

end NexusAi.Scheduler
