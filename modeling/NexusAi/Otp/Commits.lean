import NexusAi.Otp.Statements

/-!
# The commits

A commit writes the rows that its call has locked, so that what every other call
knows of the rows stays true. Its call lets go of them, the rows change while
nobody holds them, and the call goes on.
-/

namespace NexusAi.Otp

variable {D : Type} [DecidableEq D] {service : Service D} {w : World D} {i : ℕ} {c : Call D}

namespace World

omit [DecidableEq D] in
theorem enter_enter (w : World D) (i : ℕ) (p q : Phase D) : (w.enter i p).enter i q = w.enter i q := by
  unfold enter
  simp only [List.modify_modify_eq]
  rfl

section

variable (h : w.Sound service)

include h

theorem Sound.rewritten {rows : List (Challenge D)} (hkeyed : Table.Keyed Challenge.id rows)
    (hrows : ∀ r ∈ rows, r.Tried ∧ ∃ s ∈ w.rows, r.origin = s.origin ∧
      (s.status = .active ∨ r.status = s.status))
    (hlocked : ∀ (j : ℕ) b, w.calls[j]? = some b → ∀ r ∈ w.rows, b.phase.lock = some r.id → r ∈ rows) :
    World.Sound service { w with rows := rows } := by
  have hback : ∀ r ∈ rows, ∃ s ∈ w.rows, s.origin = r.origin ∧
      (r.status = .active → s.status = .active) := by
    intro r hr
    obtain ⟨-,s,hs,horigin,hstatus⟩ := hrows r hr
    refine ⟨s,hs,horigin.symm,fun hactive => ?_⟩
    rcases hstatus with hstatus | hstatus
    · exact hstatus
    · exact hstatus.symm.trans hactive
  constructor
  · exact hkeyed
  · intro r hr
    obtain ⟨s,hs,horigin,-⟩ := hback r hr
    rw [← horigin]
    exact h.origins s hs
  · exact h.once
  · exact h.early
  · exact h.numbered
  · exact fun r hr => (hrows r hr).1
  · intro j b hb
    exact (h.fits j b hb).evolve (hlocked j b hb) fun r hr => .inl (hback r hr)
  · exact h.sole
  · exact h.apart
  · intro r hr s hs hractive hsactive hsubject
    obtain ⟨r',hr',horigin,hactive⟩ := hback r hr
    obtain ⟨s',hs',horigin',hactive'⟩ := hback s hs
    have hsame : r' = s' := h.single r' hr' s' hs' (hactive hractive) (hactive' hsactive) (by
      rw [subject_of_origin horigin,hsubject,subject_of_origin horigin'])
    apply Table.mem_unique hkeyed hr hs
    rw [← id_of_origin horigin,hsame,id_of_origin horigin']
  · intro j b id hb hp
    obtain ⟨hdraft,hverified⟩ := h.used j b id hb hp
    refine ⟨hdraft,fun r hr hid => ?_⟩
    obtain ⟨-,s,hs,horigin,hstatus⟩ := hrows r hr
    have hs' := hverified s hs ((id_of_origin horigin).symm.trans hid)
    rcases hstatus with hactive | hsame
    · rw [hs'] at hactive
      cases hactive
    · exact hsame.trans hs'
  · exact h.alone

theorem Sound.clear_of_rivals {j : ℕ} {b : Call D} {e draft : Draft} (hb : w.calls[j]? = some b)
    (he : b.phase.entry = some e) (hne : b.phase.early → j ≠ draft.id)
    (hrivals : rivals service e draft = false) (now : ℤ) :
    conflicts service e b.phase.lock (service.stored draft now) = false := by
  have hdraft : b.phase.draft = some e := by
    cases hp : b.phase with
    | inserted =>
      rw [hp] at he
      exact he
    | _ =>
      rw [hp] at he
      cases he
  have hid : e.id = j := (h.fits j b hb).drawn e hdraft
  have hj : j ≠ draft.id := hne (by simp [Phase.early,hdraft])
  simp only [rivals,Bool.or_eq_false_iff,decide_eq_false_iff_not] at hrivals
  simp only [conflicts,Bool.or_eq_false_iff,decide_eq_false_iff_not]
  refine ⟨⟨?_,hrivals.2⟩,fun hs => hrivals.1 hs.2.1⟩
  rw [hid]
  exact hj.symm

theorem Sound.appended (draft : Draft) (hdrawn : draft.id < w.calls.length)
    (hfresh : draft.id ∉ w.issued.map Draft.id)
    (hlate : ∀ b, w.calls[draft.id]? = some b → b.phase.early = false)
    (hclear : ∀ r ∈ w.rows, conflicts service draft none r = false)
    (hrivals : ∀ j q e, w.phase j = some q → q.entry = some e → rivals service e draft = false)
    (now : ℤ) : World.Sound service { w with
      rows := w.rows++[service.stored draft now]
      issued := w.issued++[draft] } := by
  have hconflict : ∀ r ∈ w.rows, r.id ≠ draft.id ∧
      ¬(r.status = .active ∧ r.subject = service.subject draft) := by
    intro r hr
    have hr' := hclear r hr
    simp only [conflicts,Bool.or_eq_false_iff,decide_eq_false_iff_not] at hr'
    exact ⟨hr'.1.1,fun hs => hr'.2 ⟨hs.1,hs.2,by simp⟩⟩
  have hearly : ∀ (j : ℕ) b, w.calls[j]? = some b → b.phase.early → j ≠ draft.id := by
    rintro j b hb hp rfl
    rw [hlate b hb] at hp
    cases hp
  constructor
  · exact Table.keyed_append h.keyed fun r hr => (hconflict r hr).1
  · intro r hr
    rcases Table.mem_concat hr with hr | rfl
    · obtain ⟨d,hd,horigin⟩ := h.origins r hr
      exact ⟨d,List.mem_append_left _ hd,horigin⟩
    · exact ⟨draft,by simp,rfl⟩
  · rw [List.map_append]
    refine List.nodup_append.mpr ⟨h.once,by simp,?_⟩
    rintro a ha b hb rfl
    rw [List.map_singleton,List.mem_singleton] at hb
    exact hfresh (hb ▸ ha)
  · intro j b hb hp hmem
    rw [List.map_append,List.mem_append,List.map_singleton,List.mem_singleton] at hmem
    rcases hmem with hmem | hmem
    · exact h.early j b hb hp hmem
    · exact hearly j b hb hp hmem
  · intro d hd
    rcases Table.mem_concat hd with hd | rfl
    · exact h.numbered d hd
    · exact hdrawn
  · intro r hr
    rcases Table.mem_concat hr with hr | rfl
    · exact h.tried r hr
    · exact ⟨Nat.zero_le _,fun _ => service.settings.attempts_bounds.1⟩
  · intro j b hb
    refine (h.fits j b hb).evolve (fun r hr _ => List.mem_append_left _ hr) fun r hr => ?_
    rcases Table.mem_concat hr with hr | rfl
    · exact .inl ⟨r,hr,rfl,fun ha => ha⟩
    · exact .inr fun e he => h.clear_of_rivals hb he (hearly j b hb)
        (hrivals j _ e (phase_of_call hb) he) now
  · exact h.sole
  · exact h.apart
  · intro r hr s hs hractive hsactive hsubject
    rcases List.mem_append.mp hr with hr | hr <;> rcases List.mem_append.mp hs with hs | hs
    · exact h.single r hr s hs hractive hsactive hsubject
    · rw [List.mem_singleton.mp hs] at hsubject
      exact absurd ⟨hractive,hsubject⟩ (hconflict r hr).2
    · rw [List.mem_singleton.mp hr] at hsubject
      exact absurd ⟨hsactive,hsubject.symm⟩ (hconflict s hs).2
    · rw [List.mem_singleton.mp hr,List.mem_singleton.mp hs]
  · intro j b id hb hp
    obtain ⟨⟨d,hd,hid,hrequest⟩,hverified⟩ := h.used j b id hb hp
    refine ⟨⟨d,List.mem_append_left _ hd,hid,hrequest⟩,fun r hr hrid => ?_⟩
    rcases Table.mem_concat hr with hr | rfl
    · exact hverified r hr hrid
    · refine absurd (List.mem_map_of_mem hd) (?_ : d.id ∉ w.issued.map Draft.id)
      rw [hid,← hrid]
      exact hfresh
  · exact h.alone

theorem Sound.verifies (hi : w.calls[i]? = some c) {id : ℕ}
    (hdraft : ∃ d ∈ w.issued, d.id = id ∧ service.Accepts d c.request)
    (hrows : ∀ r ∈ w.rows, r.id = id → r.status = .verified)
    (hnew : ∀ (j : ℕ) b, w.calls[j]? = some b → b.phase ≠ .closed (.verified id)) :
    (w.enter i (.closed (.verified id))).Sound service := by
  refine h.entered hi ⟨?_,?_,?_,?_,?_,?_⟩ ?_ ?_ ?_ ?_
  all_goals try simp [Phase.draft,Phase.lock,Phase.entry,Phase.early]
  exact ⟨⟨hdraft,hrows⟩,hnew⟩

end

omit [DecidableEq D] in
theorem enter_self (hi : w.calls[i]? = some c) (p : Phase D) :
    (w.enter i p).calls[i]? = some { c with phase := p } := by
  simp [enter,hi]

theorem Sound.lets_go (h : w.Sound service) (hi : w.calls[i]? = some c) :
    (w.enter i (.closed .aborted)).Sound service :=
  h.ends hi rfl rfl

theorem Sound.lock_elsewhere (h : w.Sound service) (hi : w.calls[i]? = some c) {id : ℕ}
    (hid : c.phase.lock = some id) {j : ℕ} {b : Call D}
    (hb : (w.enter i (.closed .aborted)).calls[j]? = some b) : b.phase.lock ≠ some id := by
  intro hlock
  rcases Batch.modified hi hb with ⟨-,rfl⟩ | ⟨hj,hb⟩
  · cases hlock
  · refine hj (h.sole.alone i j id ?_ ?_)
    · simp [held,phase_of_call hi,hid]
    · simp [held,phase_of_call hb,hlock]

section Updated

variable {row update : Challenge D} {outcome : Outcome}

theorem Sound.updated (h : w.Sound service) (hi : w.calls[i]? = some c) (hrow : row ∈ w.rows)
    (hupdates : Updates row update) (hlock : c.phase.lock = some row.id) :
    World.Sound service ({ w with
      rows := Table.edit Challenge.id [row.id] (fun _ => update) w.rows }.enter i
        (.closed .aborted)) := by
  refine (h.lets_go hi).rewritten ?_ ?_ ?_
  · refine Table.keyed_edit ?_ h.keyed
    intro r hr
    rw [List.mem_singleton.mp hr]
    exact id_of_origin hupdates.origin
  · intro r hr
    rcases Table.mem_edit.mp hr with ⟨_,_,_,rfl⟩ | ⟨hr,-⟩
    · exact ⟨hupdates.tried,row,hrow,hupdates.origin,hupdates.status⟩
    · exact ⟨h.tried r hr,r,hr,rfl,.inr rfl⟩
  · intro j b hb r hr hid
    refine Table.mem_edit.mpr (.inr ⟨hr,fun hmem => ?_⟩)
    rw [List.mem_singleton.mp hmem] at hid
    exact h.lock_elsewhere hi hlock hb hid

theorem Sound.commitStep (h : w.Sound service) (hi : w.calls[i]? = some c)
    (hphase : c.phase = .written row update outcome) :
    (w.commitStep i row update outcome).Sound service := by
  have hfits := h.fits i c hi
  obtain ⟨hrow,hupdates⟩ := hfits.updates row update outcome (.inr hphase)
  have hlock : c.phase.lock = some row.id := by rw [hphase]; rfl
  have hupdated := h.updated hi hrow hupdates hlock
  unfold World.commitStep
  rw [← enter_enter _ i (.closed .aborted)]
  cases outcome with
  | verified id =>
    obtain ⟨hid,hactive,hstatus,code,hrequest,hmatch⟩ := hfits.verdict row update id (.inr hphase)
    refine hupdated.verifies (enter_self hi _) ?_ ?_ ?_
    · obtain ⟨d,hd,horigin⟩ := h.origins row hrow
      refine ⟨d,hd,?_,?_⟩
      · have hdrawn : row.id = (service.stored d 0).id := id_of_origin horigin
        exact hdrawn.symm.trans hid
      · have hcontext : row.context = (service.stored d 0).context :=
          of_origin Challenge.context (fun _ => rfl) horigin
        have hcode : row.codeHash = (service.stored d 0).codeHash :=
          of_origin Challenge.codeHash (fun _ => rfl) horigin
        exact ⟨code,hrequest,by rw [← hcontext,← hcode,hmatch]⟩
    · intro r hr hrid
      rcases Table.mem_edit.mp hr with ⟨_,_,_,rfl⟩ | ⟨_,hne⟩
      · exact hstatus
      · exact absurd (hrid.trans hid.symm) (by simpa using hne)
    · intro j b hb hclosed
      rcases Batch.modified hi hb with ⟨-,rfl⟩ | ⟨-,hb⟩
      · cases hclosed
      · have hused := (h.used j b id hb hclosed).2 row hrow hid
        rw [hactive] at hused
        cases hused
  | _ =>
    refine hupdated.ends (enter_self hi _) ?_ ?_
    all_goals rfl

end Updated

section Issued

variable {draft : Draft} {issued : ℕ} {revoked : Option ℕ}

section

variable (h : w.Sound service) (hi : w.calls[i]? = some c)
  (hphase : c.phase = .inserted draft issued revoked) (now : ℤ)

include h hi hphase now

theorem Sound.superseded : World.Sound service ({ w with
      rows := Table.edit Challenge.id revoked.toList (revokedAt now) w.rows }.enter i
        (.closed .aborted)) := by
  have hdraft : c.phase.draft = some draft := by rw [hphase]; rfl
  have hlock : c.phase.lock = revoked := by rw [hphase]; rfl
  have hactive : ∀ r ∈ w.rows, r.id ∈ revoked.toList → r.status = .active := by
    intro r hr hid
    obtain ⟨s,hs,hsid,hstatus,-⟩ := (h.fits i c hi).superseded draft r.id hdraft
      (hlock.trans (Option.mem_toList.mp hid))
    rw [Table.mem_unique h.keyed hr hs hsid.symm]
    exact hstatus
  refine (h.lets_go hi).rewritten ?_ ?_ ?_
  · exact Table.keyed_edit (fun _ _ => rfl) h.keyed
  · intro r hr
    rcases Table.mem_edit.mp hr with ⟨s,hs,hid,rfl⟩ | ⟨hr,-⟩
    · exact ⟨⟨(h.tried s hs).1,fun he => by cases he⟩,s,hs,rfl,.inl (hactive s hs hid)⟩
    · exact ⟨h.tried r hr,r,hr,rfl,.inr rfl⟩
  · intro j b hb r hr hid
    refine Table.mem_edit.mpr (.inr ⟨hr,fun hmem => ?_⟩)
    exact h.lock_elsewhere hi (hlock.trans (Option.mem_toList.mp hmem)) hb hid

theorem Sound.issueStep : (w.issueStep service i draft revoked now).Sound service := by
  have hfits := h.fits i c hi
  have hdraft : c.phase.draft = some draft := by rw [hphase]; rfl
  have hlock : c.phase.lock = revoked := by rw [hphase]; rfl
  have hentry : c.phase.entry = some draft := by rw [hphase]; rfl
  have hdrawn : draft.id = i := hfits.drawn draft hdraft
  have hlt : i < w.calls.length := (List.getElem?_eq_some_iff.mp hi).1
  have hcleared : ∀ r ∈ Table.edit Challenge.id revoked.toList (revokedAt now) w.rows,
      conflicts service draft none r = false := by
    intro r hr
    rcases Table.mem_edit.mp hr with ⟨s,hs,hid,rfl⟩ | ⟨hr,hid⟩
    · have hs' := hfits.clear draft hentry s hs
      simp only [conflicts,Bool.or_eq_false_iff,decide_eq_false_iff_not] at hs' ⊢
      exact ⟨hs'.1,fun he => by cases he.1⟩
    · have hr' := hfits.clear draft hentry r hr
      rw [hlock] at hr'
      simp only [conflicts,Bool.or_eq_false_iff,decide_eq_false_iff_not] at hr' ⊢
      refine ⟨hr'.1,fun hs => hr'.2 ⟨hs.1,hs.2.1,fun he => hid ?_⟩⟩
      exact Option.mem_toList.mpr he.symm
  have hstored := (h.superseded hi hphase now).appended draft ?_ ?_ ?_ hcleared ?_ now
  · unfold World.issueStep
    rw [← enter_enter _ i (.closed .aborted)]
    refine hstored.ends (enter_self hi _) ?_ ?_
    all_goals rfl
  · rw [hdrawn]
    simpa [enter] using hlt
  · rw [hdrawn]
    exact h.early i c hi (by simp [Phase.early,hdraft])
  · intro b hb
    rw [hdrawn] at hb
    have hself := (enter_self hi (.closed .aborted)).symm.trans hb
    cases hself
    rfl
  · intro j q e hq he
    have hphases := (phase_enter hi (.closed .aborted) j).symm.trans hq
    by_cases hj : j = i
    · rw [if_pos hj] at hphases
      cases hphases
      cases he
    · rw [if_neg hj] at hphases
      exact h.apart j i q c.phase e draft hj hphases (phase_of_call hi) he hentry

end

end Issued

theorem Sound.purgeStep (h : w.Sound service) (organizationId : ℕ) (now : ℤ) (olderThan : ℕ) :
    (w.purgeStep organizationId now olderThan).Sound service := by
  simp only [World.purgeStep]
  split_ifs with hblocked
  · exact h
  · have hkept : ∀ r ∈ purgeTerminalBefore organizationId (now-max olderThan 3600) w.rows,
        r ∈ w.rows := fun r hr => List.mem_of_mem_filter hr
    refine h.rewritten ?_ ?_ ?_
    · exact h.keyed.sublist (List.filter_sublist.map Challenge.id)
    · intro r hr
      exact ⟨h.tried r (hkept r hr),r,hkept r hr,rfl,.inr rfl⟩
    · intro j b hb r hr hlock
      by_contra hgone
      refine hblocked (List.any_eq_true.mpr ⟨r,hr,?_⟩)
      rw [Bool.and_eq_true,List.any_eq_true]
      exact ⟨by simpa using hgone,b,List.mem_of_getElem? hb,by simpa using hlock⟩

end World

end NexusAi.Otp
