import NexusAi.Workflow.Engine

/-!
# Moves of step rows

Whatever an operation does to the rows of a run is a sequence of moves. A
terminal row is left alone by all of them, so the verdict on a step whose
dependencies are settled is final. Finishing a condition and excluding the
branch that it did not select is one move.
-/

namespace NexusAi.Workflow

def StepState.terminal (s : StepState) : Bool :=
  s ∈ [StepState.completed,.failed,.skipped,.cancelled]

def StepState.active (s : StepState) : Bool :=
  s ∈ [StepState.ready,.running,.completed,.failed]

/-- The steps that a finished step keeps from running: the branch that a
condition did not select. -/
def excludes (spec : StepSpec) (output : Json.Fields) : List String :=
  match spec.config, output.lookup "selected" with
  | .condition c, some (.bool b) => c.selected !b
  | _, _ => []

def StepRow.done (row : StepRow) (output : Json.Fields) (reference : Option ℕ) : StepRow :=
  { row with state := .completed, output := some output, externalReference := reference }

inductive Label where
  | take (token : ℕ)
  | finish (row : StepRow) (output : Json.Fields)
  | quiet

/-- The output of a condition tells the branch that it selected. -/
def Label.Tells : Label → Prop
  | .finish row output => ∀ c, row.spec.config = .condition c →
      ∃ b, output = conditionOutput c.toConditionFields b
  | _ => True

inductive Move : Label → List StepRow → List StepRow → Prop
  | claim {rows : List StepRow} {row : StepRow} {owner token : ℕ} (found : row ∈ rows)
      (ready : row.state = .ready) :
      Move (.take token) rows (Table.put StepRow.key { row with
        state := .running, attemptCount := row.attemptCount+1,
        executionOwnerId := some owner, claimToken := some token } rows)
  | finish {rows : List StepRow} {row : StepRow} {output : Json.Fields} {reference : Option ℕ}
      (found : row ∈ rows) (running : row.state = .running) :
      Move (.finish row output) rows
        ((Table.put StepRow.key (row.done output reference) rows).map
          (skipStep (excludes row.spec output)))
  | resolve {rows : List StepRow} {row : StepRow} {target : StepState} (found : row ∈ rows)
      (pending : row.state = .pending) (resolved : resolution rows row.spec = some target) :
      Move .quiet rows (Table.put StepRow.key { row with state := target } rows)
  | retry {rows : List StepRow} {row : StepRow} {code : String} (found : row ∈ rows)
      (running : row.state = .running) :
      Move .quiet rows (Table.put StepRow.key { row with
        state := .ready, executionOwnerId := none, claimToken := none,
        errorCode := some code } rows)
  | fail {rows : List StepRow} {row : StepRow} {code : String} (found : row ∈ rows)
      (running : row.state = .running) :
      Move .quiet rows (Table.put StepRow.key { row with
        state := .failed, errorCode := some code } rows)
  | cancel {rows : List StepRow} : Move .quiet rows (rows.map cancelStep)

theorem excludes_conditionOutput {spec : StepSpec} {c : ConditionConfig}
    (h : spec.config = .condition c) (b : Bool) :
    excludes spec (conditionOutput c.toConditionFields b) = c.selected !b := by
  simp [excludes,h,conditionOutput]

theorem excludes_of_other {spec : StepSpec} (h : ∀ c, spec.config ≠ .condition c)
    (output : Json.Fields) : excludes spec output = [] := by
  unfold excludes
  split
  · rename_i c _ hc _
    exact absurd hc (h c)
  · rfl

variable {r : StepRow} {states : List StepState} {mode : DependencyMode} {rows : List StepRow}

theorem stateOf_mem (hk : Table.Keyed StepRow.key rows) (hr : r ∈ rows) :
    stateOf rows r.key = r.state := by
  rw [stateOf,Table.find_of_mem hk hr]

theorem stateOf_settled {key : String}
    (h : (stateOf rows key).settled) :
    ∃ r ∈ rows, r.key = key ∧ r.state = stateOf rows key := by
  unfold stateOf at h ⊢
  split at h
  · rename_i r hr
    exact ⟨r,Table.find_mem hr,Table.find_key hr,rfl⟩
  · simp [StepState.settled] at h

theorem resolve_settled {t : StepState} (h : resolvePendingStep states mode = some t) :
    ∀ s ∈ states, s.settled := by
  intro s hs
  by_contra hc
  have hany : states.any (fun s => !s.settled) :=
    List.any_eq_true.mpr ⟨s,hs,by simpa using hc⟩
  simp [resolvePendingStep,List.ne_nil_of_mem hs,hany] at h

theorem resolve_target {t : StepState} (h : resolvePendingStep states mode = some t) :
    t = .ready ∨ t = .skipped := by
  cases mode <;> simp only [resolvePendingStep] at h <;> split_ifs at h <;>
    obtain rfl := Option.some.inj h <;> simp

theorem resolve_ready (h : resolvePendingStep states mode = some .ready) :
    (mode = .all → ∀ s ∈ states, s = .completed) ∧
      (mode = .any → states ≠ [] → .completed ∈ states) := by
  cases mode with
  | all =>
    refine ⟨fun _ s hs => ?_,by simp⟩
    simp only [resolvePendingStep,List.ne_nil_of_mem hs,if_false] at h
    split_ifs at h with hany hall
    · simpa using List.all_eq_true.mp hall s hs
    · cases h
  | any =>
    refine ⟨by simp,fun _ hne => ?_⟩
    simp only [resolvePendingStep,hne,if_false] at h
    split_ifs at h with hany hin
    · exact hin
    · cases h

theorem skipStep_spec (keys : List String) (r : StepRow) : (skipStep keys r).spec = r.spec := by
  unfold skipStep
  split_ifs <;> rfl

theorem cancelStep_spec (r : StepRow) : (cancelStep r).spec = r.spec := by
  unfold cancelStep
  split_ifs <;> rfl

theorem skipStep_terminal {keys : List String} (h : r.state.terminal) :
    skipStep keys r = r := by
  apply if_neg
  rintro ⟨-,hs | hs⟩ <;> rw [hs] at h <;> cases h

theorem cancelStep_terminal (h : r.state.terminal) : cancelStep r = r := by
  apply if_neg
  rintro (hs | hs) <;> rw [hs] at h <;> cases h

theorem specs_put (hk : Table.Keyed StepRow.key rows) {row row' : StepRow}
    (found : row ∈ rows) (hspec : row'.spec = row.spec) :
    (Table.put StepRow.key row' rows).map StepRow.spec = rows.map StepRow.spec := by
  apply Table.map_put
  intro r hr he
  rw [Table.mem_unique hk hr found (he.trans (congrArg StepFields.key (congrArg _ hspec))),hspec]

section Moved

variable {lab : Label} {rows rows' : List StepRow}

/-- Whatever one list of rows has settled, the other one has settled alike. -/
def Follows (rows rows' : List StepRow) : Prop :=
  ∀ r ∈ rows, r.state.settled →
    ∃ r' ∈ rows', r'.spec = r.spec ∧ r'.state = r.state ∧ r'.output = r.output

variable {r r' row : StepRow}

theorem key_eq (h : r'.spec = r.spec) : r'.key = r.key :=
  congrArg (fun s : StepSpec => s.key) h

theorem Follows.stateOf (h : Follows rows rows') (hk : Table.Keyed StepRow.key rows') {key : String}
    (hs : (stateOf rows key).settled) :
    Workflow.stateOf rows' key = Workflow.stateOf rows key := by
  obtain ⟨r,hr,rfl,hstate⟩ := stateOf_settled hs
  rw [← hstate] at hs ⊢
  obtain ⟨_,hr',hspec,hsame,-⟩ := h r hr hs
  rw [← hsame,← key_eq hspec]
  exact stateOf_mem hk hr'

theorem Follows.resolution (h : Follows rows rows') (hk : Table.Keyed StepRow.key rows')
    {spec : StepSpec} {t : StepState} (ht : resolution rows spec = some t) :
    Workflow.resolution rows' spec = some t := by
  have hs := resolve_settled ht
  have he : dependencyStates rows' spec = dependencyStates rows spec := by
    apply List.map_congr_left
    intro d hd
    exact h.stateOf hk (hs _ (List.mem_map_of_mem hd))
  rw [Workflow.resolution,he]
  exact ht

theorem Move.specs (m : Move lab rows rows') (hk : Table.Keyed StepRow.key rows) :
    rows'.map StepRow.spec = rows.map StepRow.spec := by
  cases m with
  | claim found | resolve found | retry found | fail found => exact specs_put hk found rfl
  | @finish _ row output reference found =>
    have hput := specs_put hk found (show (row.done output reference).spec = row.spec from rfl)
    rw [List.map_map,← hput]
    exact List.map_congr_left fun r _ => skipStep_spec _ r
  | cancel =>
    rw [List.map_map]
    exact List.map_congr_left fun r _ => cancelStep_spec r

theorem keys_of_specs (h : rows'.map StepRow.spec = rows.map StepRow.spec) :
    rows'.map StepRow.key = rows.map StepRow.key := by
  have := congrArg (List.map fun s : StepSpec => s.key) h
  rwa [List.map_map,List.map_map] at this

theorem Move.keyed (m : Move lab rows rows') (hk : Table.Keyed StepRow.key rows) :
    Table.Keyed StepRow.key rows' := by
  rw [Table.Keyed,keys_of_specs (m.specs hk)]
  exact hk

theorem mem_put_of_ne (hk : Table.Keyed StepRow.key rows) {row' : StepRow} (found : row ∈ rows)
    (hkey : row'.key = row.key) (hr : r ∈ rows) (hne : r ≠ row) :
    r ∈ Table.put StepRow.key row' rows := by
  refine Table.mem_put.mpr (.inr ⟨hr,fun he => hne ?_⟩)
  exact Table.mem_unique hk hr found (he.trans hkey)

theorem ne_of_terminal (h : r.state.terminal) (hrow : row.state.terminal = false) :
    r ≠ row := by
  rintro rfl
  rw [h] at hrow
  cases hrow

theorem Move.terminal_kept (m : Move lab rows rows') (hk : Table.Keyed StepRow.key rows)
    (hr : r ∈ rows) (h : r.state.terminal) : r ∈ rows' := by
  cases m with
  | claim found ready =>
    exact mem_put_of_ne hk found rfl hr (ne_of_terminal h (by rw [ready]; rfl))
  | finish found running =>
    refine List.mem_map.mpr ⟨r,?_,skipStep_terminal h⟩
    exact mem_put_of_ne hk found rfl hr (ne_of_terminal h (by rw [running]; rfl))
  | resolve found pending =>
    exact mem_put_of_ne hk found rfl hr (ne_of_terminal h (by rw [pending]; rfl))
  | retry found running | fail found running =>
    exact mem_put_of_ne hk found rfl hr (ne_of_terminal h (by rw [running]; rfl))
  | cancel => exact List.mem_map.mpr ⟨r,hr,cancelStep_terminal h⟩

theorem settled_terminal {s : StepState} (h : s.settled) : s.terminal := by
  revert h
  cases s <;> decide

theorem Move.follows (m : Move lab rows rows') (hk : Table.Keyed StepRow.key rows) :
    Follows rows rows' :=
  fun r hr h => ⟨r,m.terminal_kept hk hr (settled_terminal h),rfl,rfl,rfl⟩

theorem Move.resolution_kept (m : Move lab rows rows') (hk : Table.Keyed StepRow.key rows)
    {spec : StepSpec} {t : StepState} (h : resolution rows spec = some t) :
    resolution rows' spec = some t :=
  (m.follows hk).resolution (m.keyed hk) h

inductive Change (lab : Label) (rows rows' : List StepRow) (r r' : StepRow) : Prop
  | same (h : r' = r)
  | claimed {token : ℕ} (label : lab = .take token) (before : r.state = .ready)
      (after : r'.state = .running) (out : r'.output = r.output)
      (held : r'.claimToken = some token)
  | finished {output : Json.Fields} (label : lab = .finish r output) (before : r.state = .running)
      (after : r'.state = .completed) (out : r'.output = some output)
  | skipped {c : StepRow} {o : Json.Fields} (before : r.state = .pending ∨ r.state = .ready)
      (after : r'.state = .skipped) (out : r'.output = r.output) (found : c ∈ rows')
      (completed : c.state = .completed) (told : c.output = some o)
      (excluded : r.key ∈ excludes c.spec o)
  | resolved (before : r.state = .pending) (after : resolution rows r.spec = some r'.state)
      (out : r'.output = r.output)
  | retried (before : r.state = .running) (after : r'.state = .ready)
      (out : r'.output = r.output)
  | failed (before : r.state = .running) (after : r'.state = .failed)
      (out : r'.output = r.output)
  | cancelled (before : r.state = .pending ∨ r.state = .ready) (after : r'.state = .cancelled)
      (out : r'.output = r.output)

section

variable (ch : Change lab rows rows' r r')

include ch

theorem Change.of_active (h : r'.state.active) :
    r.state.active ∨ resolution rows r.spec = some .ready := by
  cases ch with
  | same he => exact .inl (he ▸ h)
  | resolved _ after =>
    rcases resolve_target after with ht | ht
    · exact .inr (ht ▸ after)
    · rw [ht] at h
      cases h
  | claimed label before | finished label before | retried before | failed before =>
    rw [before]
    exact .inl rfl
  | skipped before after | cancelled before after =>
    rw [after] at h
    cases h

theorem Change.of_completed (h : r'.state = .completed) :
    r' = r ∨ ∃ output, lab = .finish r output ∧ r.state = .running ∧ r'.output = some output := by
  cases ch with
  | same he => exact .inl he
  | finished label before _ out => exact .inr ⟨_,label,before,out⟩
  | resolved _ after =>
    rw [h] at after
    rcases resolve_target after with ht | ht <;> cases ht
  | claimed label before after | skipped before after | retried before after
  | failed before after | cancelled before after =>
    rw [h] at after
    cases after

theorem Change.of_skipped (h : r'.state = .skipped) :
    r' = r ∨ (∃ c ∈ rows', c.state = .completed ∧ ∃ o, c.output = some o ∧
      r.key ∈ excludes c.spec o) ∨ resolution rows r.spec = some .skipped := by
  cases ch with
  | same he => exact .inl he
  | skipped _ _ _ found completed told excluded =>
    exact .inr (.inl ⟨_,found,completed,_,told,excluded⟩)
  | resolved _ after => exact .inr (.inr (h ▸ after))
  | claimed label before after | finished label before after | retried before after
  | failed before after | cancelled before after =>
    rw [h] at after
    cases after

theorem Change.of_running (h : r'.state = .running) :
    r' = r ∨ ∃ token, lab = .take token ∧ r'.claimToken = some token := by
  cases ch with
  | same he => exact .inl he
  | claimed label _ _ _ held => exact .inr ⟨_,label,held⟩
  | resolved _ after =>
    rw [h] at after
    rcases resolve_target after with ht | ht <;> cases ht
  | finished label before after | skipped before after | retried before after
  | failed before after | cancelled before after =>
    rw [h] at after
    cases after

end

theorem put_origin (hr : r ∈ Table.put StepRow.key row rows) : r = row ∨ r ∈ rows := by
  rcases Table.mem_put.mp hr with ⟨-,rfl⟩ | ⟨hr,-⟩
  · exact .inl rfl
  · exact .inr hr

theorem Move.origin (m : Move lab rows rows') (hr : r' ∈ rows') :
    ∃ r ∈ rows, r'.spec = r.spec ∧ Change lab rows rows' r r' := by
  cases m with
  | claim found ready =>
    rcases put_origin hr with rfl | hr
    · exact ⟨_,found,rfl,.claimed rfl ready rfl rfl rfl⟩
    · exact ⟨r',hr,rfl,.same rfl⟩
  | @finish _ row output reference found running =>
    have hdone : row.done output reference ∈
        (Table.put StepRow.key (row.done output reference) rows).map
          (skipStep (excludes row.spec output)) :=
      List.mem_map.mpr ⟨_,Table.mem_put.mpr (.inl ⟨⟨row,found,rfl⟩,rfl⟩),skipStep_terminal rfl⟩
    obtain ⟨p,hp,rfl⟩ := List.mem_map.mp hr
    rcases put_origin hp with rfl | hp
    · rw [skipStep_terminal (show (row.done output reference).state.terminal from rfl)]
      exact ⟨row,found,rfl,.finished rfl running rfl rfl⟩
    · refine ⟨p,hp,skipStep_spec _ p,?_⟩
      by_cases hc : p.key ∈ excludes row.spec output ∧ (p.state = .pending ∨ p.state = .ready)
      · exact .skipped hc.2 (by rw [skipStep,if_pos hc]) (by rw [skipStep,if_pos hc]) hdone rfl rfl
          hc.1
      · exact .same (if_neg hc)
  | resolve found pending resolved =>
    rcases put_origin hr with rfl | hr
    · exact ⟨_,found,rfl,.resolved pending resolved rfl⟩
    · exact ⟨r',hr,rfl,.same rfl⟩
  | retry found running =>
    rcases put_origin hr with rfl | hr
    · exact ⟨_,found,rfl,.retried running rfl rfl⟩
    · exact ⟨r',hr,rfl,.same rfl⟩
  | fail found running =>
    rcases put_origin hr with rfl | hr
    · exact ⟨_,found,rfl,.failed running rfl rfl⟩
    · exact ⟨r',hr,rfl,.same rfl⟩
  | cancel =>
    obtain ⟨p,hp,rfl⟩ := List.mem_map.mp hr
    refine ⟨p,hp,cancelStep_spec p,?_⟩
    by_cases hc : p.state = .pending ∨ p.state = .ready
    · exact .cancelled hc (by rw [cancelStep,if_pos hc]) (by rw [cancelStep,if_pos hc])
    · exact .same (if_neg hc)

theorem Move.excluded {output : Json.Fields} (m : Move (.finish row output) rows rows')
    (hr : r ∈ rows') (hx : r.key ∈ excludes row.spec output) :
    r.state ≠ .pending ∧ r.state ≠ .ready := by
  cases m with
  | finish =>
    obtain ⟨p,-,rfl⟩ := List.mem_map.mp hr
    rw [StepRow.key,skipStep_spec] at hx
    by_cases hc : p.state = .pending ∨ p.state = .ready
    · rw [skipStep,if_pos ⟨hx,hc⟩]
      simp
    · have he : skipStep (excludes row.spec output) p = p := if_neg fun h => hc h.2
      rw [he]
      exact not_or.mp hc

def Moves (P : Label → Prop) : List StepRow → List StepRow → Prop :=
  Relation.ReflTransGen fun a b => ∃ lab, P lab ∧ Move lab a b

end Moved

end NexusAi.Workflow
