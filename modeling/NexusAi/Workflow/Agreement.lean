import NexusAi.Workflow.Progress

/-!
# Agreement with a run that has ended

If all that the path of a condition reads is settled, what the condition finds can no
longer change, and the same holds in any other run that settles it alike. So a run that has
agreed so far with one that came to its end keeps agreeing with every move.
-/

namespace NexusAi.Workflow

def outputAt (rows : List StepRow) (key : String) : Option Json.Fields :=
  (Table.find StepRow.key key rows).bind StepRow.output

def visible (keys : List String) (f : String → Option Json.Fields) : Json.Fields :=
  keys.filterMap fun k => (f k).map fun o => (k,Json.obj o)

/-- The step cannot complete as long as the condition is open: it waits for
the condition itself or for a step of which the same is true. -/
def awaits (steps : List StepSpec) (condition : String) : ℕ → String → Bool
  | 0, key => key == condition
  | n+1, key => key == condition ||
    match specOf steps key with
    | none => false
    | some s => condition ∈ s.dependsOn ||
      match s.dependencyMode with
      | .all => s.dependsOn.any (awaits steps condition n)
      | .any => s.dependsOn.all (awaits steps condition n)

def Graph.awaiting (g : Graph) (condition key : String) : Bool :=
  awaits g.steps condition g.steps.length key

/-- The outputs that a condition may find, whenever it is executed. -/
def seen (g : Graph) (condition : String) (rows : List StepRow) (key : String) :
    Option Json.Fields :=
  if g.awaiting condition key then none else outputAt rows key

section Visible

variable {rows : List StepRow}

theorem outputAt_mem (hk : Table.Keyed StepRow.key rows) {r : StepRow} (hr : r ∈ rows) :
    outputAt rows r.key = r.output := by
  rw [outputAt,Table.find_of_mem hk hr]
  rfl

theorem lookup_visible (keys : List String) (f : String → Option Json.Fields) (k : String) :
    (visible keys f).lookup k = if k ∈ keys then (f k).map .obj else none := by
  induction keys with
  | nil => simp [visible]
  | cons key _ ih =>
    unfold visible at ih ⊢
    rw [List.filterMap_cons]
    by_cases hkey : k = key
    · subst hkey
      cases hf : f k with
      | none => simp [hf,ih]
      | some => simp
    · have hb : (k == key) = false := by simpa using hkey
      cases hf : f key with
      | none => simp [hkey,ih]
      | some => simp [List.lookup_cons,hkey,hb,ih]

theorem visible_congr {keys : List String} {f f' : String → Option Json.Fields}
    (h : ∀ k ∈ keys, f k = f' k) : visible keys f = visible keys f' :=
  List.filterMap_congr fun k hk => by rw [h k hk]

theorem evaluate_visible (c : ConditionConfig) (input : Json.Fields) {keys : List String}
    {f f' : String → Option Json.Fields}
    (h : ∀ k ∈ keys, reads c.path k → f k = f' k) :
    evaluateCondition c input (visible keys f) = evaluateCondition c input (visible keys f') := by
  apply evaluate_congr
  · exact fun hall => visible_congr fun k hk => h k hk (hall k)
  · intro k hread
    rw [lookup_visible,lookup_visible]
    split_ifs with hk
    · rw [h k hk hread]
    · rfl

theorem outputs_visible (hk : Table.Keyed StepRow.key rows) :
    outputs (listSteps rows) = visible (Kahn.sorted (rows.map StepRow.key)) (outputAt rows) := by
  have hkeys : (listSteps rows).map StepRow.key = Kahn.sorted (rows.map StepRow.key) :=
    List.map_insertionSort _ _ _ _ fun _ _ _ _ => Iff.rfl
  rw [← hkeys,visible,List.filterMap_map]
  apply List.filterMap_congr
  intro r hr
  rw [listSteps,List.mem_insertionSort] at hr
  simp only [Function.comp,outputAt_mem hk hr]

end Visible

section Told

variable {g : Graph} {rows rows' : List StepRow}

theorem Sound.keys (h : Sound g rows) : rows.map StepRow.key = g.order := by
  rw [← g.published_keys,← h.specs,List.map_map]
  rfl

theorem Sound.output_none (h : Sound g rows) {r : StepRow} (hr : r ∈ rows)
    (hs : r.state ≠ .completed) : r.output = none := by
  rw [← Option.not_isSome_iff_eq_none,h.told r hr]
  exact hs

theorem awaits_settled (h : Sound g rows) {condition key : String} {n : ℕ}
    (ha : awaits g.steps condition n key) (hs : stateOf rows key = .completed) :
    (stateOf rows condition).settled := by
  have hself : (stateOf rows key).settled := by rw [hs]; rfl
  induction n generalizing key with
  | zero =>
    rw [awaits,beq_iff_eq] at ha
    exact ha ▸ hself
  | succ _ ih =>
    rw [awaits,Bool.or_eq_true,beq_iff_eq] at ha
    rcases ha with rfl | ha
    · exact hself
    · obtain ⟨r,hr,rfl,hstate⟩ := stateOf_settled hself
      have hspec : specOf g.steps r.key = some r.spec :=
        Table.find_of_mem g.keyed (h.mem_steps hr)
      rw [hspec] at ha
      have hready := h.enabled r hr (by rw [hstate,hs]; rfl)
      obtain ⟨-,hall,hany⟩ := enabled_dependencies hready
      simp only [Bool.or_eq_true,decide_eq_true_eq] at ha
      rcases ha with hd | ha
      · exact settled_of_resolution hready hd
      · cases hmode : r.spec.dependencyMode with
        | all =>
          simp only [hmode,List.any_eq_true] at ha
          obtain ⟨d,hd,ha⟩ := ha
          have hdone := hall hmode d hd
          exact ih ha hdone (by rw [hdone]; rfl)
        | any =>
          simp only [hmode,List.all_eq_true] at ha
          obtain ⟨d,hd,hdone⟩ := hany hmode
          exact ih (ha d hd) hdone (by rw [hdone]; rfl)

theorem seen_open (h : Sound g rows) {condition : String}
    (hopen : (stateOf rows condition).settled = false) (key : String) :
    seen g condition rows key = outputAt rows key := by
  unfold seen
  split_ifs with ha
  · cases hf : Table.find StepRow.key key rows with
    | none => rw [outputAt,hf]; rfl
    | some r =>
      have hr := Table.find_mem hf
      obtain rfl := Table.find_key hf
      have hne : r.state ≠ .completed := by
        intro hs
        rw [awaits_settled h ha (by rw [stateOf_mem h.keyed hr,hs])] at hopen
        cases hopen
      rw [outputAt_mem h.keyed hr,h.output_none hr hne]
  · rfl

/-- The output of a step is the one that the step will always have: the
assigned answer, or for a condition its verdict on settled steps. -/
structure Told (g : Graph) (input : Json.Fields) (answers : String → Answer)
    (rows : List StepRow) (spec : StepSpec) (output : Json.Fields) : Prop where
  settled : ∀ c, spec.config = .condition c → ∀ r ∈ rows, reads c.path r.key →
    r.state.settled ∨ g.awaiting spec.key r.key
  verdict : ∀ c, spec.config = .condition c → output = conditionOutput c.toConditionFields
    (evaluateCondition c input (visible (Kahn.sorted g.order) (seen g spec.key rows)))
  answered : (∀ c, spec.config ≠ .condition c) →
    (respond spec.config (answers spec.key)).map Prod.fst = some output

variable {input : Json.Fields} {answers : String → Answer} {spec : StepSpec}
  {output output' : Json.Fields}

theorem Told.unique (h : Told g input answers rows spec output)
    (h' : Told g input answers rows spec output') : output = output' := by
  by_cases hc : ∃ c, spec.config = .condition c
  · obtain ⟨c,hc⟩ := hc
    rw [h.verdict c hc,h'.verdict c hc]
  · have hn : ∀ c, spec.config ≠ .condition c := fun c h => hc ⟨c,h⟩
    exact Option.some.inj ((h.answered hn).symm.trans (h'.answered hn))

theorem Told.follows (h : Told g input answers rows spec output) (hs : Sound g rows)
    (hs' : Sound g rows') (hf : Follows rows rows') : Told g input answers rows' spec output where
  settled c hc r' hr' hread := by
    obtain ⟨r,hr,hkey⟩ := hs.row_of_key (List.mem_map_of_mem (hs'.mem_steps hr'))
    change r.key = r'.key at hkey
    rw [← hkey] at hread ⊢
    refine (h.settled c hc r hr hread).imp_left fun hset => ?_
    obtain ⟨p,hp,hspec,hstate,-⟩ := hf r hr hset
    rw [Table.mem_unique hs'.keyed hr' hp (hkey.symm.trans (key_eq hspec).symm),hstate]
    exact hset
  verdict c hc := by
    rw [h.verdict c hc]
    congr 1
    apply evaluate_visible
    intro key hkey hread
    unfold seen
    split_ifs with ha
    · rfl
    · rw [Kahn.sorted,List.mem_insertionSort,← hs.keys] at hkey
      obtain ⟨r,hr,rfl⟩ := List.mem_map.mp hkey
      obtain ⟨p,hp,hspec,-,hout⟩ := hf r hr ((h.settled c hc r hr hread).resolve_right ha)
      rw [outputAt_mem hs.keyed hr,← key_eq hspec,outputAt_mem hs'.keyed hp,hout]
  answered := h.answered

end Told

section Rows

variable {lab : Label} {rows rows' : List StepRow}
  {g : Graph} {input : Json.Fields} {answers : String → Answer}

def Recorded (g : Graph) (input : Json.Fields) (answers : String → Answer)
    (rows : List StepRow) : Prop :=
  ∀ r ∈ rows, ∀ o, r.output = some o → Told g input answers rows r.spec o

def Label.Founded (g : Graph) (input : Json.Fields) (answers : String → Answer)
    (rows : List StepRow) : Label → Prop
  | .finish row output => Told g input answers rows row.spec output
  | _ => True

theorem Label.Founded.follows (h : lab.Founded g input answers rows) (hs : Sound g rows)
    (hs' : Sound g rows') (hf : Follows rows rows') : lab.Founded g input answers rows' := by
  cases lab with
  | take | quiet => trivial
  | finish => exact Told.follows h hs hs' hf

theorem recorded_move (hs : Sound g rows) (hs' : Sound g rows') (m : Move lab rows rows')
    (hl : lab.Founded g input answers rows) (hr : Recorded g input answers rows) :
    Recorded g input answers rows' := by
  intro r' hr' o ho
  have hdone := (hs'.told r' hr').mp (by rw [ho]; rfl)
  obtain ⟨r,hm,hspec,ch⟩ := m.origin hr'
  apply Told.follows _ hs hs' (m.follows hs.keyed)
  rcases ch.of_completed hdone with rfl | ⟨_,rfl,-,hout⟩
  · exact hr r' hm o ho
  · obtain rfl := Option.some.inj (hout.symm.trans ho)
    rw [hspec]
    exact hl

theorem Sound.row_of_spec (hs : Sound g rows) (hs' : Sound g rows') {r : StepRow} (hr : r ∈ rows) :
    ∃ r' ∈ rows', r'.spec = r.spec := by
  have hm : r.spec ∈ rows'.map StepRow.spec := by
    rw [hs'.specs,← hs.specs]
    exact List.mem_map_of_mem hr
  exact List.mem_map.mp hm

end Rows

structure Ended (g : Graph) (input : Json.Fields) (answers : String → Answer)
    (ends : List StepRow) : Prop where
  sound : Sound g ends
  settled : ∀ r ∈ ends, r.state.settled
  recorded : Recorded g input answers ends

section Agreement

variable {g : Graph} {input : Json.Fields} {answers : String → Answer}
  {lab : Label} {rows rows' ends : List StepRow}

theorem Ended.skipped_of_ne (he : Ended g input answers ends) {p : StepRow} (hp : p ∈ ends)
    (hne : p.state ≠ .completed) : p.state = .skipped := by
  have hset := he.settled p hp
  simp only [StepState.settled,decide_eq_true_eq] at hset
  exact hset.resolve_left hne

theorem completed_of_active (hs : Sound g rows) (he : Ended g input answers ends)
    (hf : Follows rows ends) {r p : StepRow} (hr : r ∈ rows) (hp : p ∈ ends)
    (hspec : p.spec = r.spec) (hact : r.state.active) : p.state = .completed := by
  have hready := hs.enabled r hr hact
  by_contra hne
  rcases he.sound.skipped p hp (he.skipped_of_ne hp hne) with hres | ⟨_,hc',hdone,o,ho,hx⟩
  · rw [hspec,hf.resolution he.sound.keyed hready] at hres
    cases hres
  · have hd := he.sound.excluded_depends hc' hp hx
    rw [hspec] at hd
    have hset := settled_of_resolution hready hd
    obtain ⟨c,hc,hkey,hstate⟩ := stateOf_settled hset
    rw [← hstate] at hset
    obtain ⟨q,hq,hqspec,hqstate,hqout⟩ := hf c hc hset
    obtain rfl := Table.mem_unique he.sound.keyed hq hc' ((key_eq hqspec).trans hkey)
    rw [hqspec,key_eq hspec] at hx
    rcases hs.excluded r hr ⟨c,hc,hqstate ▸ hdone,o,hqout ▸ ho,hx⟩ with h | h <;>
      rw [h] at hact <;> cases hact

section

variable (hs : Sound g rows) (m : Move lab rows rows') (hl : lab.Founded g input answers rows)
  (he : Ended g input answers ends) (hf : Follows rows ends)

include hs m hl he hf

theorem completed_follows {r' : StepRow} (hr' : r' ∈ rows') (hdone : r'.state = .completed) :
    ∃ p ∈ ends, p.spec = r'.spec ∧ p.state = r'.state ∧ p.output = r'.output := by
  obtain ⟨r,hr,hspec,ch⟩ := m.origin hr'
  rcases ch.of_completed hdone with rfl | ⟨_,rfl,running,hout⟩
  · exact hf r' hr (by rw [hdone]; rfl)
  · obtain ⟨p,hp,hpspec⟩ := hs.row_of_spec he.sound hr
    have hpdone := completed_of_active hs he hf hr hp hpspec (by rw [running]; rfl)
    obtain ⟨o,ho⟩ := Option.isSome_iff_exists.mp ((he.sound.told p hp).mpr hpdone)
    have htold := he.recorded p hp o ho
    rw [hpspec] at htold
    refine ⟨p,hp,hpspec.trans hspec.symm,hpdone.trans hdone.symm,?_⟩
    rw [ho,hout,htold.unique (Told.follows hl hs he.sound hf)]

theorem skipped_follows {r' p : StepRow} (hr' : r' ∈ rows') (hskip : r'.state = .skipped)
    (hp : p ∈ ends) (hpspec : p.spec = r'.spec) : p.state = .skipped := by
  obtain ⟨r,hr,hspec,ch⟩ := m.origin hr'
  rcases ch.of_skipped hskip with rfl | ⟨c,hc,hcdone,o,ho,hx⟩ | hres
  · obtain ⟨q,hq,hqspec,hqstate,-⟩ := hf r' hr (by rw [hskip]; rfl)
    rw [Table.mem_unique he.sound.keyed hp hq (key_eq (hpspec.trans hqspec.symm)),hqstate,hskip]
  · obtain ⟨q,hq,hqspec,hqstate,hqout⟩ := completed_follows hs m hl he hf hc hcdone
    rw [← hqspec,← key_eq hspec,← key_eq hpspec] at hx
    have hex := he.sound.excluded p hp ⟨q,hq,hqstate.trans hcdone,o,hqout.trans ho,hx⟩
    refine he.skipped_of_ne hp ?_
    rcases hex with h | h <;> simp [h]
  · refine he.skipped_of_ne hp fun hdone => ?_
    have hready := he.sound.enabled p hp (by rw [hdone]; rfl)
    rw [hpspec,hspec,hf.resolution he.sound.keyed hres] at hready
    cases hready

end

theorem follows_move (hs : Sound g rows) (hs' : Sound g rows') (m : Move lab rows rows')
    (hl : lab.Founded g input answers rows) (he : Ended g input answers ends)
    (hf : Follows rows ends) : Follows rows' ends := by
  intro r' hr' hset
  simp only [StepState.settled,decide_eq_true_eq] at hset
  rcases hset with hdone | hskip
  · exact completed_follows hs m hl he hf hr' hdone
  · obtain ⟨p,hp,hpspec⟩ := hs'.row_of_spec he.sound hr'
    have hps := skipped_follows hs m hl he hf hr' hskip hp hpspec
    refine ⟨p,hp,hpspec,hps.trans hskip.symm,?_⟩
    rw [he.sound.output_none hp (by simp [hps]),hs'.output_none hr' (by simp [hskip])]

end Agreement

end NexusAi.Workflow
