import NexusAi.Workflow.Respect

/-!
# Claims hold steps

A step is taken up again only as long as it has attempts left, and the history
holds one entry for each completed step. A running step carries the token of the
claim that was issued last for it, so only the holder of that claim finishes or
fails it. A run that has ended accepts nothing, and a call that is refused changes
nothing.
-/

namespace NexusAi.Workflow
open NexusAi.Checked

def HistoryRow.completes (h : HistoryRow) (key : String) : Bool :=
  match h.transition with
  | .step k _ .completed => k = key
  | _ => false

def completions (history : List HistoryRow) (key : String) : ℕ :=
  history.countP fun h => h.completes key

def StepRow.Budgeted (r : StepRow) : Prop :=
  r.attemptCount ≤ r.maxAttempts ∧
    (r.state = .pending ∨ r.state = .ready → r.attemptCount < r.maxAttempts)

structure Db.Tallied (db : Db) : Prop where
  keyed : Table.Keyed StepRow.key db.steps
  budgeted : ∀ r ∈ db.steps, r.Budgeted
  tally : ∀ key, completions db.history key = if stateOf db.steps key = .completed then 1 else 0

section Rows

variable {rows : List StepRow}

theorem stateOf_put (hk : Table.Keyed StepRow.key rows) {row row' : StepRow} (found : row ∈ rows)
    (hkey : row'.key = row.key) (key : String) :
    stateOf (Table.put StepRow.key row' rows) key =
      if row.key = key then row'.state else stateOf rows key := by
  rw [stateOf,Table.find_put,hkey]
  by_cases h : row.key = key
  · subst h
    rw [if_pos rfl,if_pos rfl,Table.find_of_mem hk found]
    rfl
  · rw [if_neg h,if_neg h]
    rfl

theorem stateOf_map (f : StepRow → StepRow) (hkey : ∀ r, (f r).key = r.key) (key : String) :
    stateOf (rows.map f) key =
      match Table.find StepRow.key key rows with
      | some r => (f r).state
      | none => .pending := by
  have hfind : Table.find StepRow.key key (rows.map f) = (Table.find StepRow.key key rows).map f := by
    rw [Table.find,List.find?_map]
    congr 2
    funext r
    simp [hkey]
  rw [stateOf,hfind]
  cases Table.find StepRow.key key rows <;> rfl

theorem completed_map {f : StepRow → StepRow} (hkey : ∀ r, (f r).key = r.key)
    (hf : ∀ r, (f r).state = .completed ↔ r.state = .completed) (key : String) :
    stateOf (rows.map f) key = .completed ↔ stateOf rows key = .completed := by
  rw [stateOf_map f hkey,stateOf]
  cases h : Table.find StepRow.key key rows with
  | none => simp
  | some => simp [hf]

end Rows

theorem completions_append (hs hs' : List HistoryRow) (key : String) :
    completions (hs++hs') key = completions hs key+completions hs' key :=
  List.countP_append

theorem completions_quiet {hs : List HistoryRow} (h : ∀ x ∈ hs, ∀ key, x.completes key = false)
    (key : String) : completions hs key = 0 := by
  rw [completions,List.countP_eq_zero]
  intro x hx
  simp [h x hx key]

section Steps

variable {db db' : Db}

theorem Db.Tallied.moveStep (h : db.Tallied) {row row' : StepRow} (found : row ∈ db.steps)
    (hkey : row'.key = row.key) (hopen : row.state ≠ .completed) (hb : row'.Budgeted)
    (previous : StepState) (reason : String) (source : Source) :
    (db.moveStep row' previous reason source).Tallied where
  keyed := Table.keyed_put h.keyed
  budgeted r hr := by
    rcases put_origin hr with rfl | hr
    · exact hb
    · exact h.budgeted r hr
  tally key := by
    change completions (db.history++[_]) key = if stateOf (Table.put _ _ _) key = _ then _ else _
    rw [completions_append,h.tally,stateOf_put h.keyed found hkey,hkey]
    by_cases hk : row.key = key
    · have hold : stateOf db.steps key ≠ .completed := by
        rw [← hk,stateOf_mem h.keyed found]
        exact hopen
      rw [if_neg hold,if_pos hk]
      cases row'.state <;> simp [completions,HistoryRow.completes,hk]
    · rw [if_neg hk]
      cases row'.state <;> simp [completions,HistoryRow.completes,hk]

/-- Steps that wait may be set aside. -/
def Aside (s : StepState) (f : StepRow → StepRow) : Prop :=
  ∀ r, f r = r ∨ (r.state = .pending ∨ r.state = .ready) ∧ f r = { r with state := s }

theorem Aside.key {f : StepRow → StepRow} {s : StepState} (hf : Aside s f) (r : StepRow) :
    (f r).key = r.key := by
  rcases hf r with he | ⟨-,he⟩ <;> rw [he]
  rfl

theorem Db.Tallied.sweepAside (h : db.Tallied) {f : StepRow → StepRow} {s : StepState}
    {entries : List HistoryRow} (hf : Aside s f) (hs : s = .skipped ∨ s = .cancelled)
    (hquiet : ∀ x ∈ entries, ∀ key, x.completes key = false) :
    ({ db with steps := db.steps.map f, history := db.history++entries } : Db).Tallied where
  keyed := Table.keyed_map h.keyed hf.key
  budgeted r hr := by
    obtain ⟨p,hp,rfl⟩ := List.mem_map.mp hr
    obtain ⟨hle,hlt⟩ := h.budgeted p hp
    rcases hf p with he | ⟨-,he⟩ <;> rw [he]
    · exact ⟨hle,hlt⟩
    · exact ⟨hle,by rcases hs with rfl | rfl <;> simp⟩
  tally key := by
    have hdone (r : StepRow) : (f r).state = .completed ↔ r.state = .completed := by
      rcases hf r with he | ⟨hr,he⟩ <;> rw [he]
      rcases hr with hr | hr <;> rcases hs with rfl | rfl <;> simp [hr]
    rw [completions_append,completions_quiet hquiet,h.tally]
    simp only [completed_map hf.key hdone,Nat.add_zero]

theorem skipStep_aside (keys : List String) : Aside .skipped (skipStep keys) := by
  intro r
  unfold skipStep
  split_ifs with h
  · exact .inr ⟨h.2,rfl⟩
  · exact .inl rfl

theorem cancelStep_aside : Aside .cancelled cancelStep := by
  intro r
  unfold cancelStep
  split_ifs with h
  · exact .inr ⟨h,rfl⟩
  · exact .inl rfl

section

variable (h : db.Tallied)

include h

theorem Db.Tallied.skipSteps (keys : List String) : (Workflow.skipSteps db keys).Tallied := by
  refine h.sweepAside (skipStep_aside keys) (.inl rfl) fun x hx key => ?_
  obtain ⟨r,-,rfl⟩ := List.mem_map.mp hx
  rfl

theorem Db.Tallied.cancelSteps : (Workflow.cancelSteps db).Tallied := by
  refine h.sweepAside cancelStep_aside (.inr rfl) fun x hx key => ?_
  obtain ⟨r,-,rfl⟩ := List.mem_map.mp hx
  rfl

theorem Db.Tallied.enterState (target : RunState) (reason : String) :
    (db.enterState target reason).Tallied where
  keyed := h.keyed
  budgeted := h.budgeted
  tally key := by
    change completions (db.history++[_]) key = _
    rw [completions_append,h.tally]
    simp [completions,HistoryRow.completes,Db.enterState,Db.addTransition]

theorem Db.Tallied.withOutput (o : Option Json.Fields) :
    ({ db with run := { db.run with output := o } } : Db).Tallied :=
  ⟨h.keyed,h.budgeted,h.tally⟩

theorem Db.Tallied.resolveStep {key : String} (hr : Workflow.resolveStep db key = some db') :
    db'.Tallied := by
  simp only [Workflow.resolveStep,Option.bind_eq_bind,Option.bind_eq_some_iff,
    Option.filter_eq_some_iff,decide_eq_true_eq,Option.pure_def,Option.some.injEq] at hr
  obtain ⟨row,⟨hfind,hpending⟩,_,_,rfl⟩ := hr
  have found := Table.find_mem hfind
  obtain ⟨hle,hlt⟩ := h.budgeted row found
  apply h.moveStep found
  · rfl
  · simp [hpending]
  · exact ⟨hle,fun _ => hlt (.inl hpending)⟩

theorem Db.Tallied.sweeps : (Workflow.sweeps db).Tallied :=
  Sweep.saturate_related (R := fun a b : Db => a.Tallied → b.Tallied) (fun _ h => h)
    (fun _ _ _ h h' x => h' (h x)) (fun _ _ _ hr h => h.resolveStep hr) _ _ db h

theorem Db.Tallied.advance (ha : Workflow.advance db = .ok db') : db'.Tallied := by
  rcases advance_cases ha with ⟨-,rfl⟩ | ⟨-,⟨-,rfl⟩ | ⟨-,rfl⟩⟩
  · exact h
  · exact (h.sweeps.withOutput _).enterState _ _
  · exact h.sweeps

theorem Db.Tallied.fenced {c : StepClaim} {row : StepRow} (hrow : fencedRow db c = some row) :
    row ∈ db.steps ∧ row.state ≠ .completed ∧ row.attemptCount ≤ row.maxAttempts := by
  obtain ⟨-,found,-,running,-⟩ := fencedRow_some hrow
  exact ⟨found,by rw [running]; simp,(h.budgeted row found).1⟩

theorem Db.Tallied.finish {e : Execution} (hf : Workflow.finish db e = .ok db') : db'.Tallied := by
  unfold Workflow.finish at hf
  split at hf
  · simp only [finishStep,bind_ok,present_ok] at hf
    obtain ⟨_,hrow,hf⟩ := hf
    obtain ⟨found,hopen,hle⟩ := h.fenced hrow
    refine Db.Tallied.advance ?_ hf
    apply h.moveStep found _ hopen
    · exact ⟨hle,by simp⟩
    · rfl
  · simp only [finishCondition,bind_ok,present_ok] at hf
    obtain ⟨_,hrow,hf⟩ := hf
    obtain ⟨found,hopen,hle⟩ := h.fenced hrow
    refine Db.Tallied.advance (Db.Tallied.skipSteps ?_ _) hf
    apply h.moveStep found _ hopen
    · exact ⟨hle,by simp⟩
    · rfl

theorem Db.Tallied.failStep {c : StepClaim} {code : String} {retryable : Bool}
    (hf : Workflow.failStep db c code retryable = .ok db') : db'.Tallied := by
  simp only [Workflow.failStep,bind_ok,present_ok] at hf
  obtain ⟨_,hrow,hf⟩ := hf
  obtain ⟨found,hopen,hle⟩ := h.fenced hrow
  split_ifs at hf with hretry
  · rw [pure_ok] at hf
    subst hf
    apply h.moveStep found _ hopen
    · exact ⟨hle,fun _ => hretry.2⟩
    · rfl
  · obtain ⟨-,rfl⟩ := transitionRun_ok hf
    refine Db.Tallied.enterState ?_ _ _
    apply h.moveStep found _ hopen
    · exact ⟨hle,by simp⟩
    · rfl

theorem Db.Tallied.claim (ownerId : ℕ) (locked : String → Bool) :
    (Workflow.claim db ownerId locked).1.Tallied := by
  rcases claim_cases db ownerId locked with he | ⟨row,found,ready,-,he⟩
  · rw [he]
    exact h
  · rw [he]
    have hfresh : ({ db with fresh := db.fresh+1 } : Db).Tallied := ⟨h.keyed,h.budgeted,h.tally⟩
    have hlt := (h.budgeted row found).2 (.inr ready)
    apply hfresh.moveStep found
    · rfl
    · simp [ready]
    · exact ⟨hlt,by simp⟩

theorem Db.Tallied.pauseRun (hp : Workflow.pauseRun db = .ok db') : db'.Tallied := by
  obtain ⟨-,rfl⟩ := transitionRun_ok hp
  exact h.enterState _ _

theorem Db.Tallied.resumeRun (hr : Workflow.resumeRun db = .ok db') : db'.Tallied := by
  simp only [Workflow.resumeRun,bind_ok] at hr
  obtain ⟨_,h1,h2⟩ := hr
  obtain ⟨-,rfl⟩ := transitionRun_ok h1
  exact (h.enterState _ _).advance h2

theorem Db.Tallied.cancelRun (hc : Workflow.cancelRun db = .ok db') : db'.Tallied := by
  simp only [Workflow.cancelRun,bind_ok,pure_ok] at hc
  obtain ⟨_,h1,rfl⟩ := hc
  obtain ⟨-,rfl⟩ := transitionRun_ok h1
  exact (h.enterState _ _).cancelSteps

end

end Steps

def latestClaim (claims : List StepClaim) (key : String) : Option StepClaim :=
  (claims.filter fun c => c.spec.key = key).getLast?

def RunState.terminal (s : RunState) : Bool := s ∈ [RunState.completed,.failed,.cancelled]

def Label.Untaken : Label → Prop
  | .take _ => False
  | _ => True

structure World.Held (w : World) : Prop where
  tallied : w.db.Tallied
  tokens : Table.Keyed StepClaim.claimToken w.claims
  holders : ∀ r ∈ w.db.steps, r.state = .running →
    ∃ c, latestClaim w.claims r.key = some c ∧ r.claimToken = some c.claimToken

theorem latestClaim_mem {claims : List StepClaim} {key : String} {c : StepClaim}
    (h : latestClaim claims key = some c) : c ∈ claims :=
  (List.mem_filter.mp (List.mem_of_getLast? h)).1

theorem latestClaim_append (claims : List StepClaim) (c : StepClaim) (key : String) :
    latestClaim (claims++[c]) key =
      if c.spec.key = key then some c else latestClaim claims key := by
  unfold latestClaim
  by_cases h : c.spec.key = key <;> simp [List.filter_append,h]

section Chains

variable {rows rows' : List StepRow} {P : Label → Prop}

theorem Moves.running_kept (ms : Moves Label.Untaken rows rows') {r' : StepRow} (hr : r' ∈ rows')
    (h : r'.state = .running) : r' ∈ rows := by
  induction ms generalizing r' with
  | refl => exact hr
  | tail _ hm ih =>
    obtain ⟨_,hlab,m⟩ := hm
    obtain ⟨r,hr,-,ch⟩ := m.origin hr
    rcases ch.of_running h with rfl | ⟨_,rfl,-⟩
    · exact ih hr h
    · exact hlab.elim

theorem Moves.completed_origin (ms : Moves P rows rows') {r' : StepRow} (hr : r' ∈ rows')
    (h : r'.state = .completed) :
    r' ∈ rows ∨ ∃ row output, P (.finish row output) ∧ row.key = r'.key := by
  induction ms generalizing r' with
  | refl => exact .inl hr
  | tail _ hm ih =>
    obtain ⟨_,hlab,m⟩ := hm
    obtain ⟨r,hr,hspec,ch⟩ := m.origin hr
    rcases ch.of_completed h with rfl | ⟨output,rfl,-,-⟩
    · exact ih hr h
    · exact .inr ⟨r,output,hlab,(key_eq hspec).symm⟩

end Chains

section

variable {g : Graph} {input : Json.Fields} {w : World}

theorem step_untaken (hw : w.Sound g input) {a : Action}
    (ha : ∀ ownerId locked, a ≠ .claim ownerId locked) :
    Effect Label.Untaken w.db (step w a).db := by
  revert ha
  refine step_db (P := fun a db => (∀ ownerId locked, a ≠ .claim ownerId locked) →
    Effect Label.Untaken w.db db) (fun _ _ => .refl _) (fun _ _ ha => absurd rfl (ha _ _))
    (fun j e db' he h _ => ?_) (fun _ _ _ _ _ _ _ h _ => failStep_effect trivial h)
    (fun _ h _ => pauseRun_effect h) (fun _ h _ => resumeRun_effect trivial h)
    (fun _ h _ => cancelRun_effect trivial h) a
  obtain ⟨hc,hf⟩ := hw.executions e (List.mem_of_getElem? he)
  exact finish_effect h (fun r hr => hw.fenced_spec hc hr) hf.1 trivial fun _ _ => trivial

theorem step_tallied (h : w.db.Tallied) (a : Action) : (step w a).db.Tallied :=
  step_db (P := fun _ db => db.Tallied) (fun _ => h) h.claim (fun _ _ _ _ hf => h.finish hf)
    (fun _ _ _ _ _ _ _ hf => h.failStep hf) (fun _ hp => h.pauseRun hp)
    (fun _ hr => h.resumeRun hr) (fun _ hc => h.cancelRun hc) a

theorem step_claims (w : World) {a : Action} (ha : ∀ ownerId locked, a ≠ .claim ownerId locked) :
    (step w a).claims = w.claims := by
  cases a with
  | claim ownerId locked => exact absurd rfl (ha ownerId locked)
  | execute =>
    simp only [step]
    split <;> rfl
  | finish j | fail i code retryable =>
    simp only [step]
    split
    · rfl
    · exact (settleWith_held _ w).1
  | pause | resume | cancel => exact (settleWith_held _ w).1

theorem held_claim (hw : w.Sound g input) (h : w.Held) (ownerId : ℕ) (locked : String → Bool) :
    (step w (.claim ownerId locked)).Held := by
  have htallied := step_tallied h.tallied (.claim ownerId locked)
  rcases claim_cases w.db ownerId locked with hnone | ⟨row,_,-,-,hsome⟩
  · have he : step w (.claim ownerId locked) = w := by simp [step,hnone]
    rw [he]
    exact h
  · have hclaims : (step w (.claim ownerId locked)).claims =
        w.claims++[⟨row.spec,w.db.run.input,ownerId,w.db.fresh⟩] := by
      simp [step,hsome]
    have hsteps : (step w (.claim ownerId locked)).db.steps = Table.put StepRow.key { row with
        state := .running, attemptCount := row.attemptCount+1,
        executionOwnerId := some ownerId, claimToken := some w.db.fresh } w.db.steps := by
      simp only [step,hsome]
      rfl
    refine ⟨htallied,?_,?_⟩
    · rw [hclaims]
      exact Table.keyed_append h.tokens fun c hc => (hw.claims c hc).2.2.ne
    · intro r hr hrun
      rw [hsteps] at hr
      rw [hclaims,latestClaim_append]
      rcases Table.mem_put.mp hr with ⟨-,rfl⟩ | ⟨hr,hne⟩
      · exact ⟨_,if_pos rfl,rfl⟩
      · obtain ⟨c,hc,ht⟩ := h.holders r hr hrun
        exact ⟨c,(if_neg fun he => hne he.symm).trans hc,ht⟩

theorem step_held (hw : w.Sound g input) (h : w.Held) (a : Action) : (step w a).Held := by
  by_cases ha : ∀ ownerId locked, a ≠ .claim ownerId locked
  · refine ⟨step_tallied h.tallied a,?_,?_⟩
    · rw [step_claims w ha]
      exact h.tokens
    · intro r hr hrun
      rw [step_claims w ha]
      exact h.holders r ((step_untaken hw ha).moves.running_kept hr hrun) hrun
  · push Not at ha
    obtain ⟨ownerId,locked,rfl⟩ := ha
    exact held_claim hw h ownerId locked

theorem World.Held.holder (h : w.Held) {c : StepClaim} (hc : c ∈ w.claims) {row : StepRow}
    (hrow : fencedRow w.db c = some row) : latestClaim w.claims c.spec.key = some c := by
  obtain ⟨-,found,hkey,running,-,htoken⟩ := fencedRow_some hrow
  obtain ⟨d,hd,ht⟩ := h.holders row found running
  have he : c = d := Table.mem_unique h.tokens hc (latestClaim_mem hd)
    (Option.some.inj (htoken.symm.trans ht))
  rw [← hkey,hd,he]

theorem finish_fenced {db db' : Db} {e : Execution} (h : finish db e = .ok db') :
    ∃ row, fencedRow db e.claim = some row := by
  unfold finish at h
  split at h
  · simp only [finishStep,bind_ok,present_ok] at h
    obtain ⟨row,hrow,-⟩ := h
    exact ⟨row,hrow⟩
  · simp only [finishCondition,bind_ok,present_ok] at h
    obtain ⟨row,hrow,-⟩ := h
    exact ⟨row,hrow⟩

theorem failStep_fenced {db db' : Db} {c : StepClaim} {code : String} {retryable : Bool}
    (h : failStep db c code retryable = .ok db') : ∃ row, fencedRow db c = some row := by
  simp only [failStep,bind_ok,present_ok] at h
  obtain ⟨row,hrow,-⟩ := h
  exact ⟨row,hrow⟩

theorem terminal_targets {s : RunState} (h : s.terminal) : s.targets = [] := by
  cases s <;> first | rfl | cases h

theorem fencedRow_terminal {db : Db} (h : db.run.state.terminal) (c : StepClaim) :
    fencedRow db c = none := by
  apply if_neg
  rintro (hs | hs) <;> rw [hs] at h <;> cases h

theorem transitionRun_terminal {db db' : Db} (h : db.run.state.terminal)
    (target : RunState) (reason : String) : db.transitionRun target reason ≠ .ok db' := by
  intro ht
  have hm := (transitionRun_ok ht).1
  rw [terminal_targets h] at hm
  cases hm

theorem settleWith_refused {x : Result Db} (h : ∀ db', x ≠ .ok db') : settleWith x w = w := by
  cases x with
  | ok db' => exact absurd rfl (h db')
  | error => rfl

theorem step_terminal (h : w.db.run.state.terminal) (a : Action) : (step w a).db = w.db := by
  have hfenced {c : StepClaim} : ¬ ∃ row, fencedRow w.db c = some row := by
    simp [fencedRow_terminal h]
  refine step_db (P := fun _ db => db = w.db) (fun _ => rfl) (fun ownerId locked => ?_)
    (fun _ _ _ _ hf => absurd (finish_fenced hf) hfenced)
    (fun _ _ _ _ _ _ _ hf => absurd (failStep_fenced hf) hfenced)
    (fun _ hp => absurd hp (transitionRun_terminal h _ _)) (fun _ hr => ?_) (fun _ hc => ?_) a
  · have hrun : w.db.run.state ≠ .running := by
      intro hs
      rw [hs] at h
      cases h
    simp [claim,hrun]
  · simp only [resumeRun,bind_ok] at hr
    obtain ⟨_,h1,-⟩ := hr
    exact absurd h1 (transitionRun_terminal h _ _)
  · simp only [cancelRun,bind_ok] at hc
    obtain ⟨_,h1,-⟩ := hc
    exact absurd h1 (transitionRun_terminal h _ _)

end

theorem addStep_quiet {specs : List StepSpec} {db : Db}
    (h : ∀ x ∈ db.history, ∀ key, x.completes key = false) :
    ∀ x ∈ (specs.foldl addStep db).history, ∀ key, x.completes key = false := by
  induction specs generalizing db with
  | nil => exact h
  | cons _ _ ih =>
    apply ih
    intro x hx key
    rcases Table.mem_concat hx with hx | rfl
    · exact h x hx key
    · unfold HistoryRow.completes initialState
      split_ifs <;> rfl

section

variable (g input)

theorem tallied_start : (startRun g input).Tallied where
  keyed := by
    rw [startRun_steps]
    exact (sound_start g).keyed
  budgeted r hr := by
    rw [startRun_steps] at hr
    obtain ⟨spec,-,rfl⟩ := List.mem_map.mp hr
    exact ⟨Nat.zero_le _,fun _ => spec.retry.attemptBounds.1⟩
  tally key := by
    have hquiet : ∀ x ∈ (startRun g input).history, ∀ key, x.completes key = false := by
      apply addStep_quiet
      intro x hx key
      obtain rfl := List.mem_singleton.mp hx
      rfl
    rw [completions_quiet hquiet,if_neg]
    intro hs
    have hset : (stateOf (startRun g input).steps key).settled := by rw [hs]; rfl
    obtain ⟨r,hr,-,hstate⟩ := stateOf_settled hset
    rw [startRun_steps] at hr
    obtain ⟨spec,-,rfl⟩ := List.mem_map.mp hr
    rcases newStep_cases spec with ⟨-,hn⟩ | ⟨-,hn⟩ <;> rw [hn,hs] at hstate <;> cases hstate

theorem held_start : (start g input).Held where
  tallied := tallied_start g input
  tokens := List.nodup_nil
  holders r hr hrun := by
    rw [start,startRun_steps] at hr
    obtain ⟨spec,-,rfl⟩ := List.mem_map.mp hr
    rcases newStep_cases spec with ⟨-,hn⟩ | ⟨-,hn⟩ <;> rw [hn] at hrun <;> cases hrun

theorem reach_held (as : List Action) : (reach g input as).Held := by
  have h := Run.exec_invariant step (fun w => w.Sound g input ∧ w.Held)
    (fun w a hw => ⟨step_sound hw.1 a,step_held hw.1 hw.2 a⟩) as (start g input)
    ⟨world_sound_start g input,held_start g input⟩
  exact h.2

theorem reach_terminal (as bs : List Action) (h : (reach g input as).db.run.state.terminal) :
    (reach g input (as++bs)).db = (reach g input as).db := by
  have hinv := Run.exec_invariant step (fun w => w.db = (reach g input as).db)
    (fun w a hw => (step_terminal (by rw [hw]; exact h) a).trans hw) bs (reach g input as) rfl
  rw [reach,Run.exec_append]
  exact hinv

end

/-- In every state that workers, pauses, resumes and cancels reach, no step has
more attempts than it may have and a ready one has one left. A step completes
once, by the holder of the claim that was issued last for it; whoever holds
another claim is refused, and so is everybody once the run has ended. What is
refused changes no row, and terminal steps and runs are never written again. -/
theorem claims_fence_steps (g : Graph) (input : Json.Fields) (as : List Action) :
    (∀ r ∈ (reach g input as).db.steps, r.attemptCount ≤ r.maxAttempts ∧
      (r.state = .ready → r.attemptCount < r.maxAttempts)) ∧
    (∀ key, completions (reach g input as).db.history key ≤ 1) ∧
    (∀ a, ∀ r ∈ (step (reach g input as) a).db.steps, r.state = .completed →
      r ∈ (reach g input as).db.steps ∨ ∃ j e, a = .finish j ∧
        (reach g input as).executions[j]? = some e ∧ e.claim.spec.key = r.key ∧
        latestClaim (reach g input as).claims r.key = some e.claim) ∧
    (∀ e ∈ (reach g input as).executions,
      latestClaim (reach g input as).claims e.claim.spec.key ≠ some e.claim →
        ∀ db, finish (reach g input as).db e ≠ .ok db) ∧
    (∀ c ∈ (reach g input as).claims,
      latestClaim (reach g input as).claims c.spec.key ≠ some c →
        ∀ code retryable db, failStep (reach g input as).db c code retryable ≠ .ok db) ∧
    (∀ j, (∀ e, (reach g input as).executions[j]? = some e →
        ∀ db, finish (reach g input as).db e ≠ .ok db) →
      (step (reach g input as) (.finish j)).db = (reach g input as).db) ∧
    (∀ i code retryable, (∀ c, (reach g input as).claims[i]? = some c → ∀ db,
        failStep (reach g input as).db c code
          (retryable && code ∈ c.spec.retry.retryableCodes) ≠ .ok db) →
      (step (reach g input as) (.fail i code retryable)).db = (reach g input as).db) ∧
    (∀ bs, ∀ r ∈ (reach g input as).db.steps, r.state.terminal →
      r ∈ (reach g input (as++bs)).db.steps) ∧
    (∀ bs, (reach g input as).db.run.state.terminal →
      (reach g input (as++bs)).db = (reach g input as).db) := by
  have hs := reach_sound g input as
  have hh := reach_held g input as
  refine ⟨?_,?_,?_,?_,?_,?_,?_,?_,?_⟩
  · intro r hr
    obtain ⟨hle,hlt⟩ := hh.tallied.budgeted r hr
    exact ⟨hle,fun hready => hlt (.inr hready)⟩
  · intro key
    rw [hh.tallied.tally]
    split_ifs <;> omega
  · intro a r hr hdone
    rcases (step_effect hs a).moves.completed_origin hr hdone with hold | ⟨_,_,hlab,hkey⟩
    · exact .inl hold
    · obtain ⟨j,e,ha,he,hrow,-⟩ := hlab
      have hclaim := (hs.executions e (List.mem_of_getElem? he)).1
      have hsame : e.claim.spec.key = r.key := (fencedRow_some hrow).2.2.1.symm.trans hkey
      exact .inr ⟨j,e,ha,he,hsame,hsame ▸ hh.holder hclaim hrow⟩
  · intro e he hstale db hf
    obtain ⟨_,hrow⟩ := finish_fenced hf
    exact hstale (hh.holder (hs.executions e he).1 hrow)
  · intro c hc hstale code retryable db hf
    obtain ⟨_,hrow⟩ := failStep_fenced hf
    exact hstale (hh.holder hc hrow)
  · intro j hrefused
    simp only [step]
    split
    · rfl
    · rename_i e he
      rw [settleWith_refused (hrefused e he)]
  · intro i code retryable hrefused
    simp only [step]
    split
    · rfl
    · rename_i c hc
      rw [settleWith_refused (hrefused c hc)]
  · intro bs r hr hterm
    exact (reach_moves g input as bs).terminal_kept hs.rows.keyed hr hterm
  · intro bs hterm
    exact reach_terminal g input as bs hterm

end NexusAi.Workflow
