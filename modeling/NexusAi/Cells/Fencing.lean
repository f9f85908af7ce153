import NexusAi.Cells.Steps

/-!
# Generations fence stale workers

Along every run: who was admitted works only under the placement it was admitted with,
a snapshot from before a suspension is never admitted after it, and the receipts
account for every generation and every event. A repeated mutation ends as the
original did.
-/

namespace NexusAi.Cells
namespace World

variable {known : ℕ → Bool} {w : World}

def Taken (w : World) (s : PlacementSnapshot) : Prop :=
  ∃ p, w.placements s.organizationId = some p ∧ snapshot s.organizationId p = s

/-- The transaction does its work, admitted with the snapshot. -/
def WorksWith (t : Transaction) (organizationId : ℕ) (workerCellId : Option ℕ)
    (admitted : Option PlacementSnapshot) : Prop :=
  ∃ route, t.work = .execute organizationId workerCellId route (.working admitted)

/-- A suspension of the organization was committed on the way from one state to another. -/
def SuspendedSince (w w' : World) (organizationId : ℕ) : Prop :=
  ∃ r ∈ w'.receipts.drop w.receipts.length,
    r.organizationId = organizationId ∧ r.operation = .suspend

def EndsAs (r : Receipt) (request : PlacementMutation) :
    Except CellError PlacementSnapshot → Prop
  | .ok s => request.toContent = r.fingerprint ∧ s = r.snapshot
  | .error e => e = .permissionDenied ∨ e = .aborted ∨
      e = .placementConflict ∧ request.toContent ≠ r.fingerprint

section Admission

theorem admits_snapshot {workerCellId : ℕ} {s : PlacementSnapshot} {p : Placement}
    (h : admits workerCellId s p) (hcell : workerCellId = s.cellId) :
    snapshot s.organizationId p = s ∧ p.state = .active := by
  obtain ⟨hid,hworker,hgeneration,hactive,hstate⟩ := of_decide_eq_true h
  refine ⟨?_,hactive⟩
  unfold snapshot
  rw [hid,hworker,hgeneration,hactive,hcell,← hstate]

theorem Sound.admitted (h : Sound known w) {t : Transaction} (ht : t ∈ w.transactions)
    {organizationId : ℕ} {workerCellId : Option ℕ} {s : PlacementSnapshot}
    (hworks : WorksWith t organizationId workerCellId (some s)) :
    workerCellId = some s.cellId ∧ organizationId = s.organizationId ∧
      ∃ p, w.placements organizationId = some p ∧ snapshot organizationId p = s ∧
        p.state = .active := by
  obtain ⟨i,hi⟩ := List.getElem?_of_mem ht
  obtain ⟨_,hwork⟩ := hworks
  have hgood := h.good i t hi
  unfold Good at hgood
  rw [hwork] at hgood
  obtain ⟨hworker,horganization,-,⟨p,hp,hadmits⟩,-⟩ := hgood
  obtain ⟨hsame,hactive⟩ := admits_snapshot hadmits rfl
  rw [horganization] at hsame
  exact ⟨hworker,horganization.symm,p,hp,hsame,hactive⟩

theorem Sound.unplaced (h : Sound known w) {t : Transaction} (ht : t ∈ w.transactions)
    {organizationId : ℕ} {admitted : Option PlacementSnapshot}
    (hworks : WorksWith t organizationId none admitted) : w.placements organizationId = none := by
  cases admitted with
  | some => cases (h.admitted ht hworks).1
  | none =>
    obtain ⟨i,hi⟩ := List.getElem?_of_mem ht
    obtain ⟨_,hwork⟩ := hworks
    have hgood := h.good i t hi
    unfold Good at hgood
    rw [hwork] at hgood
    exact hgood.2.1

end Admission

section Growth

theorem Moved.receipts {i : ℕ} {t : Transaction} {w' : World} (h : Moved known w i t w') :
    w.receipts <+: w'.receipts := by
  cases h with
  | waits | goes | retires => exact List.prefix_refl _
  | mutates => exact List.prefix_append _ _

theorem step_receipts (a : Action) (h : Sound known w) :
    w.receipts <+: (w.step known a).receipts := by
  cases a with
  | advance i =>
    simp only [step]
    cases ht : w.transactions[i]? with
    | none =>
      unfold advanceStep
      rw [ht]
      exact List.prefix_refl _
    | some => exact (advanceStep_moved h ht).receipts
  | register | retire | mutate | execute => exact List.prefix_refl _

theorem run_receipts (as : List Action) (h : Sound known w) :
    w.receipts <+: (Run.exec (step known) as w).receipts :=
  Run.exec_related (step known) (Sound known) (fun w w' => w.receipts <+: w'.receipts)
    (step_sound known) (fun _ => List.prefix_refl _) (fun _ _ _ => List.IsPrefix.trans)
    (fun _ a => step_receipts a) as w h

theorem moves_prefix {rs rs' : List Receipt} (h : rs <+: rs') (o : ℕ) : moves rs o ≤ moves rs' o :=
  h.sublist.countP_le

theorem SuspendedSince.moves {w' : World} {o : ℕ} (h : SuspendedSince w w' o)
    (hgrown : w.receipts <+: w'.receipts) : moves w.receipts o < moves w'.receipts o := by
  obtain ⟨r,hr,horganization,hoperation⟩ := h
  obtain ⟨_,hnew⟩ := hgrown
  rw [← hnew,List.drop_left] at hr
  rw [← hnew]
  unfold Cells.moves
  rw [List.countP_append]
  apply Nat.lt_add_of_pos_right
  apply List.countP_pos_iff.mpr
  exact ⟨r,hr,by simp [horganization,hoperation]⟩

end Growth

section Repeats

variable {r : Receipt} {request : PlacementMutation}

def Repeats (r : Receipt) (request : PlacementMutation) : MutatePhase → Prop
  | .authorizing => True
  | .checking => True
  | .lockingCell => request.toContent = r.fingerprint
  | .lockingOrganization => request.toContent = r.fingerprint
  | .receiving => request.toContent = r.fingerprint
  | .lockingPlacement => False
  | .committing _ => False
  | .ended answer => EndsAs r request answer

theorem Consistent.receiptFor (h : Consistent known w) (hr : r ∈ w.receipts)
    (hanswers : r.Answers r.organizationId request) :
    w.receiptFor r.organizationId request = some r := by
  cases hfound : w.receiptFor r.organizationId request with
  | none => exact absurd hanswers (receiptFor_none hfound r hr)
  | some s =>
    obtain ⟨hs,hother⟩ := receiptFor_some hfound
    obtain ⟨m,hm⟩ := List.getElem?_of_mem hr
    obtain ⟨n,hn⟩ := List.getElem?_of_mem hs
    have hmn := h.once m n r s hm hn hother.1.symm (hanswers.2.1.trans hother.2.1.symm)
      (hanswers.2.2.trans hother.2.2.symm)
    rw [hmn,hn] at hm
    exact hm

theorem Consistent.registered (h : Consistent known w) (hr : r ∈ w.receipts) :
    w.isRegistered r.fingerprint.cellId := by
  obtain ⟨-,p,hp,hcell⟩ := h.receipts r hr
  obtain ⟨-,-,c,hc,hstate,-⟩ := h.placed _ p hp
  rw [hcell] at hc
  unfold isRegistered
  rw [hc]
  exact decide_eq_true hstate

variable {i : ℕ} {phase : MutatePhase}

def At (w : World) (i : ℕ) (r : Receipt) (request : PlacementMutation) (phase : MutatePhase) :
    Prop :=
  ∃ held, w.transactions[i]? = some ⟨.mutate r.organizationId request phase,held⟩

theorem At.put (h : w.At i r request phase) (next : MutatePhase)
    (held : List (Resource × RowLocks.Mode)) :
    (w.put i (.mutate r.organizationId request next) held).At i r request next := by
  obtain ⟨_,hold⟩ := h
  refine ⟨held,?_⟩
  simp [World.put,(List.getElem?_eq_some_iff.mp hold).1]

theorem whenFree_at {resource : Resource} {m : RowLocks.Mode} {after : World}
    (h : w.At i r request phase) (hphase : Repeats r request phase)
    (hafter : ∃ next, after.At i r request next ∧ Repeats r request next) :
    ∃ next, (w.whenFree i resource m after).At i r request next ∧ Repeats r request next := by
  unfold whenFree
  split_ifs
  · exact hafter
  · exact ⟨phase,h,hphase⟩

theorem mutateStep_repeats (h : Sound known w) (hr : r ∈ w.receipts)
    (hanswers : r.Answers r.organizationId request) (hat : w.At i r request phase)
    (hphase : Repeats r request phase) (answer : Answer) :
    ∃ next, (w.mutateStep known i r.organizationId request phase answer).At i r request next ∧
      Repeats r request next := by
  have goes (next : MutatePhase) (held : List (Resource × RowLocks.Mode))
      (hnext : Repeats r request next) : ∃ next',
      (w.put i (.mutate r.organizationId request next) held).At i r request next' ∧
        Repeats r request next' := ⟨next,hat.put next held,hnext⟩
  have hfound := h.consistent.receiptFor hr hanswers
  unfold mutateStep
  dsimp only
  split
  · exact ⟨_,hat,hphase⟩
  · exact hphase.elim
  · exact hphase.elim
  · exact goes _ _ (.inr (.inl rfl))
  · exact goes _ _ (.inl rfl)
  · exact goes _ _ trivial
  · rw [hfound]
    dsimp only
    split_ifs with hcontent
    · exact goes _ _ (.inr (.inr ⟨rfl,Ne.symm hcontent⟩))
    · exact goes _ _ (not_not.mp hcontent).symm
  · apply whenFree_at hat hphase
    have hcell : request.cellId = r.fingerprint.cellId :=
      congrArg Content.cellId (hphase : request.toContent = r.fingerprint)
    rw [if_pos (hcell ▸ h.consistent.registered hr)]
    exact goes _ _ hphase
  · apply whenFree_at hat hphase
    split_ifs
    · exact goes _ _ hphase
    · exact goes _ _ (.inl rfl)
  · rw [hfound]
    dsimp only
    split_ifs with hcontent
    · exact goes _ _ (.inr (.inr ⟨rfl,Ne.symm hcontent⟩))
    · exact goes _ _ ⟨hphase,rfl⟩
  · exact hphase.elim
  · exact hphase.elim

theorem Moved.at {j : ℕ} {t : Transaction} {w' : World} (hmoved : Moved known w j t w')
    (hj : j ≠ i) (h : w.At i r request phase) : w'.At i r request phase := by
  obtain ⟨held,hi⟩ := h
  refine ⟨held,?_⟩
  cases hmoved with
  | waits => exact hi
  | goes | mutates | retires => exact (List.getElem?_set_ne hj).trans hi

theorem At.begins (h : w.At i r request phase) (work : Work) :
    (w.begins work).At i r request phase := by
  obtain ⟨held,hi⟩ := h
  refine ⟨held,?_⟩
  unfold World.begins
  rw [List.getElem?_append_left (List.getElem?_eq_some_iff.mp hi).1]
  exact hi

structure Repeating (known : ℕ → Bool) (r : Receipt) (request : PlacementMutation) (i : ℕ)
    (w : World) : Prop where
  sound : Sound known w
  receipt : r ∈ w.receipts
  reached : ∃ phase, w.At i r request phase ∧ Repeats r request phase

theorem step_repeating (hanswers : r.Answers r.organizationId request) (w : World) (a : Action)
    (h : Repeating known r request i w) : Repeating known r request i (w.step known a) := by
  refine ⟨step_sound known w a h.sound,(step_receipts a h.sound).subset h.receipt,?_⟩
  obtain ⟨phase,hat,hphase⟩ := h.reached
  cases a with
  | advance j answer =>
    simp only [step]
    by_cases hj : j = i
    · subst hj
      obtain ⟨_,hi⟩ := id hat
      unfold advanceStep
      rw [hi]
      exact mutateStep_repeats h.sound h.receipt hanswers hat hphase answer
    · cases ht : w.transactions[j]? with
      | none =>
        unfold advanceStep
        rw [ht]
        exact ⟨phase,hat,hphase⟩
      | some => exact ⟨phase,(advanceStep_moved h.sound ht).at hj hat,hphase⟩
  | register => exact ⟨phase,hat,hphase⟩
  | retire | mutate | execute => exact ⟨phase,hat.begins _,hphase⟩

/-- A mutation that is begun with a used key ends as the one before it did, or in a
conflict if it says something else. -/
theorem repeated_ends (h : Sound known w) (hr : r ∈ w.receipts)
    (hanswers : r.Answers r.organizationId request) (as : List Action) {t : Transaction}
    {answer : Except CellError PlacementSnapshot}
    (ht : (Run.exec (step known) as
      (w.step known (.mutate r.organizationId request))).transactions[w.transactions.length]? =
        some t)
    (hended : t.work = .mutate r.organizationId request (.ended answer)) :
    EndsAs r request answer := by
  have hbegun : Repeating known r request w.transactions.length
      (w.step known (.mutate r.organizationId request)) :=
    ⟨step_sound known w _ h,hr,.authorizing,⟨[],List.getElem?_concat_length⟩,trivial⟩
  obtain ⟨_,⟨_,hat⟩,hphase⟩ := (Run.exec_invariant (step known)
    (Repeating known r request w.transactions.length) (step_repeating hanswers) as _ hbegun).reached
  rw [ht] at hat
  rw [Option.some.inj hat] at hended
  cases hended
  exact hphase

end Repeats

/-- What holds in a state, and in every continuation of it. -/
structure Fences (known : ℕ → Bool) (w : World) : Prop where
  admitted : ∀ t ∈ w.transactions, ∀ organizationId workerCellId s,
    WorksWith t organizationId workerCellId (some s) → workerCellId = some s.cellId ∧
      ∃ p, w.placements organizationId = some p ∧ snapshot organizationId p = s ∧ p.state = .active
  stale : ∀ s, w.Taken s → ∀ as bs,
    SuspendedSince w (Run.exec (step known) as w) s.organizationId →
      ∀ t ∈ (Run.exec (step known) bs (Run.exec (step known) as w)).transactions,
        ∀ organizationId workerCellId, ¬ WorksWith t organizationId workerCellId (some s)
  unplaced : ∀ t ∈ w.transactions, ∀ organizationId admitted,
    WorksWith t organizationId none admitted → w.placements organizationId = none
  counted : ∀ organizationId p, w.placements organizationId = some p →
    p.assignmentGeneration = 1+moves w.receipts organizationId
  once : ∀ (m n : ℕ) r s, w.receipts[m]? = some r → w.receipts[n]? = some s →
    r.organizationId = s.organizationId → r.operation = s.operation →
      r.idempotencyKey = s.idempotencyKey → m = n
  events : w.events = w.receipts.map Receipt.event
  original : ∀ t ∈ w.transactions, ∀ organizationId request s,
    t.work = .mutate organizationId request (.ended (.ok s)) →
      ∃ r ∈ w.receipts, r.Answers organizationId request ∧
        r.fingerprint = request.toContent ∧ s = r.snapshot
  repeated : ∀ r ∈ w.receipts, ∀ request, r.Answers r.organizationId request → ∀ as t answer,
    (Run.exec (step known) as
      (w.step known (.mutate r.organizationId request))).transactions[w.transactions.length]? =
        some t →
    t.work = .mutate r.organizationId request (.ended answer) → EndsAs r request answer

theorem Sound.stale (h : Sound known w) {s : PlacementSnapshot} (hs : w.Taken s)
    (as bs : List Action)
    (hsince : SuspendedSince w (Run.exec (step known) as w) s.organizationId) {t : Transaction}
    (ht : t ∈ (Run.exec (step known) bs (Run.exec (step known) as w)).transactions)
    (organizationId : ℕ) (workerCellId : Option ℕ) :
    ¬ WorksWith t organizationId workerCellId (some s) := by
  intro hworks
  have hsound := Run.exec_invariant (step known) (Sound known) (step_sound known) as w h
  have hsound' := Run.exec_invariant (step known) (Sound known) (step_sound known) bs _ hsound
  -- the generation that the worker was admitted with is that of the snapshot's time
  obtain ⟨p,hp,htaken⟩ := hs
  obtain ⟨-,_,-⟩ := h.consistent.placed _ p hp
  obtain ⟨-,horganization,q,hq,hsame,-⟩ := hsound'.admitted ht hworks
  obtain ⟨-,hgeneration',-⟩ := hsound'.consistent.placed _ q hq
  have hequal : q.assignmentGeneration = p.assignmentGeneration := by
    rw [← horganization] at htaken
    exact congrArg PlacementSnapshot.assignmentGeneration (hsame.trans htaken.symm)
  have hlater := moves_prefix (run_receipts bs hsound) s.organizationId
  have hmore := hsince.moves (run_receipts as h)
  rw [horganization] at hgeneration'
  omega

/-- In every state that is reached, only the cell of the current generation may work, and a
generation that was left behind never works again. -/
theorem generations_fence (known : ℕ → Bool) (as : List Action) :
    Fences known (Run.exec (step known) as initial) := by
  have h := run_sound known as
  constructor
  case admitted =>
    intro t ht organizationId workerCellId s hworks
    obtain ⟨hcell,-,hplaced⟩ := h.admitted ht hworks
    exact ⟨hcell,hplaced⟩
  case stale =>
    intro s hs bs cs hsince t ht
    exact h.stale hs bs cs hsince ht
  case unplaced =>
    intro t ht organizationId admitted hworks
    exact h.unplaced ht hworks
  case counted =>
    intro organizationId p hp
    exact (h.consistent.placed organizationId p hp).2.1
  case once => exact h.consistent.once
  case events => exact h.consistent.events
  case original =>
    intro t ht organizationId request s hended
    obtain ⟨i,hi⟩ := List.getElem?_of_mem ht
    have hgood := h.good i t hi
    unfold Good at hgood
    rw [hended] at hgood
    exact hgood
  case repeated =>
    intro r hr request hanswers bs t answer ht hended
    exact repeated_ends h hr hanswers bs ht hended

/-- An organization stays in the cell that it was assigned to, and no cell is retired that
has an organization. What was committed for one organization names one cell. -/
theorem placements_stay (known : ℕ → Bool) (as bs : List Action) :
    let w := Run.exec (step known) (as++bs) initial
    (∀ o p, w.placements o = some p → known o ∧
      ∃ c, w.cells[p.cellId]? = some c ∧ c.state = .registered) ∧
    ∀ r ∈ (Run.exec (step known) as initial).receipts,
      (∃ p, w.placements r.organizationId = some p ∧ p.cellId = r.fingerprint.cellId) ∧
      ∀ s ∈ w.receipts, s.organizationId = r.organizationId →
        s.fingerprint.cellId = r.fingerprint.cellId := by
  intro w
  have hw : Consistent known w := (run_sound known (as++bs)).consistent
  have hgrown : (Run.exec (step known) as initial).receipts <+: w.receipts := by
    change _ <+: (Run.exec (step known) (as++bs) initial).receipts
    rw [Run.exec_append]
    exact run_receipts bs (run_sound known as)
  refine ⟨?_,fun r hr => ?_⟩
  · intro o p hp
    obtain ⟨hknown,-,c,hc,hstate,-⟩ := hw.placed o p hp
    exact ⟨hknown,c,hc,hstate⟩
  · obtain ⟨-,p,hp,hcell⟩ := hw.receipts r (hgrown.subset hr)
    refine ⟨⟨p,hp,hcell⟩,fun s hs hsame => ?_⟩
    obtain ⟨-,q,hq,hnamed⟩ := hw.receipts s hs
    rw [hsame,hp] at hq
    rw [← hnamed,← Option.some.inj hq]
    exact hcell

end World
end NexusAi.Cells
