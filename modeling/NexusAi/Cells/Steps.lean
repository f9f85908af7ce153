import NexusAi.Cells.Commits

/-!
# What a transaction does in one step

It waits, goes on, commits a mutation or commits the retirement of a cell. Nothing
else writes rows, apart from the registration of a cell.
-/

namespace NexusAi.Cells
namespace World
open NexusAi.RowLocks

variable {known : ℕ → Bool} {w : World} {i : ℕ} {t : Transaction}

inductive Moved (known : ℕ → Bool) (w : World) (i : ℕ) (t : Transaction) : World → Prop
  | waits : Moved known w i t w
  | goes (work : Work) (held : List (Resource × Mode))
      (hlocks : held = t.locks ∨ held = [] ∨
        ∃ r m, held = (r,m)::t.locks ∧ w.free i r m)
      (hgood : w.Good known ⟨work,held⟩) : Moved known w i t (w.put i work held)
  | mutates (organizationId : ℕ) (request : PlacementMutation) (p : Placement) (work : Work)
      (hcommits : Commits known w organizationId request p i)
      (hgood : (w.mutationWritten organizationId request p).Good known ⟨work,[]⟩) :
      Moved known w i t ((w.mutationWritten organizationId request p).put i work [])
  | retires (cellId : ℕ) (c : Cell) (hlock : (.cell cellId,.exclusive) ∈ w.locks i)
      (hcell : w.cells[cellId]? = some c) (hempty : c.hasPlacements = false) :
      Moved known w i t
        ({ w with cells := w.cells.modify cellId fun c => { c with state := .retired } }.put i
          (.retire cellId (.ended (.ok ()))) [])

section Functions

theorem whenFree_moved {r : Resource} {m : Mode} {after : World}
    (h : w.free i r m → Moved known w i t after) :
    Moved known w i t (w.whenFree i r m after) := by
  unfold whenFree
  split_ifs with hfree
  · exact h hfree
  · exact .waits

theorem proceed_moved (ht : w.transactions[i]? = some t) {next : Work}
    (h : w.Good known ⟨next,t.locks⟩) : Moved known w i t (w.proceed i next) := by
  unfold proceed
  rw [locks_of ht]
  exact .goes next t.locks (.inl rfl) h

theorem finish_moved {next : Work} (h : w.Good known ⟨next,[]⟩) :
    Moved known w i t (w.finish i next) :=
  .goes next [] (.inr (.inl rfl)) h

theorem lock_moved (ht : w.transactions[i]? = some t) {r : Resource} {m : Mode} {next : Work}
    (hfree : w.free i r m) (h : w.Good known ⟨next,(r,m)::t.locks⟩) :
    Moved known w i t (w.lock i r m next) := by
  unfold lock
  rw [locks_of ht]
  exact .goes next _ (.inr (.inr ⟨r,m,rfl,hfree⟩)) h

variable {organizationId : ℕ} {answer : Answer}

section

variable (ht : w.transactions[i]? = some t)

include ht

theorem GoodMutation.commits {request : PlacementMutation} {p : Placement}
    (h : w.GoodMutation known organizationId request t.locks (.committing p)) :
    Commits known w organizationId request p i := by
  obtain ⟨⟨⟨hcell,hregistered⟩,horganization,hknown⟩,hfresh,hmutated,hplacement⟩ := h
  rw [← locks_of ht] at hcell horganization hplacement
  exact ⟨hcell,hregistered,horganization,hknown,hfresh,hmutated,hplacement⟩

theorem mutateStep_moved {request : PlacementMutation} {phase : MutatePhase}
    (h : w.GoodMutation known organizationId request t.locks phase) :
    Moved known w i t (w.mutateStep known i organizationId request phase answer) := by
  have raises (e : CellError) : Moved known w i t
      (w.finish i (.mutate organizationId request (.ended (.error e)))) := finish_moved trivial
  have receipt (p : Placement) :
      (w.mutationWritten organizationId request p).GoodMutation known organizationId request []
        (.ended (.ok (snapshot organizationId p))) := by
    refine ⟨receiptOf organizationId request p,?_,⟨rfl,rfl,rfl⟩,rfl,rfl⟩
    exact List.mem_append_right _ List.mem_cons_self
  unfold mutateStep
  dsimp only
  split
  · exact .waits
  · rename_i p
    exact .mutates _ _ _ _ (GoodMutation.commits ht h) (receipt p)
  · rename_i p
    exact .mutates _ _ _ _ (GoodMutation.commits ht h) trivial
  · exact raises .aborted
  · exact raises .permissionDenied
  · exact proceed_moved ht trivial
  · split
    · split_ifs
      · exact raises .placementConflict
      · exact proceed_moved ht trivial
    · exact proceed_moved ht trivial
  · apply whenFree_moved
    intro hfree
    split_ifs with hregistered
    · exact lock_moved ht hfree ⟨List.mem_cons_self,hregistered⟩
    · exact raises .cellUnavailable
  · apply whenFree_moved
    intro hfree
    split_ifs with hknown
    · refine lock_moved ht hfree ⟨⟨?_,h.2⟩,List.mem_cons_self,hknown⟩
      exact List.mem_cons_of_mem _ h.1
    · exact raises .permissionDenied
  · split
    · rename_i r hr
      obtain ⟨hmem,hanswers⟩ := receiptFor_some hr
      split_ifs with hcontent
      · exact raises .placementConflict
      · exact finish_moved ⟨r,hmem,hanswers,not_not.mp hcontent,rfl⟩
    · rename_i hnone
      exact proceed_moved ht ⟨h,hnone⟩
  · apply whenFree_moved
    intro hfree
    split
    · rename_i e _
      exact raises e
    · rename_i p hp hnone
      refine proceed_moved ht ⟨h.1,h.2,mutated_ok hp,?_⟩
      intro hsome
      rw [hnone] at hsome
      cases hsome
    · rename_i hp _
      refine lock_moved ht hfree ⟨?_,h.2,mutated_ok hp,fun _ => List.mem_cons_self⟩
      obtain ⟨⟨hcell,hregistered⟩,horganization,hknown⟩ := h.1
      exact ⟨⟨List.mem_cons_of_mem _ hcell,hregistered⟩,List.mem_cons_of_mem _ horganization,hknown⟩
  · exact raises .aborted

theorem executeStep_moved {workerCellId : Option ℕ} {route : Option PlacementSnapshot}
    {phase : ExecutePhase}
    (h : w.GoodExecution known organizationId workerCellId route t.locks phase) : Moved known w i t
      (w.executeStep known i organizationId workerCellId route phase answer) := by
  have raises (e : CellError) : Moved known w i t
      (w.finish i (.execute organizationId workerCellId route (.ended (.error e)))) :=
    finish_moved trivial
  unfold executeStep
  dsimp only
  split
  · exact .waits
  · exact finish_moved trivial
  · exact raises .aborted
  · apply whenFree_moved
    intro hfree
    split_ifs with hknown
    · exact lock_moved ht hfree fun _ _ => List.mem_cons_self
    · exact proceed_moved ht fun _ hk => absurd hk hknown
  · split
    · rename_i hnone
      exact proceed_moved ht ⟨rfl,hnone,h rfl⟩
    · exact raises .placementFenced
    · exact raises .placementRequired
    · rename_i p hp
      split_ifs with hother
      · exact raises .placementFenced
      · push Not at hother
        refine proceed_moved ht ⟨congrArg some hother.2.symm,hother.1,?_⟩
        cases route with
        | none => rfl
        | some => simp
  · apply whenFree_moved
    intro hfree
    split_ifs
    · exact lock_moved ht hfree h
    · exact raises .cellUnavailable
  · apply whenFree_moved
    intro hfree
    split
    · exact raises .placementRequired
    · rename_i p hp
      split_ifs with hadmits
      · exact lock_moved ht hfree ⟨h.1,h.2.1,h.2.2,⟨p,hp,hadmits⟩,List.mem_cons_self⟩
      · exact raises .placementFenced
  · exact raises .aborted

theorem retireStep_moved {cellId : ℕ} {phase : RetirePhase}
    (h : w.GoodRetirement cellId t.locks phase) :
    Moved known w i t (w.retireStep i cellId phase answer) := by
  have raises (e : CellError) : Moved known w i t
      (w.finish i (.retire cellId (.ended (.error e)))) := finish_moved trivial
  unfold retireStep
  dsimp only
  split
  · exact .waits
  · exact raises .aborted
  · exact raises .aborted
  · obtain ⟨hlock,c,hcell,-,hempty⟩ := h
    rw [← locks_of ht] at hlock
    exact .retires cellId c hlock hcell hempty
  · apply whenFree_moved
    intro hfree
    split
    · exact raises .cellUnavailable
    · rename_i c hcell
      split_ifs with hbad
      · exact raises .placementConflict
      · push Not at hbad
        exact lock_moved ht hfree
          ⟨List.mem_cons_self,c,hcell,hbad.1,Bool.eq_false_iff.mpr hbad.2⟩
  · exact raises .aborted

end

theorem advanceStep_moved (h : Sound known w) (ht : w.transactions[i]? = some t) :
    Moved known w i t (w.advanceStep known i answer) := by
  have hgood := h.good i t ht
  unfold Good at hgood
  unfold advanceStep
  rw [ht,Option.map_some]
  cases hwork : t.work with
  | mutate =>
    rw [hwork] at hgood
    exact mutateStep_moved ht hgood
  | execute =>
    rw [hwork] at hgood
    exact executeStep_moved ht hgood
  | retire =>
    rw [hwork] at hgood
    exact retireStep_moved ht hgood

end Functions

section Soundness

theorem Sound.committed {after : World} {work : Work} (h : Sound known w)
    (ht : w.transactions[i]? = some t) (hsame : after.transactions = w.transactions)
    (hself : after.Good known ⟨work,[]⟩)
    (hothers : ∀ j u, j ≠ i → w.transactions[j]? = some u → after.Good known u)
    (hcons : Consistent known after) : Sound known (after.put i work []) := by
  have ht' : after.transactions[i]? = some t := by
    rw [hsame]
    exact ht
  refine ⟨?_,?_,⟨hcons.once,hcons.events,hcons.unplaced,hcons.placed,hcons.receipts⟩⟩
  · refine h.exclusion.release ?_
    intro j k hk
    rw [locks_put ht'] at hk
    split_ifs at hk
    · cases hk
    · unfold locks at hk ⊢
      rw [hsame] at hk
      exact hk
  · intro j u hu
    rcases put_cases ht' hu with ⟨-,rfl⟩ | ⟨hj,hu⟩
    · exact hself
    · rw [hsame] at hu
      exact hothers j u hj hu

theorem retired_others (h : Sound known w) {cellId : ℕ} {f : Cell → Cell}
    (hlock : (.cell cellId,.exclusive) ∈ w.locks i) {j : ℕ} {u : Transaction} (hj : j ≠ i)
    (hu : w.transactions[j]? = some u) :
    ({ w with cells := w.cells.modify cellId f } : World).Good known u := by
  have hgood := h.good j u hu
  have other {k : ℕ} (hk : (.cell k,.exclusive) ∈ u.locks) : cellId ≠ k := by
    rintro rfl
    rw [← locks_of hu] at hk
    exact hj (h.exclusion.alone hlock hk).symm
  unfold Good at hgood ⊢
  split at hgood
  · refine GoodMutation.frame hgood ?_ (fun _ hnone => ⟨hnone,rfl⟩) (fun r hr => hr)
    intro hk hreg
    unfold isRegistered
    dsimp only
    rw [List.getElem?_modify_ne _ _ (other hk)]
    exact hreg
  · exact GoodExecution.frame hgood (fun hnone _ => hnone) (fun p hp _ => hp)
  · refine GoodRetirement.frame hgood ?_
    intro hk c hc
    dsimp only
    rw [List.getElem?_modify_ne _ _ (other hk)]
    exact hc

theorem retired_consistent (h : Consistent known w) {cellId : ℕ} {c : Cell} {f : Cell → Cell}
    (hcell : w.cells[cellId]? = some c) (hempty : c.hasPlacements = false) :
    Consistent known { w with cells := w.cells.modify cellId f } := by
  refine ⟨h.once,h.events,h.unplaced,?_,h.receipts⟩
  intro o p hp
  obtain ⟨hknown,hgeneration,d,hd,hreg,hhas⟩ := h.placed o p hp
  refine ⟨hknown,hgeneration,d,?_,hreg,hhas⟩
  have hne : cellId ≠ p.cellId := by
    intro heq
    rw [heq,hd] at hcell
    rw [Option.some.inj hcell,hempty] at hhas
    cases hhas
  dsimp only
  rw [List.getElem?_modify_ne _ _ hne]
  exact hd

theorem Moved.sound {w' : World} (hmoved : Moved known w i t w') (h : Sound known w)
    (ht : w.transactions[i]? = some t) : Sound known w' := by
  cases hmoved with
  | waits => exact h
  | goes _ _ hlocks hgood => exact h.put ht hlocks hgood
  | mutates _ _ _ _ hcommits hgood =>
    refine h.committed ht rfl hgood ?_ (hcommits.consistent h)
    intro j u hj hu
    exact hcommits.others h hj hu
  | retires _ _ hlock hcell hempty =>
    refine h.committed ht rfl trivial ?_ (retired_consistent h.consistent hcell hempty)
    intro j u hj hu
    exact retired_others h hlock hj hu

theorem Sound.begins (h : Sound known w) {work : Work} (hgood : w.Good known ⟨work,[]⟩) :
    Sound known (w.begins work) := by
  refine ⟨?_,?_,⟨h.consistent.once,h.consistent.events,h.consistent.unplaced,
    h.consistent.placed,h.consistent.receipts⟩⟩
  · refine h.exclusion.release ?_
    intro j k hk
    unfold locks World.begins at hk
    cases hj : (w.transactions++[(⟨work,[]⟩ : Transaction)])[j]? with
    | none =>
      dsimp only at hk
      rw [hj] at hk
      cases hk
    | some =>
      dsimp only at hk
      rw [hj] at hk
      rcases Batch.concat_cases hj with ⟨-,rfl⟩ | hu
      · cases hk
      · unfold locks
        rw [hu]
        exact hk
  · exact Batch.forall_concat hgood h.good

theorem Sound.registers (h : Sound known w) :
    Sound known { w with cells := w.cells++[⟨.registered,false⟩] } := by
  have kept {k : ℕ} {c : Cell} (hc : w.cells[k]? = some c) :
      (w.cells++[(⟨.registered,false⟩ : Cell)])[k]? = some c := by
    rw [List.getElem?_append_left (List.getElem?_eq_some_iff.mp hc).1]
    exact hc
  refine ⟨h.exclusion,?_,?_⟩
  · intro j u hu
    have hgood := h.good j u hu
    unfold Good at hgood ⊢
    split at hgood
    · refine GoodMutation.frame hgood ?_ (fun _ hnone => ⟨hnone,rfl⟩) (fun r hr => hr)
      intro _ hreg
      obtain ⟨c,hc,hstate⟩ := isRegistered_cell hreg
      unfold isRegistered
      dsimp only
      rw [kept hc]
      exact decide_eq_true hstate
    · exact GoodExecution.frame hgood (fun hnone _ => hnone) (fun p hp _ => hp)
    · exact GoodRetirement.frame hgood fun _ c hc => kept hc
  · refine ⟨h.consistent.once,h.consistent.events,h.consistent.unplaced,?_,h.consistent.receipts⟩
    intro o p hp
    obtain ⟨hknown,hgeneration,c,hc,hrest⟩ := h.consistent.placed o p hp
    exact ⟨hknown,hgeneration,c,kept hc,hrest⟩

theorem step_sound (known : ℕ → Bool) (w : World) (a : Action) (h : Sound known w) :
    Sound known (w.step known a) := by
  cases a with
  | register => exact h.registers
  | retire | mutate => exact h.begins trivial
  | execute _ workerCellId =>
    refine h.begins ?_
    cases workerCellId with
    | none => exact (rfl : (none : Option ℕ) = none)
    | some =>
      intro hnone
      cases hnone
  | advance i =>
    simp only [step]
    cases ht : w.transactions[i]? with
    | none =>
      unfold advanceStep
      rw [ht]
      exact h
    | some => exact (advanceStep_moved h ht).sound h ht

theorem run_sound (known : ℕ → Bool) (as : List Action) :
    Sound known (Run.exec (step known) as initial) :=
  Run.exec_invariant (step known) (Sound known) (step_sound known) as initial initial_sound

end Soundness

end World
end NexusAi.Cells
