import NexusAi.Lib.Batch
import NexusAi.Cells.System

/-!
# Commits side by side

For every phase of a transaction: the locks it holds and what they keep true of the
committed rows. A commit writes only rows that its transaction holds alone, so the rows
agree with each other and every transaction with the rows, in every interleaving.
-/

namespace NexusAi.Cells
open NexusAi.RowLocks

def Receipt.Answers (r : Receipt) (organizationId : ℕ) (request : PlacementMutation) : Prop :=
  r.organizationId = organizationId ∧ r.operation = request.operation ∧
    r.idempotencyKey = request.idempotencyKey

/-- A mutation creates a placement or moves one on by one generation. -/
inductive Mutated (request : PlacementMutation) : Option Placement → Placement → Prop
  | assigned (id : ℕ) (h : request.operation = .assign) :
      Mutated request none ⟨id,request.cellId,1,.active⟩
  | suspended (p : Placement) (h : request.operation = .suspend) (hcell : p.cellId = request.cellId)
      (hgeneration : request.expectedGeneration = some p.assignmentGeneration)
      (hstate : p.state = .active) :
      Mutated request (some p)
        { p with state := .suspended, assignmentGeneration := p.assignmentGeneration+1 }
  | resumed (p : Placement) (h : request.operation = .resume) (hcell : p.cellId = request.cellId)
      (hgeneration : request.expectedGeneration = some p.assignmentGeneration)
      (hstate : p.state = .suspended) :
      Mutated request (some p)
        { p with state := .active, assignmentGeneration := p.assignmentGeneration+1 }

theorem mutated_ok {request : PlacementMutation} {id : ℕ} {placement : Option Placement}
    {p : Placement} (h : mutated request id placement = .ok p) : Mutated request placement p := by
  unfold mutated at h
  cases hop : request.operation with
  | assign =>
    rw [hop] at h
    cases placement with
    | some => cases h
    | none =>
      cases h
      exact .assigned id hop
  | suspend =>
    rw [hop] at h
    cases placement with
    | none => cases h
    | some q =>
      simp only [if_true] at h
      split_ifs at h with hbad
      push Not at hbad
      cases h
      exact .suspended q hop hbad.1 hbad.2.1.symm hbad.2.2.2
  | resume =>
    rw [hop] at h
    cases placement with
    | none => cases h
    | some q =>
      simp only [reduceCtorEq,if_false] at h
      split_ifs at h with hbad
      push Not at hbad
      cases h
      exact .resumed q hop hbad.1 hbad.2.1.symm hbad.2.2.2

namespace World

def HoldsCell (w : World) (request : PlacementMutation) (locks : List (Resource × Mode)) : Prop :=
  (.cell request.cellId,.exclusive) ∈ locks ∧ w.isRegistered request.cellId

def HoldsBoth (known : ℕ → Bool) (w : World) (organizationId : ℕ) (request : PlacementMutation)
    (locks : List (Resource × Mode)) : Prop :=
  w.HoldsCell request locks ∧ (.organization organizationId,.exclusive) ∈ locks ∧
    known organizationId

def GoodMutation (known : ℕ → Bool) (w : World) (organizationId : ℕ) (request : PlacementMutation)
    (locks : List (Resource × Mode)) : MutatePhase → Prop
  | .lockingOrganization => w.HoldsCell request locks
  | .receiving => w.HoldsBoth known organizationId request locks
  | .lockingPlacement => w.HoldsBoth known organizationId request locks ∧
      w.receiptFor organizationId request = none
  | .committing p => w.HoldsBoth known organizationId request locks ∧
      w.receiptFor organizationId request = none ∧
      Mutated request (w.placements organizationId) p ∧
      ((w.placements organizationId).isSome →
        (.placement organizationId,.exclusive) ∈ locks)
  | .ended (.ok s) => ∃ r ∈ w.receipts, r.Answers organizationId request ∧
      r.fingerprint = request.toContent ∧ s = r.snapshot
  | _ => True

def HoldsOrganization (known : ℕ → Bool) (organizationId : ℕ) (locks : List (Resource × Mode)) :
    Prop :=
  known organizationId → (.organization organizationId,.shared) ∈ locks

def GoodExecution (known : ℕ → Bool) (w : World) (organizationId : ℕ) (workerCellId : Option ℕ)
    (route : Option PlacementSnapshot) (locks : List (Resource × Mode)) : ExecutePhase → Prop
  | .lockingOrganization => workerCellId = none
  | .reading => workerCellId = none → HoldsOrganization known organizationId locks
  | .admittingCell expected => workerCellId = some expected.cellId ∧
      expected.organizationId = organizationId ∧ (route.all fun s => s = expected)
  | .admittingPlacement expected => workerCellId = some expected.cellId ∧
      expected.organizationId = organizationId ∧ (route.all fun s => s = expected)
  | .working none => workerCellId = none ∧ w.placements organizationId = none ∧
      HoldsOrganization known organizationId locks
  | .working (some expected) => workerCellId = some expected.cellId ∧
      expected.organizationId = organizationId ∧
      (route.all fun s => s = expected) ∧
      (∃ p, w.placements organizationId = some p ∧ admits expected.cellId expected p) ∧
      (.placement organizationId,.shared) ∈ locks
  | .ended _ => True

def GoodRetirement (w : World) (cellId : ℕ) (locks : List (Resource × Mode)) : RetirePhase → Prop
  | .committing => (.cell cellId,.exclusive) ∈ locks ∧
      ∃ c, w.cells[cellId]? = some c ∧ c.state = .registered ∧ c.hasPlacements = false
  | _ => True

def Good (known : ℕ → Bool) (w : World) (t : Transaction) : Prop :=
  match t.work with
  | .mutate organizationId request phase =>
    w.GoodMutation known organizationId request t.locks phase
  | .execute organizationId workerCellId route phase =>
    w.GoodExecution known organizationId workerCellId route t.locks phase
  | .retire cellId phase => w.GoodRetirement cellId t.locks phase

variable {known : ℕ → Bool} {w : World} {organizationId : ℕ} {request : PlacementMutation}

theorem receiptFor_some {r : Receipt} (h : w.receiptFor organizationId request = some r) :
    r ∈ w.receipts ∧ r.Answers organizationId request :=
  ⟨List.mem_of_find?_eq_some h,by simpa [Receipt.Answers] using List.find?_some h⟩

theorem receiptFor_none (h : w.receiptFor organizationId request = none) (r : Receipt)
    (hr : r ∈ w.receipts) : ¬ r.Answers organizationId request := by
  have hnot := List.find?_eq_none.mp h r hr
  simpa [Receipt.Answers] using hnot

theorem receiptFor_of_none (h : ∀ r ∈ w.receipts, ¬ r.Answers organizationId request) :
    w.receiptFor organizationId request = none := by
  apply List.find?_eq_none.mpr
  intro r hr
  simpa [Receipt.Answers] using h r hr

section Frames

variable {w' : World} {locks : List (Resource × Mode)}

theorem GoodMutation.frame {organizationId : ℕ} {request : PlacementMutation}
    {phase : MutatePhase} (h : w.GoodMutation known organizationId request locks phase)
    (hcell : (.cell request.cellId,.exclusive) ∈ locks → w.isRegistered request.cellId →
      w'.isRegistered request.cellId)
    (horganization : (.organization organizationId,.exclusive) ∈ locks →
      w.receiptFor organizationId request = none →
        w'.receiptFor organizationId request = none ∧
          w'.placements organizationId = w.placements organizationId)
    (hreceipts : ∀ r ∈ w.receipts, r ∈ w'.receipts) :
    w'.GoodMutation known organizationId request locks phase := by
  have both (hb : w.HoldsBoth known organizationId request locks) :
      w'.HoldsBoth known organizationId request locks :=
    ⟨⟨hb.1.1,hcell hb.1.1 hb.1.2⟩,hb.2⟩
  cases phase with
  | lockingOrganization => exact ⟨h.1,hcell h.1 h.2⟩
  | receiving => exact both h
  | lockingPlacement => exact ⟨both h.1,(horganization h.1.2.1 h.2).1⟩
  | committing =>
    obtain ⟨hb,hnone,hmutated,hlock⟩ := h
    obtain ⟨hnone',hsame⟩ := horganization hb.2.1 hnone
    refine ⟨both hb,hnone',?_,?_⟩
    · rw [hsame]
      exact hmutated
    · rw [hsame]
      exact hlock
  | ended answer =>
    cases answer with
    | error => trivial
    | ok =>
      obtain ⟨r,hr,hrest⟩ := h
      exact ⟨r,hreceipts r hr,hrest⟩
  | authorizing | checking | lockingCell => trivial

theorem GoodExecution.frame {organizationId : ℕ} {workerCellId : Option ℕ}
    {route : Option PlacementSnapshot} {phase : ExecutePhase}
    (h : w.GoodExecution known organizationId workerCellId route locks phase)
    (hnone : w.placements organizationId = none → HoldsOrganization known organizationId locks →
      w'.placements organizationId = none) (hsome : ∀ p, w.placements organizationId = some p →
      (.placement organizationId,.shared) ∈ locks → w'.placements organizationId = some p) :
    w'.GoodExecution known organizationId workerCellId route locks phase := by
  cases phase with
  | working admitted =>
    cases admitted with
    | none => exact ⟨h.1,hnone h.2.1 h.2.2,h.2.2⟩
    | some =>
      obtain ⟨hworker,horg,hroute,⟨p,hp,hadmits⟩,hlock⟩ := h
      exact ⟨hworker,horg,hroute,⟨p,hsome p hp hlock,hadmits⟩,hlock⟩
  | lockingOrganization | reading | admittingCell | admittingPlacement => exact h
  | ended => trivial

theorem GoodRetirement.frame {cellId : ℕ} {phase : RetirePhase}
    (h : w.GoodRetirement cellId locks phase)
    (hcell : (.cell cellId,.exclusive) ∈ locks → ∀ c, w.cells[cellId]? = some c →
      w'.cells[cellId]? = some c) : w'.GoodRetirement cellId locks phase := by
  cases phase with
  | committing =>
    obtain ⟨hlock,c,hc,hrest⟩ := h
    exact ⟨hlock,c,hcell hlock c hc,hrest⟩
  | lockingCell | ended => trivial

end Frames

end World

/-- The accepted suspensions and resumptions of an organization. -/
def moves (receipts : List Receipt) (organizationId : ℕ) : ℕ :=
  receipts.countP fun r => r.organizationId = organizationId ∧ r.operation ≠ .assign

namespace World

structure Consistent (known : ℕ → Bool) (w : World) : Prop where
  once : ∀ (m n : ℕ) r s, w.receipts[m]? = some r → w.receipts[n]? = some s →
    r.organizationId = s.organizationId → r.operation = s.operation →
      r.idempotencyKey = s.idempotencyKey → m = n
  events : w.events = w.receipts.map Receipt.event
  unplaced : ∀ o, w.placements o = none → ∀ r ∈ w.receipts, r.organizationId ≠ o
  placed : ∀ o p, w.placements o = some p → known o ∧
    p.assignmentGeneration = 1+moves w.receipts o ∧
    ∃ c, w.cells[p.cellId]? = some c ∧ c.state = .registered ∧ c.hasPlacements
  receipts : ∀ r ∈ w.receipts, r.fingerprint.operation = r.operation ∧
    ∃ p, w.placements r.organizationId = some p ∧ p.cellId = r.fingerprint.cellId

structure Sound (known : ℕ → Bool) (w : World) : Prop where
  exclusion : Exclusion w.locks
  good : ∀ (i : ℕ) t, w.transactions[i]? = some t → w.Good known t
  consistent : Consistent known w

variable {known : ℕ → Bool} {w : World} {i : ℕ}

theorem initial_sound : Sound known initial := by
  refine ⟨?_,?_,?_⟩
  · intro i j r m n _ hi
    simp [locks,initial] at hi
  · intro i t ht
    simp [initial] at ht
  · constructor <;> simp [initial,moves]

section Locks

variable {work : Work} {held : List (Resource × Mode)} {t : Transaction}

theorem locks_of {t : Transaction} (h : w.transactions[i]? = some t) : w.locks i = t.locks := by
  simp [locks,h]

theorem locks_put (h : w.transactions[i]? = some t) (j : ℕ) :
    (w.put i work held).locks j = if j = i then held else w.locks j := by
  have hlt := (List.getElem?_eq_some_iff.mp h).1
  unfold locks put
  by_cases hj : j = i
  · rw [if_pos hj,hj]
    simp [hlt]
  · rw [if_neg hj]
    simp [List.getElem?_set_ne (Ne.symm hj)]

theorem put_cases (h : w.transactions[i]? = some t) {j : ℕ} {u : Transaction}
    (hu : (w.put i work held).transactions[j]? = some u) :
    j = i ∧ u = ⟨work,held⟩ ∨ j ≠ i ∧ w.transactions[j]? = some u := by
  have hlt := (List.getElem?_eq_some_iff.mp h).1
  unfold put at hu
  by_cases hj : j = i
  · rw [hj] at hu
    simp [hlt] at hu
    exact .inl ⟨hj,hu.symm⟩
  · rw [List.getElem?_set_ne (Ne.symm hj)] at hu
    exact .inr ⟨hj,hu⟩

theorem free_spec {r : Resource} {m : Mode} (h : w.free i r m) : Free w.locks i r m := by
  intro j n hj hn
  have hlt : j < w.transactions.length := by
    by_contra hge
    unfold locks at hn
    rw [List.getElem?_eq_none (not_lt.mp hge)] at hn
    cases hn
  have hall := List.all_eq_true.mp h j (List.mem_range.mpr hlt)
  rw [decide_eq_false hj,Bool.false_or] at hall
  have hone := List.all_eq_true.mp hall (r,n) hn
  simpa using hone

theorem Sound.put (h : Sound known w) (ht : w.transactions[i]? = some t)
    (hlocks : held = t.locks ∨ held = [] ∨
      ∃ r m, held = (r,m)::t.locks ∧ w.free i r m)
    (hgood : w.Good known ⟨work,held⟩) : Sound known (w.put i work held) := by
  refine ⟨?_,?_,?_⟩
  · have hother (j : ℕ) (hj : j ≠ i) : (w.put i work held).locks j = w.locks j := by
      rw [locks_put ht,if_neg hj]
    have hself : (w.put i work held).locks i = held := by
      rw [locks_put ht,if_pos rfl]
    have released (hheld : held ⊆ t.locks) : Exclusion (w.put i work held).locks := by
      refine h.exclusion.release ?_
      intro j k hk
      by_cases hj : j = i
      · rw [hj,hself] at hk
        rw [hj,locks_of ht]
        exact hheld hk
      · rw [hother j hj] at hk
        exact hk
    rcases hlocks with rfl | rfl | ⟨r,m,rfl,hfree⟩
    · exact released (List.Subset.refl _)
    · exact released (List.nil_subset _)
    · refine h.exclusion.acquire (free_spec hfree) ?_ hother
      intro k hk
      rw [hself] at hk
      rw [locks_of ht]
      exact List.mem_cons.mp hk
  · intro j u hu
    rcases put_cases ht hu with ⟨-,rfl⟩ | ⟨-,hu⟩
    · exact hgood
    · exact h.good j u hu
  · exact ⟨h.consistent.once,h.consistent.events,h.consistent.unplaced,h.consistent.placed,
      h.consistent.receipts⟩

end Locks

section Mutation

variable {organizationId : ℕ} {request : PlacementMutation} {p : Placement}
  {held : List (Resource × Mode)}

theorem isRegistered_cell {cellId : ℕ} (h : w.isRegistered cellId) :
    ∃ c, w.cells[cellId]? = some c ∧ c.state = .registered := by
  unfold isRegistered at h
  cases hc : w.cells[cellId]? with
  | none =>
    rw [hc] at h
    cases h
  | some c =>
    rw [hc] at h
    exact ⟨c,rfl,of_decide_eq_true h⟩

theorem isRegistered_modify {cells : List Cell} {k : ℕ} {f : Cell → Cell}
    (hf : ∀ c, (f c).state = c.state) (j : ℕ) :
    ((cells.modify k f)[j]?.any fun c => c.state = .registered) =
      (cells[j]?.any fun c => c.state = .registered) := by
  rw [List.getElem?_modify]
  cases cells[j]? with
  | none => rfl
  | some =>
    by_cases hk : k = j
    · simp [hk,hf]
    · simp [hk]

theorem mutationWritten_isRegistered (j : ℕ) :
    (w.mutationWritten organizationId request p).isRegistered j = w.isRegistered j := by
  unfold isRegistered mutationWritten
  dsimp only
  split_ifs
  · apply isRegistered_modify
    intro c
    rfl
  · rfl

structure Commits (known : ℕ → Bool) (w : World) (organizationId : ℕ)
    (request : PlacementMutation) (p : Placement) (i : ℕ) : Prop where
  cell : (.cell request.cellId,.exclusive) ∈ w.locks i
  registered : w.isRegistered request.cellId
  organization : (.organization organizationId,.exclusive) ∈ w.locks i
  known_ : known organizationId
  fresh : w.receiptFor organizationId request = none
  mutated : Mutated request (w.placements organizationId) p
  placement : (w.placements organizationId).isSome →
    (.placement organizationId,.exclusive) ∈ w.locks i

theorem Commits.others (h : Sound known w) (hc : Commits known w organizationId request p i)
    {j : ℕ} {t : Transaction} (hj : j ≠ i) (ht : w.transactions[j]? = some t) :
    (w.mutationWritten organizationId request p).Good known t := by
  have hgood := h.good j t ht
  have hlocks := locks_of ht
  -- nobody else holds what the mutation holds alone
  have alone {r : Resource} {m : Mode} (hmine : (r,.exclusive) ∈ w.locks i) :
      (r,m) ∉ t.locks := by
    intro htheirs
    rw [← hlocks] at htheirs
    exact hj (h.exclusion.alone hmine htheirs).symm
  unfold Good at hgood ⊢
  split at hgood
  · rename_i o _ phase hwork
    refine GoodMutation.frame hgood ?_ ?_ ?_
    · intro _ hreg
      rw [mutationWritten_isRegistered]
      exact hreg
    · intro horg hnone
      have hne : o ≠ organizationId := by
        rintro rfl
        exact alone hc.organization horg
      refine ⟨receiptFor_of_none ?_,Function.update_of_ne hne _ _⟩
      intro r hr
      rcases List.mem_append.mp hr with hr | hr
      · exact receiptFor_none hnone r hr
      · rw [List.mem_singleton.mp hr]
        intro hanswers
        exact hne hanswers.1.symm
    · intro r hr
      exact List.mem_append_left _ hr
  · rename_i o _ _ phase hwork
    refine GoodExecution.frame hgood ?_ ?_
    · intro hnone hholds
      have hne : o ≠ organizationId := by
        rintro rfl
        exact alone hc.organization (hholds hc.known_)
      exact (Function.update_of_ne hne _ _).trans hnone
    · intro q hq hlock
      have hne : o ≠ organizationId := by
        rintro rfl
        refine alone (hc.placement ?_) hlock
        rw [hq]
        rfl
      exact (Function.update_of_ne hne _ _).trans hq
  · rename_i cellId _ _
    refine GoodRetirement.frame hgood ?_
    intro hlock c hcell
    have hne : request.cellId ≠ cellId := by
      rintro rfl
      exact alone hc.cell hlock
    simp only [mutationWritten]
    split_ifs
    · rw [List.getElem?_modify_ne _ _ hne,hcell]
    · exact hcell

theorem moves_append (receipts : List Receipt) (r : Receipt) (o : ℕ) :
    moves (receipts++[r]) o = moves receipts o+
      (if r.organizationId = o ∧ r.operation ≠ .assign then 1 else 0) := by
  simp [moves,List.countP_append,List.countP_singleton]

theorem moves_zero {o : ℕ} (h : ∀ r ∈ w.receipts, r.organizationId ≠ o) :
    moves w.receipts o = 0 := by
  apply List.countP_eq_zero.mpr
  intro r hr
  simp [h r hr]

theorem Commits.consistent (h : Sound known w) (hc : Commits known w organizationId request p i) :
    Consistent known (w.mutationWritten organizationId request p) := by
  have hcons := h.consistent
  have hfresh := receiptFor_none hc.fresh
  -- the cell of the placement, which is registered, has a placement afterwards
  have hcell : p.cellId = request.cellId ∧
      p.assignmentGeneration = 1+moves (w.receipts++[receiptOf organizationId request p])
        organizationId ∧
      ∃ c, (w.mutationWritten organizationId request p).cells[p.cellId]? = some c ∧
        c.state = .registered ∧ c.hasPlacements := by
    rw [moves_append]
    obtain ⟨c,hcell,hreg⟩ := isRegistered_cell hc.registered
    have hmutated := hc.mutated
    generalize hpl : w.placements organizationId = pl at hmutated
    cases hmutated with
    | assigned _ hop =>
      refine ⟨rfl,?_,?_⟩
      · rw [moves_zero (hcons.unplaced organizationId hpl)]
        simp [receiptOf,hop]
      · refine ⟨{ c with hasPlacements := true },?_,hreg,rfl⟩
        simp [mutationWritten,hop,hcell]
    | suspended q hop hq _ _ | resumed q hop hq _ _ =>
      obtain ⟨-,hgen,c',hc',hreg',hhas⟩ := hcons.placed organizationId q hpl
      refine ⟨hq,?_,c',?_,hreg',hhas⟩
      · dsimp only
        rw [hgen]
        simp [receiptOf,hop]
        omega
      · simp [mutationWritten,hop,hc']
  constructor
  case once =>
    intro m n r s hr hs horg hop hkey
    rcases Batch.concat_cases hr with ⟨hm,hr'⟩ | hr'
    · rcases Batch.concat_cases hs with ⟨hn,-⟩ | hs'
      · rw [hm,hn]
      · rw [hr'] at horg hop hkey
        exact absurd ⟨horg.symm,hop.symm,hkey.symm⟩ (hfresh s (List.mem_of_getElem? hs'))
    · rcases Batch.concat_cases hs with ⟨-,hs'⟩ | hs'
      · rw [hs'] at horg hop hkey
        exact absurd ⟨horg,hop,hkey⟩ (hfresh r (List.mem_of_getElem? hr'))
      · exact hcons.once m n r s hr' hs' horg hop hkey
  case events =>
    simp only [mutationWritten,List.map_append,List.map_cons,List.map_nil]
    rw [hcons.events]
  case unplaced =>
    intro o ho r hr
    have hne : o ≠ organizationId := by
      rintro rfl
      simp [mutationWritten] at ho
    simp only [mutationWritten,Function.update_of_ne hne] at ho
    rcases List.mem_append.mp hr with hr | hr
    · exact hcons.unplaced o ho r hr
    · rw [List.mem_singleton.mp hr]
      exact Ne.symm hne
  case placed =>
    intro o q hq
    by_cases ho : o = organizationId
    · subst ho
      simp only [mutationWritten,Function.update_self,Option.some.injEq] at hq
      subst hq
      exact ⟨hc.known_,hcell.2⟩
    · simp only [mutationWritten,Function.update_of_ne ho] at hq
      obtain ⟨hknown,hgen,c,hcq,hreg,hhas⟩ := hcons.placed o q hq
      refine ⟨hknown,?_,?_⟩
      · rw [hgen]
        simp only [mutationWritten]
        rw [moves_append,if_neg fun hsame => ho hsame.1.symm,add_zero]
      · simp only [mutationWritten]
        split_ifs
        · by_cases hk : request.cellId = q.cellId
          · refine ⟨{ c with hasPlacements := true },?_,hreg,rfl⟩
            rw [hk]
            simp [hcq]
          · exact ⟨c,by rw [List.getElem?_modify_ne _ _ hk,hcq],hreg,hhas⟩
        · exact ⟨c,hcq,hreg,hhas⟩
  case receipts =>
    intro r hr
    rcases List.mem_append.mp hr with hr | hr
    · obtain ⟨hop,q,hq,hqc⟩ := hcons.receipts r hr
      refine ⟨hop,?_⟩
      by_cases ho : r.organizationId = organizationId
      · refine ⟨p,by simp [mutationWritten,ho],?_⟩
        rw [ho] at hq
        have hmutated := hc.mutated
        rw [hq] at hmutated
        rw [← hqc]
        cases hmutated <;> rfl
      · exact ⟨q,by simp [mutationWritten,Function.update_of_ne ho,hq],hqc⟩
    · rw [List.mem_singleton.mp hr]
      exact ⟨rfl,p,by simp [mutationWritten,receiptOf],hcell.1⟩

end Mutation

end World

end NexusAi.Cells
