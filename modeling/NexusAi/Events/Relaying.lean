import NexusAi.Lib.Run
import NexusAi.Events.Outbox
import NexusAi.Lib.Batch

/-!
# No event is lost or resurrected by relays

A worker claims a batch in one transaction and goes through it item by item. An
item is published, and what came of it is written in a transaction of its own. A
crash, a failing transaction and an exception that the relay does not catch all
end the batch where it stands: the rows that were left over are claimed again
after their lease. No write asks who has claimed the row last, so what a worker
writes has to find the row open.
-/

namespace NexusAi.Events

/-- Where a worker stands: the items it still has to publish, an item that was
acknowledged or that failed, with those behind it. -/
inductive Phase where
  | batch (items : List OutboxItem)
  | acknowledged (item : OutboxItem) (rest : List OutboxItem)
  | raised (item : OutboxItem) (failure : Failure) (rest : List OutboxItem)

structure Worker where
  name : String
  phase : Phase

structure Relays where
  rows : List OutboxRow
  letters : List DeadLetterRow
  workers : List Worker
  /-- The events for which the broker has acknowledged a publication. -/
  acknowledged : List ℕ

def Relays.initial (names : List String) : Relays := ⟨[],[],names.map fun n => ⟨n,.batch []⟩,[]⟩

namespace Relays

def enter (w : Relays) (i : ℕ) (phase : Phase) : Relays :=
  { w with workers := w.workers.modify i fun k => { k with phase := phase } }

/-- The transaction of `_dead_letter`: the letter needs an envelope that parses. -/
def deadLetter (w : Relays) (item : OutboxItem) (classified cause : Failure) : Relays :=
  { w with
    rows := markDead item.id (safeErrorCode cause) w.rows
    letters := match item.envelope with
      | none => w.letters
      | some envelope => record envelope .outboxPublish (classifyFailure classified)
          (safeErrorCode cause) item.attemptCount none w.letters }

/-- The transaction of `_handle_transient`. -/
def handleTransient (s : EventsSettings) (w : Relays) (item : OutboxItem) (failure : Failure)
    (now : ℤ) : Relays :=
  if shouldDeadLetter item.attemptCount s.maxPublishAttempts then
    w.deadLetter item failure failure
  else { w with
    rows := reschedule item.id (safeErrorCode failure)
      (now+backoffDelay item.attemptCount s.retryBaseDelay s.retryMaxDelay) w.rows }

/-- What is written after an item failed. -/
def settleFailure (s : EventsSettings) (w : Relays) (item : OutboxItem) (failure : Failure)
    (now : ℤ) : Relays :=
  match item.envelope with
  | none => w.deadLetter item (.platform .contractInvalid) failure
  | some _ =>
    if classifyFailure failure = .retryable then w.handleTransient s item failure now
    else w.deadLetter item failure failure

end Relays

inductive RelayAction where
  | enqueue (envelope : EventEnvelope) (subject : String) (readable : Bool) (now : ℤ)
  | claim (worker : ℕ) (now : ℤ) (skipped : List ℕ)
  | publish (worker : ℕ) (outcome : Option Failure)
  | settle (worker : ℕ) (now : ℤ)
  | crash (worker : ℕ)

/-- What the validation of a stored envelope raises. -/
def validationError : Failure := .foreign ["ValidationError","ValueError","Exception"]

namespace Relays

def claimStep (s : EventsSettings) (w : Relays) (i : ℕ) (now : ℤ) (skipped : List ℕ) : Relays :=
  match w.workers[i]? with
  | some ⟨name,.batch []⟩ =>
    let claimed := claimBatch name s.publisherBatchSize s.publisherLeaseSeconds now skipped w.rows
    { w with rows := claimed.2 }.enter i (.batch claimed.1)
  | _ => w

/-- An item that does not parse is not published. An exception that is none of
the platform's leaves the batch. -/
def publishStep (w : Relays) (i : ℕ) (outcome : Option Failure) : Relays :=
  match w.workers[i]? with
  | some ⟨_,.batch (item::rest)⟩ =>
    match item.envelope, outcome with
    | none, _ => w.enter i (.raised item validationError rest)
    | some _, none => { w with acknowledged := item.id::w.acknowledged }.enter i
        (.acknowledged item rest)
    | some _, some (.platform error) => w.enter i (.raised item (.platform error) rest)
    | some _, some _ => w.enter i (.batch [])
  | _ => w

def settleStep (s : EventsSettings) (w : Relays) (i : ℕ) (now : ℤ) : Relays :=
  match w.workers[i]? with
  | some ⟨_,.acknowledged item rest⟩ =>
    { w with rows := markPublished item.id now w.rows }.enter i (.batch rest)
  | some ⟨_,.raised item failure rest⟩ =>
    (w.settleFailure s item failure now).enter i (.batch rest)
  | _ => w

def step (s : EventsSettings) (w : Relays) : RelayAction → Relays
  | .enqueue envelope subject readable now =>
    { w with rows := Events.enqueue envelope subject readable now w.rows }
  | .claim i now skipped => w.claimStep s i now skipped
  | .publish i outcome => w.publishStep i outcome
  | .settle i now => w.settleStep s i now
  | .crash i => w.enter i (.batch [])

/-- The state that workers of the given names reach. -/
def reach (s : EventsSettings) (names : List String) (as : List RelayAction) : Relays :=
  Run.exec (step s) as (initial names)

end Relays

def Phase.items : Phase → List OutboxItem
  | .batch items => items
  | .acknowledged item rest => item::rest
  | .raised item _ rest => item::rest

/-- The row can still be claimed, or was acknowledged and published, or is dead
with a letter and was never acknowledged. -/
def OutboxRow.Accounted (letters : List DeadLetterRow) (acknowledged : List ℕ)
    (row : OutboxRow) : Prop :=
  match row.status with
  | .pending | .failed => True
  | .publishing => row.leaseExpiresAt ≠ none
  | .published => row.id ∈ acknowledged
  | .dead => (∃ letter ∈ letters, letter.identity = (row.id,.outboxPublish,none)) ∧
      row.id ∉ acknowledged

namespace Relays

/-- An item that failed is given up at once or after its last attempt. -/
def givesUp (s : EventsSettings) (item : OutboxItem) (failure : Failure) : Bool :=
  item.envelope.isNone || classifyFailure failure != .retryable ||
    shouldDeadLetter item.attemptCount s.maxPublishAttempts

/-- An event is not acknowledged when its row is dead, and the row of an item that failed is
still open. What is given up has an envelope that parses and was not acknowledged. -/
def orderly (s : EventsSettings) (w : Relays) : RelayAction → Bool
  | .publish i none => (w.workers[i]?).all fun k => match k.phase with
      | .batch (item::_) => w.rows.all fun r => r.id = item.id → r.status ≠ .dead
      | _ => true
  | .settle i _ => (w.workers[i]?).all fun k => match k.phase with
      | .raised item failure _ =>
        (w.rows.all fun r => r.id = item.id → ¬ (r.status = .published ∨ r.status = .dead)) &&
          (!givesUp s item failure || item.envelope.isSome && item.id ∉ w.acknowledged)
      | _ => true
  | _ => true

def Stored (w : Relays) (item : OutboxItem) : Prop :=
  ∃ r ∈ w.rows, r.id = item.id ∧ r.envelope = item.envelope

structure Kept (w : Relays) : Prop where
  keyed : Table.Keyed OutboxRow.id w.rows
  envelopes : ∀ r ∈ w.rows, ∀ e ∈ r.envelope, e.eventId = r.id ∧ e.organizationId ≠ none
  held : ∀ k ∈ w.workers, ∀ item ∈ k.phase.items, w.Stored item
  known : ∀ k ∈ w.workers, ∀ item rest, k.phase = .acknowledged item rest →
    item.id ∈ w.acknowledged
  accounted : ∀ r ∈ w.rows, r.Accounted w.letters w.acknowledged

/-- What a step keeps. No row goes away, and one at its end stays as it is. -/
structure Follows (w w' : Relays) : Prop where
  kept : w'.Kept
  ended : ∀ r ∈ w.rows, ∃ r' ∈ w'.rows, r'.id = r.id ∧
    (r.status = .published ∨ r.status = .dead → r'.status = r.status)

end Relays

/-- A transaction leaves the rows their envelopes, and those at their end their status. -/
structure Rewrites (rows rows' : List OutboxRow) : Prop where
  ids : rows'.map OutboxRow.id = rows.map OutboxRow.id
  before : ∀ r' ∈ rows', ∃ r ∈ rows, r'.id = r.id ∧ r'.envelope = r.envelope ∧
    (r.status = .published ∨ r.status = .dead → r'.status = r.status)

section Steps

variable {s : EventsSettings} {w w' : Relays} {i : ℕ} {k : Worker} {phase : Phase}
  {rows rows' : List OutboxRow}

theorem rewrites_refl : Rewrites rows rows :=
  ⟨rfl,fun r hr => ⟨r,hr,rfl,rfl,fun _ => rfl⟩⟩

theorem rewrites_edit {ids : List ℕ} {f : OutboxRow → OutboxRow}
    (hf : ∀ r, (f r).id = r.id ∧ (f r).envelope = r.envelope)
    (hends : ∀ r ∈ rows, r.id ∈ ids → r.status = .published ∨ r.status = .dead →
      (f r).status = r.status) : Rewrites rows (Table.edit OutboxRow.id ids f rows) := by
  refine ⟨Table.map_edit fun r _ _ => (hf r).1,fun r' hr' => ?_⟩
  rcases Table.mem_edit.mp hr' with ⟨r,hr,hm,rfl⟩ | ⟨hr',-⟩
  · exact ⟨r,hr,(hf r).1,(hf r).2,hends r hr hm⟩
  · exact ⟨r',hr',rfl,rfl,fun _ => rfl⟩

theorem Rewrites.after (h : Rewrites rows rows') (hkeyed : Table.Keyed OutboxRow.id rows)
    {r : OutboxRow} (hr : r ∈ rows) : ∃ r' ∈ rows', r'.id = r.id ∧ r'.envelope = r.envelope ∧
      (r.status = .published ∨ r.status = .dead → r'.status = r.status) := by
  have hid := List.mem_map_of_mem (f := OutboxRow.id) hr
  rw [← h.ids] at hid
  obtain ⟨r',hr',hid⟩ := List.mem_map.mp hid
  obtain ⟨r₀,hr₀,hid₀,hrest⟩ := h.before r' hr'
  obtain rfl := Table.mem_unique hkeyed hr₀ hr (hid₀.symm.trans hid)
  exact ⟨r',hr',hid,hrest⟩

theorem Relays.Kept.refl (hw : w.Kept) : w.Follows w :=
  ⟨hw,fun r hr => ⟨r,hr,rfl,fun _ => rfl⟩⟩

section

variable (hw : w.Kept) (hi : w.workers[i]? = some k)

include hw hi

/-- One worker goes on. -/
theorem Relays.Kept.changed (hworkers : w'.workers = (w.enter i phase).workers)
    (hrows : Rewrites w.rows w'.rows) (hheld : ∀ item ∈ phase.items, w.Stored item)
    (hold : ∀ id ∈ w.acknowledged, id ∈ w'.acknowledged)
    (hknown : ∀ item rest, phase = .acknowledged item rest → item.id ∈ w'.acknowledged)
    (haccounted : ∀ r ∈ w'.rows, r.Accounted w'.letters w'.acknowledged) : w.Follows w' := by
  have hstored : ∀ item, w.Stored item → w'.Stored item := by
    rintro item ⟨r,hr,hid,henvelope⟩
    obtain ⟨r',hr',hid',henvelope',-⟩ := hrows.after hw.keyed hr
    exact ⟨r',hr',hid'.trans hid,henvelope'.trans henvelope⟩
  refine ⟨⟨?_,?_,?_,?_,haccounted⟩,fun r hr => ?_⟩
  · rw [Table.Keyed,hrows.ids]
    exact hw.keyed
  · intro r' hr' e he
    obtain ⟨r,hr,hid,henvelope,-⟩ := hrows.before r' hr'
    rw [hid]
    exact hw.envelopes r hr e (henvelope ▸ he)
  · intro k' hk' item hitem
    rw [hworkers] at hk'
    rcases Batch.mem_modify hi hk' with rfl | hk'
    · exact hstored item (hheld item hitem)
    · exact hstored item (hw.held k' hk' item hitem)
  · intro k' hk' item rest hphase
    rw [hworkers] at hk'
    rcases Batch.mem_modify hi hk' with rfl | hk'
    · exact hknown item rest hphase
    · exact hold _ (hw.known k' hk' item rest hphase)
  · obtain ⟨r',hr',hid,-,hends⟩ := hrows.after hw.keyed hr
    exact ⟨r',hr',hid,hends⟩

theorem Relays.Kept.moved (hitems : ∀ item ∈ phase.items, item ∈ k.phase.items)
    (hnew : ∀ item rest, phase ≠ .acknowledged item rest) : w.Follows (w.enter i phase) :=
  hw.changed hi rfl rewrites_refl
    (fun item hitem => hw.held k (List.mem_of_getElem? hi) item (hitems item hitem))
    (fun _ => id) (fun item rest h => absurd h (hnew item rest)) hw.accounted

end

theorem OutboxRow.Accounted.acknowledge {letters : List DeadLetterRow} {acknowledged : List ℕ}
    {row : OutboxRow} {id : ℕ} (h : row.Accounted letters acknowledged)
    (hid : row.id = id → row.status ≠ .dead) : row.Accounted letters (id::acknowledged) := by
  unfold OutboxRow.Accounted at h ⊢
  cases hs : row.status with
  | published =>
    rw [hs] at h
    exact List.mem_cons_of_mem _ h
  | dead =>
    rw [hs] at h hid
    refine ⟨h.1,?_⟩
    rw [List.mem_cons,not_or]
    exact ⟨fun he => hid he rfl,h.2⟩
  | _ =>
    rw [hs] at h
    exact h

variable {item : OutboxItem} {rest : List OutboxItem} {batchSize : ℕ} {now : ℤ} {skipped : List ℕ}
  {failure : Failure}

theorem Relays.Kept.acknowledge (hw : w.Kept) (hi : w.workers[i]? = some k)
    (hphase : k.phase = .batch (item::rest))
    (hopen : ∀ r ∈ w.rows, r.id = item.id → r.status ≠ .dead) :
    w.Follows ({ w with acknowledged := item.id::w.acknowledged }.enter i
      (.acknowledged item rest)) := by
  have hheld := hw.held k (List.mem_of_getElem? hi)
  rw [hphase] at hheld
  refine hw.changed hi rfl rewrites_refl hheld (fun _ => List.mem_cons_of_mem _) ?_ ?_
  · rintro _ _ ⟨⟩
    exact List.mem_cons_self
  · exact fun r hr => (hw.accounted r hr).acknowledge (hopen r hr)

theorem Relays.Kept.settled (hw : w.Kept) (hi : w.workers[i]? = some k)
    (hitems : k.phase.items = item::rest) {f : OutboxRow → OutboxRow}
    (hf : ∀ r, (f r).id = r.id ∧ (f r).envelope = r.envelope) {letters : List DeadLetterRow}
    (hletters : ∀ l ∈ w.letters, l ∈ letters)
    (hends : ∀ r ∈ w.rows, r.id = item.id → r.status = .published ∨ r.status = .dead →
      (f r).status = r.status)
    (haccounted : ∀ r ∈ w.rows, r.id = item.id → r.envelope = item.envelope →
      (f r).Accounted letters w.acknowledged) :
    w.Follows ({ w with
      rows := Table.edit OutboxRow.id [item.id] f w.rows, letters := letters }.enter i
        (.batch rest)) := by
  have hheld := hw.held k (List.mem_of_getElem? hi)
  rw [hitems] at hheld
  obtain ⟨r,hr,hid,henvelope⟩ := hheld item List.mem_cons_self
  refine hw.changed hi rfl
    (rewrites_edit hf fun r hr hm => hends r hr (List.mem_singleton.mp hm))
    (fun it hit => hheld it (List.mem_cons_of_mem _ hit)) (fun _ => id)
    (fun _ _ h => by cases h) ?_
  intro r' hr'
  rcases Table.mem_edit.mp hr' with ⟨r₀,hr₀,hm,rfl⟩ | ⟨hr',-⟩
  · have hid₀ := List.mem_singleton.mp hm
    obtain rfl := Table.mem_unique hw.keyed hr₀ hr (hid₀.trans hid.symm)
    exact haccounted r₀ hr₀ hid henvelope
  · have hold := hw.accounted r' hr'
    unfold OutboxRow.Accounted at hold ⊢
    cases hs : r'.status with
    | dead =>
      rw [hs] at hold
      obtain ⟨⟨l,hl,hident⟩,hnot⟩ := hold
      exact ⟨⟨l,hletters l hl,hident⟩,hnot⟩
    | _ =>
      rw [hs] at hold
      exact hold

theorem mem_candidates {rows : List OutboxRow} {id : ℕ}
    (h : id ∈ candidates batchSize now skipped rows) :
    ∃ r ∈ rows, r.id = id ∧ r.claimable now := by
  obtain ⟨r,hr,hid⟩ := List.mem_map.mp h
  have hmem := (List.mem_filter.mp ((List.mem_insertionSort _).mp (List.mem_of_mem_take hr)))
  exact ⟨r,hmem.1,hid,(Bool.and_eq_true_iff.mp hmem.2).1⟩

theorem OutboxRow.claimable_open {r : OutboxRow} (h : r.claimable now) :
    r.status ≠ .published ∧ r.status ≠ .dead := by
  unfold OutboxRow.claimable at h
  cases hs : r.status <;> simp [hs] at h ⊢

theorem Relays.Kept.claimed (hw : w.Kept) (hi : w.workers[i]? = some k) {owner : String}
    {leaseSeconds : ℕ} : w.Follows ({ w with
      rows := (claimBatch owner batchSize leaseSeconds now skipped w.rows).2 }.enter i
        (.batch (claimBatch owner batchSize leaseSeconds now skipped w.rows).1)) := by
  have hrows : Rewrites w.rows (claimBatch owner batchSize leaseSeconds now skipped w.rows).2 := by
    refine rewrites_edit (fun _ => ⟨rfl,rfl⟩) fun r hr hid hend => ?_
    obtain ⟨_,hr',hid',hclaim⟩ := mem_candidates hid
    rw [Table.mem_unique hw.keyed hr hr' hid'.symm] at hend
    obtain ⟨hpublished,hdead⟩ := OutboxRow.claimable_open hclaim
    exact (hend.elim hpublished hdead).elim
  refine hw.changed hi rfl hrows ?_ (fun _ => id) (fun _ _ h => by cases h) ?_
  · intro item hitem
    obtain ⟨r',hr',rfl⟩ := List.mem_map.mp hitem
    obtain ⟨r,hr,hid,henvelope,-⟩ := hrows.before r' (List.mem_filter.mp hr').1
    exact ⟨r,hr,hid.symm,henvelope.symm⟩
  · refine Table.forall_edit hw.accounted fun r _ _ _ => ?_
    simp [OutboxRow.Accounted,OutboxRow.claimed]

theorem enqueue_cases (envelope : EventEnvelope) (subject : String) (readable : Bool) (now : ℤ)
    (rows : List OutboxRow) : enqueue envelope subject readable now rows = rows ∨
      ∃ row, enqueue envelope subject readable now rows = rows++[row] ∧
        (∀ r ∈ rows, r.id ≠ row.id) ∧ row.status = .pending ∧
        ∀ e ∈ row.envelope, e.eventId = row.id ∧ e.organizationId ≠ none := by
  unfold enqueue
  split
  · exact .inl rfl
  · rename_i horg
    by_cases hfound : (Table.find OutboxRow.id envelope.eventId rows).isSome
    · rw [if_pos hfound]
      exact .inl rfl
    · rw [if_neg hfound]
      refine .inr ⟨_,rfl,?_,rfl,?_⟩
      · exact Table.find_none (Option.not_isSome_iff_eq_none.mp hfound)
      · intro e he
        cases readable with
        | false => cases he
        | true =>
          cases he
          exact ⟨rfl,by simp [horg]⟩

theorem Relays.Kept.enqueued (hw : w.Kept) (envelope : EventEnvelope) (subject : String)
    (readable : Bool) (now : ℤ) :
    w.Follows { w with rows := enqueue envelope subject readable now w.rows } := by
  rcases enqueue_cases envelope subject readable now w.rows with
    hsame | ⟨row,happend,hnew,hpending,henvelope⟩
  · rw [hsame]
    exact hw.refl
  · rw [happend]
    refine ⟨⟨Table.keyed_append hw.keyed hnew,?_,?_,hw.known,?_⟩,fun r hr =>
      ⟨r,List.mem_append_left _ hr,rfl,fun _ => rfl⟩⟩
    · intro r hr
      rcases Table.mem_concat hr with hr | rfl
      · exact hw.envelopes r hr
      · exact henvelope
    · intro k' hk' item hitem
      obtain ⟨r,hr,hrest⟩ := hw.held k' hk' item hitem
      exact ⟨r,List.mem_append_left _ hr,hrest⟩
    · intro r hr
      rcases Table.mem_concat hr with hr | rfl
      · exact hw.accounted r hr
      · rw [OutboxRow.Accounted,hpending]
        trivial

section

variable (hw : w.Kept) (hi : w.workers[i]? = some k) (hphase : k.phase = .raised item failure rest)
  (hopen : ∀ r ∈ w.rows, r.id = item.id → ¬ (r.status = .published ∨ r.status = .dead))

include hw hi hphase hopen

theorem Relays.Kept.deadLettered {envelope : EventEnvelope}
    (henvelope : item.envelope = some envelope) (hack : item.id ∉ w.acknowledged)
    (classified cause : Failure) :
    w.Follows ((w.deadLetter item classified cause).enter i (.batch rest)) := by
  have hletter : (w.deadLetter item classified cause).letters =
      record envelope .outboxPublish (classifyFailure classified) (safeErrorCode cause)
        item.attemptCount none w.letters := by
    simp only [Relays.deadLetter,henvelope]
  have hrows : w.deadLetter item classified cause = { w with
      rows := markDead item.id (safeErrorCode cause) w.rows
      letters := (w.deadLetter item classified cause).letters } := rfl
  rw [hrows]
  refine hw.settled hi (by rw [hphase]; rfl) ?_ ?_
    (fun r hr hid hend => absurd hend (hopen r hr hid)) ?_
  · exact fun _ => ⟨rfl,rfl⟩
  · intro l hl
    rw [hletter]
    exact mem_record hl
  · intro r hr hid henv
    obtain ⟨heid,horg⟩ := hw.envelopes r hr envelope (by rw [henv]; exact henvelope)
    obtain ⟨l,hl,hident⟩ := recorded envelope horg .outboxPublish (classifyFailure classified)
      (safeErrorCode cause) item.attemptCount none w.letters
    refine ⟨⟨l,by rw [hletter]; exact hl,?_⟩,?_⟩
    · rw [hident,heid]
    · change r.id ∉ w.acknowledged
      rw [hid]
      exact hack

theorem Relays.Kept.failed (hgives : Relays.givesUp s item failure →
    item.envelope.isSome ∧ item.id ∉ w.acknowledged) (now : ℤ) :
    w.Follows ((w.settleFailure s item failure now).enter i (.batch rest)) := by
  cases henvelope : item.envelope with
  | none => simp [Relays.givesUp,henvelope] at hgives
  | some =>
    have hdead := fun h => hw.deadLettered hi hphase hopen henvelope (hgives h).2 failure failure
    simp only [Relays.settleFailure,henvelope,Relays.handleTransient]
    split_ifs with hretryable hlast
    · exact hdead (by simp [Relays.givesUp,hlast])
    · refine hw.settled hi (by rw [hphase]; rfl) ?_ (fun _ hl => hl)
        (fun r hr hid hend => absurd hend (hopen r hr hid)) ?_
      · exact fun _ => ⟨rfl,rfl⟩
      · intro r _ _ _
        trivial
    · exact hdead (by simp [Relays.givesUp,hretryable])

end

end Steps

end NexusAi.Events
