import NexusAi.Lib.Paging
import NexusAi.Lib.Table

/-!
# Listing messages and conversations

Both listings are ordered by a time and, among equal times, by id, the latest
row first. The cursor of a page is the id of its last row alone. Ids are the
128-bit numbers that identifiers are compared as.
-/

namespace NexusAi.Messaging
open NexusAi.Paging

structure MessageRecord where
  (id conversationId : ℕ)
  createdAt : ℤ
  deriving DecidableEq

structure ConversationRecord where
  id : ℕ
  customerId : Option ℕ
  openedAt : ℤ

section

variable {R : Type*} (time : R → ℤ) (id : R → ℕ)

def Newer (r s : R) : Prop := time s < time r ∨ time s = time r ∧ id s < id r

/-- The order of a listing: by time and id, both descending. -/
def latest (rows : List R) : List R :=
  rows.insertionSort fun r s => time s < time r ∨ time s = time r ∧ id s ≤ id r

def page (rows : List R) (after : Option ℕ) (limit : ℕ) : List R :=
  (latest time id (below id after rows)).take limit

end

def listForConversation (rows : List MessageRecord) (conversationId : ℕ) (after : Option ℕ)
    (limit : ℕ) : List MessageRecord :=
  page MessageRecord.createdAt MessageRecord.id
    (rows.filter fun r => r.conversationId = conversationId) after (limit+1)

def listMessages (rows : List MessageRecord) (conversationId limit : ℕ) (after : Option ℕ) :
    List MessageRecord :=
  (listForConversation rows conversationId after limit).take limit

def forCustomer (rows : List ConversationRecord) (customerId : ℕ) (after : Option ℕ)
    (limit : ℕ) : List ConversationRecord :=
  page ConversationRecord.openedAt ConversationRecord.id
    (rows.filter fun r => r.customerId = some customerId) after (limit+1)

def listForCustomer (rows : List ConversationRecord) (customerId limit : ℕ) (after : Option ℕ) :
    List ConversationRecord :=
  (forCustomer rows customerId after limit).take limit

section

variable {R : Type*} {time : R → ℤ} {id : R → ℕ} {rows : List R}

theorem newer_asymm (r s : R) (h : Newer time id r s) : ¬ Newer time id s r := by
  unfold Newer at *
  omega

theorem latest_pairwise (hrows : Table.Keyed id rows) :
    (latest time id rows).Pairwise (Newer time id) := by
  have : Std.Total fun r s : R => time s < time r ∨ time s = time r ∧ id s ≤ id r :=
    ⟨fun r s => by omega⟩
  have : IsTrans R fun r s : R => time s < time r ∨ time s = time r ∧ id s ≤ id r :=
    ⟨fun r s t => by omega⟩
  have hsorted := List.pairwise_insertionSort
    (fun r s : R => time s < time r ∨ time s = time r ∧ id s ≤ id r) rows
  have hkeys : (latest time id rows).Pairwise fun r s => id r ≠ id s := by
    rw [← List.pairwise_map]
    exact ((List.perm_insertionSort _ rows).map id).nodup_iff.mpr hrows
  refine hsorted.imp₂ ?_ hkeys
  intro r s hrs hne
  unfold Newer
  omega

theorem latest_filter (hrows : Table.Keyed id rows) (p : R → Bool) :
    latest time id (rows.filter p) = (latest time id rows).filter p := by
  refine List.Perm.eq_of_pairwise ?_ (latest_pairwise ?_) ((latest_pairwise hrows).filter p) ?_
  · exact fun r s _ _ hrs hsr => absurd hsr (newer_asymm r s hrs)
  · exact hrows.sublist (List.filter_sublist.map id)
  · exact (List.perm_insertionSort _ _).trans ((List.perm_insertionSort _ rows).filter p).symm

/-- Each page ends at a row that is later than exactly the rows with lower ids. -/
def Paged (time : R → ℤ) (id : R → ℕ) (limit : ℕ) (rows : List R) : Prop :=
  ∀ b, PageEnd limit (latest time id rows) b → ∀ r ∈ rows, id r < id b ↔ Newer time id b r

theorem pages_iff (hrows : Table.Keyed id rows) {limit fuel : ℕ} (hlimit : 1 ≤ limit)
    (hfuel : rows.length < fuel) :
    collect id (fun after => (page time id rows after (limit+1)).take limit) fuel none =
      latest time id rows ↔ Paged time id limit rows := by
  have hquery (after : Option ℕ) : (page time id rows after (limit+1)).take limit =
      (below id after (latest time id rows)).take limit := by
    rw [page,List.take_take,Nat.min_eq_left (Nat.le_succ limit),below,latest_filter hrows]
    rfl
  have hall : below id none (latest time id rows) = latest time id rows := by simp [below]
  have hlen : (latest time id rows).length = rows.length := List.length_insertionSort ..
  have hmem (r : R) : r ∈ latest time id rows ↔ r ∈ rows := List.mem_insertionSort ..
  have hpages := collect_iff newer_asymm hquery hlimit (latest_pairwise hrows) fuel none
    (by rw [hall,hlen]; exact hfuel)
  rw [hall] at hpages
  simpa only [Fits,Paged,hmem] using hpages

end

/-- The pages of a conversation's messages, and those of a customer's conversations. -/
theorem listings_complete_iff (messages : List MessageRecord)
    (conversations : List ConversationRecord) (owner limit fuel : ℕ) (hlimit : 1 ≤ limit) :
    (Table.Keyed MessageRecord.id messages → messages.length < fuel →
        (collect MessageRecord.id (listMessages messages owner limit) fuel none =
            latest MessageRecord.createdAt MessageRecord.id
              (messages.filter fun r => r.conversationId = owner) ↔
          Paged MessageRecord.createdAt MessageRecord.id limit
            (messages.filter fun r => r.conversationId = owner))) ∧
    (Table.Keyed ConversationRecord.id conversations → conversations.length < fuel →
        (collect ConversationRecord.id (listForCustomer conversations owner limit) fuel none =
            latest ConversationRecord.openedAt ConversationRecord.id
              (conversations.filter fun r => r.customerId = some owner) ↔
          Paged ConversationRecord.openedAt ConversationRecord.id limit
            (conversations.filter fun r => r.customerId = some owner))) := by
  constructor <;> intro hrows hfuel
  all_goals
    refine pages_iff (hrows.sublist (List.filter_sublist.map _)) hlimit ?_
    exact (List.length_filter_le ..).trans_lt hfuel

def inStep : List MessageRecord := [⟨1,7,10⟩,⟨2,7,20⟩,⟨3,7,30⟩]

theorem inStep_pages : collect MessageRecord.id (listMessages inStep 7 2) 4 none =
    latest MessageRecord.createdAt MessageRecord.id inStep := by
  have hkeyed : Table.Keyed MessageRecord.id inStep := by unfold Table.Keyed; decide
  refine ((listings_complete_iff inStep [] 7 2 4 (by decide)).1 hkeyed (by decide)).mpr ?_
  intro b hb r hr
  have hstep : ∀ b ∈ inStep, ∀ r ∈ inStep, r.id < b.id ↔
      (r.createdAt < b.createdAt ∨ r.createdAt = b.createdAt ∧ r.id < b.id) := by decide
  refine hstep b ?_ r hr
  obtain ⟨A,C,heq,-⟩ := hb
  have hmem : b ∈ latest MessageRecord.createdAt MessageRecord.id inStep := by
    rw [show inStep = inStep.filter (fun r => r.conversationId = 7) from rfl,heq]
    simp
  exact (List.mem_insertionSort ..).mp hmem

def crossed : List MessageRecord := [⟨1,7,20⟩,⟨2,7,10⟩]

theorem crossed_loses : Table.Keyed MessageRecord.id crossed ∧
    latest MessageRecord.createdAt MessageRecord.id crossed = [⟨1,7,20⟩,⟨2,7,10⟩] ∧
      collect MessageRecord.id (listMessages crossed 7 1) 3 none = [⟨1,7,20⟩] := by
  unfold Table.Keyed
  decide

end NexusAi.Messaging
