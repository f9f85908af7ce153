import Mathlib.Data.List.DropRight
import NexusAi.Lib.Run

/-!
# The local login limiter

The table of counts is ordered, and pruning and eviction both take its last
entry. An update puts its own entry there, so that a table which is full never
takes a new key. Instants are whole seconds.
-/

namespace NexusAi.Auth

structure LocalWindowRateLimiter where
  (maxFailures window maxKeys : ℕ)
  positive : 0 < window

structure Count where
  key : String
  window : ℤ
  failures : ℕ

inductive LimiterOperation where
  | check | recordFailure | reset
  deriving DecidableEq

structure LimiterCall where
  operation : LimiterOperation
  key : String
  now : ℤ

def Count.isFor (key : String) (window : ℤ) (e : Count) : Bool :=
  e.key = key ∧ e.window = window

def entry (key : String) (window : ℤ) (counts : List Count) : Option Count :=
  counts.find? (Count.isFor key window)

def failures (key : String) (window : ℤ) (counts : List Count) : ℕ :=
  ((entry key window counts).map Count.failures).getD 0

def others (key : String) (window : ℤ) (counts : List Count) : List Count :=
  counts.filter fun e => !e.isFor key window

namespace LocalWindowRateLimiter

variable (l : LocalWindowRateLimiter)

def windowStart (now : ℤ) : ℤ := now/l.window*l.window

/-- Entries of earlier windows are taken off the end. -/
def prune (window : ℤ) (counts : List Count) : List Count :=
  counts.rdropWhile fun e => e.window < window

def refuses (counts : List Count) (key : String) (now : ℤ) : Bool :=
  l.maxFailures ≤ failures key (l.windowStart now) (prune (l.windowStart now) counts)

/-- What a call makes of the pruned table. An update moves its entry to the end. -/
def apply (window : ℤ) (c : LimiterCall) (counts : List Count) : List Count :=
  match c.operation with
  | .check => counts
  | .recordFailure => (others c.key window counts++
      [Count.mk c.key window (failures c.key window counts+1)]).take l.maxKeys
  | .reset => others c.key window counts

def step (counts : List Count) (c : LimiterCall) : List Count :=
  l.apply (l.windowStart c.now) c (prune (l.windowStart c.now) counts)

/-- There is an entry for the key, or room for one. -/
def Tracks (counts : List Count) (key : String) (window : ℤ) : Prop :=
  (entry key window counts).isSome ∨
    counts.countP (fun e => e.window = window) < l.maxKeys

/-- The entries are of one window and no more than the limiter keeps. -/
structure Tidy (window : ℤ) (counts : List Count) : Prop where
  current : ∀ e ∈ counts, e.window = window
  bounded : counts.length ≤ l.maxKeys

variable {l} {counts : List Count} {window window' : ℤ} {c : LimiterCall} {key : String}

theorem windowStart_mono {s t : ℤ} (h : s ≤ t) : l.windowStart s ≤ l.windowStart t :=
  Int.mul_le_mul_of_nonneg_right (Int.ediv_le_ediv (by exact_mod_cast l.positive) h) (by simp)

section

variable (h : l.Tidy window counts)

include h

theorem Tidy.sublist {rest : List Count} (hrest : rest.Sublist counts) : l.Tidy window rest :=
  ⟨fun e he => h.current e (hrest.subset he),hrest.length_le.trans h.bounded⟩

/-- The entries that pruning leaves are those of the window. -/
theorem Tidy.prune_eq (hle : window ≤ window') :
    prune window' counts = counts.filter fun e => e.window = window' := by
  rcases hle.eq_or_lt with rfl | hlt
  · rw [List.filter_eq_self.mpr fun e he => by simp [h.current e he]]
    rw [prune,List.rdropWhile_eq_self_iff]
    intro hne
    simp [h.current _ (List.getLast_mem hne)]
  · have hold (e : Count) (he : e ∈ counts) : e.window < window' := h.current e he ▸ hlt
    rw [List.filter_eq_nil_iff.mpr fun e he => by simpa using (hold e he).ne]
    rw [prune,List.rdropWhile_eq_nil_iff]
    exact fun e he => by simpa using hold e he

theorem Tidy.pruned (hle : window ≤ window') : l.Tidy window' (prune window' counts) := by
  rw [h.prune_eq hle]
  exact ⟨fun e he => by simpa using (List.mem_filter.mp he).2,
    (List.length_filter_le ..).trans h.bounded⟩

theorem Tidy.tracks_iff : l.Tracks counts key window ↔
    (entry key window counts).isSome ∨ counts.length < l.maxKeys := by
  rw [Tracks,List.countP_eq_length.mpr fun e he => by simp [h.current e he]]

end

theorem others_eq (h : entry key window counts = none) : others key window counts = counts := by
  rw [others,List.filter_eq_self]
  intro e he
  simpa using List.find?_eq_none.mp h e he

/-- A failure is counted, or the table is full of other keys and stays as it is. -/
theorem Tidy.record (h : l.Tidy window counts) (hop : c.operation = .recordFailure) :
    (l.Tracks counts c.key window ∧ l.apply window c counts = others c.key window counts++
        [Count.mk c.key window (failures c.key window counts+1)]) ∨
    entry c.key window counts = none ∧ ¬ l.Tracks counts c.key window ∧
      l.apply window c counts = counts := by
  have hbounded := h.bounded
  rw [h.tracks_iff]
  simp only [apply,hop]
  cases hentry : entry c.key window counts with
  | some e =>
    have hless : (others c.key window counts).length < counts.length :=
      List.length_filter_lt_length_iff_exists.mpr
        ⟨e,List.mem_of_find?_eq_some hentry,by simp [List.find?_some hentry]⟩
    refine .inl ⟨.inl rfl,List.take_of_length_le ?_⟩
    rw [List.length_append,List.length_singleton]
    omega
  | none =>
    rw [others_eq hentry]
    by_cases hroom : counts.length < l.maxKeys
    · exact .inl ⟨.inr hroom,List.take_of_length_le (by simpa using hroom)⟩
    · exact .inr ⟨rfl,by simp [hroom],List.take_left' (by omega)⟩

theorem Tidy.apply (h : l.Tidy window counts) (c : LimiterCall) :
    l.Tidy window (l.apply window c counts) := by
  have hothers : l.Tidy window (others c.key window counts) := h.sublist List.filter_sublist
  unfold LocalWindowRateLimiter.apply
  cases c.operation with
  | check => exact h
  | reset => exact hothers
  | recordFailure =>
    refine ⟨fun e he => ?_,List.length_take_le ..⟩
    rcases List.mem_append.mp (List.mem_of_mem_take he) with he | he
    · exact hothers.current e he
    · rw [List.mem_singleton.mp he]

theorem entry_others {key' : String} (h : key' ≠ key) :
    entry key' window (others key window counts) = entry key' window counts := by
  rw [entry,others,List.find?_filter]
  congr 1
  funext e
  by_cases he : e.key = key'
  · simp [Count.isFor,he,h]
  · simp [Count.isFor,he]

theorem entry_counted (n : ℕ) :
    entry key window (others key window counts++[Count.mk key window n]) =
      some (Count.mk key window n) := by
  have hnone : entry key window (others key window counts) = none := by
    rw [entry,List.find?_eq_none]
    intro e he
    simpa using (List.mem_filter.mp he).2
  rw [entry,List.find?_append,← entry,hnone]
  simp [Count.isFor]

def adds (key : String) (c : LimiterCall) : Bool :=
  c.operation = .recordFailure ∧ c.key = key

section

variable (h : l.Tidy window counts)

include h

/-- A call adds no more than it records, and no less once the key has its entry. -/
theorem Tidy.failures_apply (hc : c.operation = .reset → c.key ≠ key) :
    failures key window (l.apply window c counts) ≤ failures key window counts+(adds key c).toNat ∧
    ((entry key window counts).isSome →
      (entry key window (l.apply window c counts)).isSome ∧
        failures key window counts+(adds key c).toNat ≤
          failures key window (l.apply window c counts)) := by
  unfold failures
  by_cases hadds : adds key c
  · obtain ⟨hop,rfl⟩ : c.operation = .recordFailure ∧ c.key = key := by simpa [adds] using hadds
    rcases h.record hop with ⟨-,hstep⟩ | ⟨hnone,-,hstep⟩
    · rw [hstep,entry_counted]
      simp [hadds,failures]
    · rw [hstep,hnone]
      simp
  · have hsame : entry key window (l.apply window c counts) = entry key window counts := by
      cases hop : c.operation with
      | check => simp only [LocalWindowRateLimiter.apply,hop]
      | reset => simp only [LocalWindowRateLimiter.apply,hop,entry_others (hc hop).symm]
      | recordFailure =>
        have hkey : c.key ≠ key := fun hkey => hadds (by simp [adds,hop,hkey])
        rcases h.record hop with ⟨-,hstep⟩ | ⟨-,-,hstep⟩
        · rw [hstep,entry,List.find?_append,← entry,entry_others hkey.symm]
          simp [Count.isFor,hkey]
        · rw [hstep]
    rw [hsame]
    simp [hadds]

theorem Tidy.prune_same : prune window counts = counts := by
  rw [h.prune_eq le_rfl,List.filter_eq_self.mpr fun e he => by simp [h.current e he]]

theorem Tidy.tracks_prune (hle : window ≤ window') :
    l.Tracks (prune window' counts) key window' ↔ l.Tracks counts key window' := by
  have hentry : entry key window' (prune window' counts) = entry key window' counts := by
    rw [h.prune_eq hle,entry,List.find?_filter]
    congr 1
    funext e
    by_cases he : e.window = window' <;> simp [Count.isFor,he]
  rw [Tracks,Tracks,hentry,h.prune_eq hle,List.countP_filter]
  simp

theorem Tidy.run (calls : List LimiterCall)
    (hcalls : ∀ c ∈ calls, l.windowStart c.now = window ∧ (c.operation = .reset → c.key ≠ key)) :
    l.Tidy window (Run.exec l.step calls counts) ∧
    failures key window (Run.exec l.step calls counts) ≤
      failures key window counts+calls.countP (adds key) ∧
    ((entry key window counts).isSome →
      failures key window counts+calls.countP (adds key) ≤
        failures key window (Run.exec l.step calls counts)) := by
  induction calls generalizing counts with
  | nil => exact ⟨h,le_rfl,fun _ => le_rfl⟩
  | cons c _ ih =>
    obtain ⟨hnow,hreset⟩ := hcalls c List.mem_cons_self
    obtain ⟨_,hge⟩ := h.failures_apply hreset
    obtain ⟨htidy,_,hrge⟩ := ih (h.apply c) fun d hd => hcalls d (List.mem_cons_of_mem c hd)
    have hstep : l.step counts c = l.apply window c counts := by rw [step,hnow,h.prune_same]
    rw [Run.exec,hstep,List.countP_cons]
    refine ⟨htidy,?_,fun hentry => ?_⟩
    · cases hadds : adds key c <;> simp_all <;> omega
    · obtain ⟨hentry',_⟩ := hge hentry
      have hlast := hrge hentry'
      cases hadds : adds key c <;> simp_all <;> omega

theorem Tidy.reaches_iff (hop : c.operation = .recordFailure) (rest : List LimiterCall)
    (hrest : ∀ d ∈ rest, l.windowStart d.now = window ∧ (d.operation = .reset → d.key ≠ c.key)) :
    rest.countP (adds c.key)+1 ≤
        failures c.key window (Run.exec l.step rest (l.apply window c counts)) ↔
      l.Tracks counts c.key window := by
  obtain ⟨-,_,hleast⟩ := (h.apply c).run rest hrest
  rcases h.record hop with ⟨htracks,hstep⟩ | ⟨hnone,huntracked,hstep⟩
  · refine iff_of_true (le_trans ?_ (hleast ?_)) htracks
    · rw [failures,hstep,entry_counted]
      simp only [Option.map_some,Option.getD_some]
      omega
    · rw [hstep,entry_counted]
      rfl
  · refine iff_of_false (fun hle => ?_) huntracked
    have hzero : failures c.key window (l.apply window c counts) = 0 := by
      rw [hstep,failures,hnone]
      rfl
    omega

end

/-- The table before a call at time `t`. -/
def Before (l : LocalWindowRateLimiter) (t : ℤ) (counts : List Count) : Prop :=
  ∃ window ≤ l.windowStart t, l.Tidy window counts

theorem before_nil (t : ℤ) : l.Before t [] :=
  ⟨l.windowStart t,le_rfl,fun _ he => absurd he List.not_mem_nil,Nat.zero_le _⟩

theorem Before.step_tidy (h : l.Before c.now counts) :
    l.Tidy (l.windowStart c.now) (l.step counts c) := by
  obtain ⟨_,hle,htidy⟩ := h
  exact (htidy.pruned hle).apply c

theorem before_run {t : ℤ} (calls : List LimiterCall)
    (hordered : (calls.map LimiterCall.now++[t]).Pairwise (· ≤ ·))
    (h : ∀ s ∈ calls.map LimiterCall.now++[t], l.Before s counts) :
    l.Before t (Run.exec l.step calls counts) := by
  induction calls generalizing counts with
  | nil => exact h t (by simp)
  | cons c _ ih =>
    rw [List.map_cons,List.cons_append,List.pairwise_cons] at hordered
    refine ih hordered.2 fun s hs => ?_
    exact ⟨_,windowStart_mono (hordered.1 s hs),(h c.now (by simp)).step_tidy⟩

end LocalWindowRateLimiter

open LocalWindowRateLimiter

/-- The table keeps to its size and to the current window. A key whose last failures, as many as
are allowed, were recorded in the current window with no reset in between is refused exactly if
the first of them found an entry for the key, or room for one. -/
theorem failures_counted_iff (l : LocalWindowRateLimiter) :
    (∀ (calls : List LimiterCall) (c : LimiterCall),
      (calls.map LimiterCall.now++[c.now]).Pairwise (· ≤ ·) →
        (Run.exec l.step (calls++[c]) []).length ≤ l.maxKeys ∧
          ∀ e ∈ Run.exec l.step (calls++[c]) [], l.windowStart c.now ≤ e.window) ∧
    ∀ (calls rest : List LimiterCall) (key : String) (first t : ℤ),
      (calls.map LimiterCall.now++first::(rest.map LimiterCall.now++[t])).Pairwise (· ≤ ·) →
      l.windowStart t = l.windowStart first →
      (∀ c ∈ rest, c.operation = .reset → c.key ≠ key) →
      rest.countP (adds key)+1 = l.maxFailures →
        (l.refuses (Run.exec l.step (calls++⟨.recordFailure,key,first⟩::rest) []) key t ↔
          l.Tracks (Run.exec l.step calls []) key (l.windowStart first)) := by
  constructor
  · intro calls c hordered
    have hbefore : l.Before c.now (Run.exec l.step calls []) :=
      before_run calls hordered fun s _ => before_nil s
    rw [Run.exec_append]
    exact ⟨hbefore.step_tidy.bounded,fun e he => (hbefore.step_tidy.current e he).ge⟩
  · intro calls rest key first t hordered hwindow hreset hcount
    obtain ⟨hcalls,hafter,hcross⟩ := List.pairwise_append.mp hordered
    have hbefore : l.Before first (Run.exec l.step calls []) :=
      before_run calls (List.pairwise_append.mpr ⟨hcalls,by simp,fun s hs u hu =>
        List.mem_singleton.mp hu ▸ hcross s hs first (by simp)⟩) fun s _ => before_nil s
    obtain ⟨window,hle,htidy⟩ := hbefore
    rw [Run.exec_append,Run.exec,← htidy.tracks_prune hle]
    -- all that follows happens in the pruned table and in its window
    have hrest : ∀ c ∈ rest, l.windowStart c.now = l.windowStart first ∧
        (c.operation = .reset → c.key ≠ key) := by
      intro c hc
      obtain ⟨hfirst,hlast⟩ := List.pairwise_cons.mp hafter
      have hnow : c.now ∈ rest.map LimiterCall.now := List.mem_map_of_mem hc
      have hct := (List.pairwise_append.mp hlast).2.2 c.now hnow t (by simp)
      refine ⟨le_antisymm ?_ (windowStart_mono (hfirst c.now (by simp [hnow]))),hreset c hc⟩
      exact (windowStart_mono hct).trans_eq hwindow
    have hpruned := htidy.pruned hle
    have hreaches := hpruned.reaches_iff (c := ⟨.recordFailure,key,first⟩) rfl rest hrest
    rw [← hreaches,hcount,refuses,hwindow,decide_eq_true_iff]
    have hend := ((hpruned.apply ⟨.recordFailure,key,first⟩).run rest hrest).1.prune_same
    exact iff_of_eq (congrArg (fun counts => l.maxFailures ≤
      failures key (l.windowStart first) counts) hend)

/-- Five failures are allowed and two keys kept. -/
def twoKeys : LocalWindowRateLimiter := ⟨5,300,2,by decide⟩

def fails (key : String) (n : ℕ) : List LimiterCall := List.replicate n ⟨.recordFailure,key,1000⟩

theorem fiveFailures_refused :
    twoKeys.refuses (Run.exec twoKeys.step ([]++⟨.recordFailure,"ann",1000⟩::fails "ann" 4) [])
      "ann" 1100 :=
  ((failures_counted_iff twoKeys).2 [] (fails "ann" 4) "ann" 1000 1100 (by decide) (by decide)
    (by decide) (by decide)).mpr (.inr (by decide))

/-- Two other keys fill the table, and the third is tried as often as one likes. -/
theorem thirdKey_unlimited :
    twoKeys.refuses (Run.exec twoKeys.step (fails "ann" 1++fails "bob" 1++fails "eve" 100) [])
      "eve" 1100 = false := by
  decide +kernel

end NexusAi.Auth
