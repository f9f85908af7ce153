import NexusAi.Events.Relaying

/-!
# What the outbox keeps

A step of a relay that is orderly keeps every row accounted for, and no step
reaches a row at its end. Where a worker goes on with a row whose lease ran out,
or ends between the acknowledgement and the mark, a row that is published can
become open or dead again.
-/

namespace NexusAi.Events

section Steps

variable {s : EventsSettings} {w : Relays} {i : ℕ} {k : Worker}

theorem Relays.Kept.step (hw : w.Kept) (a : RelayAction) (ha : w.orderly s a) :
    w.Follows (w.step s a) := by
  cases a with
  | enqueue envelope subject readable now => exact hw.enqueued envelope subject readable now
  | claim =>
    simp only [Relays.step,Relays.claimStep]
    split
    · rename_i hi
      exact hw.claimed hi
    · exact hw.refl
  | publish =>
    simp only [Relays.step,Relays.publishStep]
    split
    · rename_i name item rest hi
      split
      · exact hw.moved hi (fun _ hitem => hitem) (by simp)
      · simp only [Relays.orderly,hi,Option.all_some,List.all_eq_true,decide_eq_true_eq] at ha
        exact hw.acknowledge hi rfl ha
      · exact hw.moved hi (fun _ hitem => hitem) (by simp)
      · exact hw.moved hi (by simp [Phase.items]) (by simp)
    · exact hw.refl
  | settle _ now =>
    simp only [Relays.step,Relays.settleStep]
    split
    · rename_i name item rest hi
      have hknown := hw.known _ (List.mem_of_getElem? hi) item rest rfl
      refine hw.settled hi rfl ?_ (fun _ hl => hl) ?_ ?_
      · exact fun _ => ⟨rfl,rfl⟩
      · rintro r hr hid (hpublished | hdead)
        · exact hpublished.symm
        · -- what was acknowledged is not dead
          have hold := hw.accounted r hr
          rw [OutboxRow.Accounted,hdead,hid] at hold
          exact absurd hknown hold.2
      · intro r _ hid _
        rw [← hid] at hknown
        exact hknown
    · rename_i item failure rest hi
      simp only [Relays.orderly,hi,Option.all_some,Bool.and_eq_true,List.all_eq_true,
        decide_eq_true_eq,Bool.or_eq_true,Bool.not_eq_true'] at ha
      refine hw.failed hi rfl ha.1 (fun hgives => ha.2.resolve_left ?_) now
      simp [hgives]
    · exact hw.refl
  | crash i =>
    simp only [Relays.step]
    cases hi : w.workers[i]? with
    | none =>
      have hsame : w.enter i (.batch []) = w := by
        rw [Relays.enter,List.modify_eq_self]
        exact List.getElem?_eq_none_iff.mp hi
      rw [hsame]
      exact hw.refl
    | some => exact hw.moved hi (by simp [Phase.items]) (by simp)

end Steps

section Runs

theorem Relays.kept_initial (names : List String) : (Relays.initial names).Kept := by
  have hidle : ∀ k ∈ (Relays.initial names).workers, k.phase = .batch [] := by
    intro k hk
    obtain ⟨_,-,rfl⟩ := List.mem_map.mp hk
    rfl
  constructor
  case held =>
    intro k hk item hitem
    rw [hidle k hk] at hitem
    cases hitem
  case known =>
    intro k hk item rest hphase
    rw [hidle k hk] at hphase
    cases hphase
  all_goals simp [Relays.initial,Table.Keyed]

/-- In a run of orderly steps every row is accounted for, no row goes away, and a
row that is published or dead stays so. -/
theorem outbox_keeps (s : EventsSettings) (names : List String) (as : List RelayAction)
    (hok : Run.Conforms (Relays.step s) (fun w a => w.orderly s a) as
      (Relays.initial names)) :
    (∀ row ∈ (Relays.reach s names as).rows,
      row.Accounted (Relays.reach s names as).letters (Relays.reach s names as).acknowledged) ∧
    ∀ before after, as = before++after → ∀ row ∈ (Relays.reach s names before).rows,
      ∃ row' ∈ (Relays.reach s names as).rows, row'.id = row.id ∧
        (row.status = .published ∨ row.status = .dead → row'.status = row.status) := by
  have hkept : ∀ as w, Run.Conforms (Relays.step s) (fun w a => w.orderly s a) as w →
      w.Kept → (Run.exec (Relays.step s) as w).Kept :=
    fun as w hok hw => Run.exec_conforming (Relays.step s) _ Relays.Kept
      (fun _ a ha hw => (hw.step a ha).kept) as w hok hw
  refine ⟨(hkept as _ hok (Relays.kept_initial names)).accounted,?_⟩
  rintro before after rfl row hrow
  obtain ⟨hbefore,hafter⟩ := (Run.conforms_append _ _ before after _).mp hok
  have hstart := hkept before _ hbefore (Relays.kept_initial names)
  have hend : (Run.exec (Relays.step s) after (Relays.reach s names before)).Kept ∧
      ∃ row' ∈ (Run.exec (Relays.step s) after (Relays.reach s names before)).rows,
        row'.id = row.id ∧
          (row.status = .published ∨ row.status = .dead → row'.status = row.status) := by
    refine Run.exec_conforming (Relays.step s) _ (fun w => w.Kept ∧ ∃ row' ∈ w.rows,
      row'.id = row.id ∧ (row.status = .published ∨ row.status = .dead →
        row'.status = row.status)) ?_ after _ hafter ⟨hstart,row,hrow,rfl,fun _ => rfl⟩
    rintro w a ha ⟨hw,r,hr,hid,hsame⟩
    obtain ⟨hkept',hended'⟩ := hw.step a ha
    obtain ⟨r',hr',hid',hsame'⟩ := hended' r hr
    refine ⟨hkept',r',hr',hid'.trans hid,fun hended => ?_⟩
    have hstatus := hsame hended
    rw [hsame' (by rw [hstatus]; exact hended), hstatus]
  have hsplit : Relays.reach s names (before++after) =
      Run.exec (Relays.step s) after (Relays.reach s names before) :=
    Run.exec_append (Relays.step s) before after _
  rw [hsplit]
  exact hend.2

/-- One relay publishes an event at the second attempt. Another one is refused
until its attempts are used up. -/
def refusedRun : List RelayAction :=
  [.enqueue (sampleEnvelope 7) "events.sample" true 0,
    .enqueue (sampleEnvelope 8) "events.sample" true 0,
    .claim 0 0 [],.publish 0 (some (.platform .publishFailed)),.settle 0 0,
    .publish 0 none,.settle 0 0,
    .claim 1 (5*second) [],.publish 1 (some (.platform .publishFailed)),.settle 1 (5*second)]

theorem refusedRun_keeps :
    Run.Conforms (Relays.step sampleSettings)
      (fun w a => w.orderly sampleSettings a) refusedRun (Relays.initial ["a","b"]) ∧
    (Relays.reach sampleSettings ["a","b"] refusedRun).rows.map OutboxRow.status =
      [.dead,.published] ∧
    ∀ row ∈ (Relays.reach sampleSettings ["a","b"] refusedRun).rows,
      row.Accounted (Relays.reach sampleSettings ["a","b"] refusedRun).letters
        (Relays.reach sampleSettings ["a","b"] refusedRun).acknowledged := by
  have hok : Run.Conforms (Relays.step sampleSettings)
      (fun w a => w.orderly sampleSettings a) refusedRun (Relays.initial ["a","b"]) := by
    decide +kernel
  exact ⟨hok,by decide +kernel,(outbox_keeps sampleSettings ["a","b"] refusedRun hok).1⟩

/-- A relay that outlives its lease publishes and marks a row that a second relay
has claimed by then, and whose publication fails. -/
def overtakenRun : List RelayAction :=
  [.enqueue (sampleEnvelope 7) "events.sample" true 0,.claim 0 0 [],
    .claim 1 (30*second) [],.publish 0 none,.settle 0 (30*second),
    .publish 1 (some (.platform .publishFailed)),.settle 1 (31*second)]

/-- The row was published, and is dead at the end with a letter. -/
theorem overtakenRun_dies :
    (Relays.reach sampleSettings ["a","b"] (overtakenRun.take 5)).rows.map OutboxRow.status =
      [.published] ∧
    (Relays.reach sampleSettings ["a","b"] overtakenRun).rows.map OutboxRow.status = [.dead] ∧
    (Relays.reach sampleSettings ["a","b"] overtakenRun).acknowledged = [7] ∧
    (Relays.reach sampleSettings ["a","b"] overtakenRun).letters.map DeadLetterRow.eventId = [7] := by
  decide +kernel

end Runs

end NexusAi.Events
