import NexusAi.Lib.Batch
import NexusAi.Lib.Custody
import NexusAi.Otp.System

/-!
# What every statement keeps

A call that has locked a row knows it as it stands, and no two calls lock one
row. An uncommitted insert is clear of every stored challenge and of every other
insert. A step admits a call, moves one call on, commits the update of one row,
commits an issuance, or drops rows.
-/

namespace NexusAi.Otp

section

variable {D : Type}

def Challenge.origin (row : Challenge D) : Challenge D :=
  { row with
    status := .active
    attempts := 0
    deliveryMessageId := none
    updatedAt := 0 }

/-- The attempts that a challenge has had leave an active one another. -/
def Challenge.Tried (row : Challenge D) : Prop :=
  row.attempts ≤ row.maxAttempts ∧ (row.status = .active → row.attempts < row.maxAttempts)

variable {r s : Challenge D}

theorem of_origin {B : Type} (f : Challenge D → B) (hf : ∀ r, f r.origin = f r)
    (h : r.origin = s.origin) : f r = f s := by
  rw [← hf r,h,hf]

theorem subject_of_origin (h : r.origin = s.origin) : r.subject = s.subject :=
  of_origin Challenge.subject (fun _ => rfl) h

theorem id_of_origin (h : r.origin = s.origin) : r.id = s.id :=
  of_origin Challenge.id (fun _ => rfl) h

def Phase.draft : Phase D → Option Draft
  | .replaying d | .opened d | .checked d | .counted d _ | .awaiting d _ _ | .superseding d _ _
  | .inserting d _ _ | .inserted d _ _ | .losing d _ => some d
  | _ => none

/-- The call has not stored a challenge and may come to do so. -/
def Phase.early (p : Phase D) : Bool :=
  p.draft.isSome || match p with
    | .resending _ _ => true
    | _ => false

def Phase.quiet : Phase D → Bool
  | .superseding _ _ _ | .inserting _ _ (some _) | .inserted _ _ _ | .verifying _ _ _ _
  | .holding _ _ _ | .written _ _ _ | .closed (.verified _) => false
  | _ => true

theorem Phase.quiet_lock {p : Phase D} (h : p.quiet) : p.lock = none := by
  cases p with
  | inserting _ _ revoked => cases revoked <;> [rfl; cases h]
  | superseding | inserted | holding | written => cases h
  | _ => rfl

theorem Phase.quiet_entry {p : Phase D} (h : p.quiet) : p.entry = none := by
  cases p with
  | inserted => cases h
  | _ => rfl

theorem Phase.quiet_unverified {p : Phase D} (h : p.quiet) (id : ℕ) :
    p ≠ .closed (.verified id) := by
  rintro rfl
  cases h

structure Updates (row update : Challenge D) : Prop where
  origin : update.origin = row.origin
  status : row.status = .active ∨ update.status = row.status
  tried : update.Tried

variable [DecidableEq D]

/-- The request is to verify a code that fits what the draft is stored as. -/
def Service.Accepts (service : Service D) (d : Draft) (request : Request) : Prop :=
  ∃ code, request = .verify code ∧
    service.verifyCode (service.stored d 0).context code (service.stored d 0).codeHash

structure Fits (service : Service D) (rows : List (Challenge D)) (i : ℕ) (c : Call D) : Prop where
  drawn : ∀ d, c.phase.draft = some d → d.id = i
  superseded : ∀ d id, c.phase.draft = some d → c.phase.lock = some id →
    ∃ r ∈ rows, r.id = id ∧ r.status = .active ∧ r.subject = service.subject d
  updates : ∀ row update outcome,
    c.phase = .holding row update outcome ∨ c.phase = .written row update outcome →
      row ∈ rows ∧ Updates row update
  verdict : ∀ row update id, c.phase = .holding row update (.verified id) ∨
    c.phase = .written row update (.verified id) → row.id = id ∧ row.status = .active ∧
      update.status = .verified ∧ ∃ code, c.request = .verify code ∧
        service.verifyCode row.context code row.codeHash
  clear : ∀ d, c.phase.entry = some d →
    ∀ r ∈ rows, World.conflicts service d c.phase.lock r = false
  asked : ∀ organizationId id code now, c.phase = .verifying organizationId id code now →
    c.request = .verify code

namespace World

def held (w : World D) (i : ℕ) : List ℕ := ((w.phase i).bind Phase.lock).toList

structure Sound (service : Service D) (w : World D) : Prop where
  keyed : Table.Keyed Challenge.id w.rows
  origins : ∀ r ∈ w.rows, ∃ d ∈ w.issued, r.origin = service.stored d 0
  once : (w.issued.map Draft.id).Nodup
  early : ∀ (i : ℕ) c, w.calls[i]? = some c → c.phase.early → i ∉ w.issued.map Draft.id
  numbered : ∀ d ∈ w.issued, d.id < w.calls.length
  tried : ∀ r ∈ w.rows, r.Tried
  fits : ∀ (i : ℕ) c, w.calls[i]? = some c → Fits service w.rows i c
  sole : Custody.Sole w.held
  apart : ∀ i j p q d e, i ≠ j → w.phase i = some p → w.phase j = some q → p.entry = some d →
    q.entry = some e → rivals service d e = false
  single : ∀ r ∈ w.rows, ∀ s ∈ w.rows, r.status = .active → s.status = .active →
    r.subject = s.subject → r = s
  used : ∀ (i : ℕ) c id, w.calls[i]? = some c → c.phase = .closed (.verified id) →
    (∃ d ∈ w.issued, d.id = id ∧ service.Accepts d c.request) ∧
      ∀ r ∈ w.rows, r.id = id → r.status = .verified
  alone : ∀ (i j : ℕ) b c id, w.calls[i]? = some b → w.calls[j]? = some c →
    b.phase = .closed (.verified id) → c.phase = .closed (.verified id) → i = j

end World

variable {service : Service D} {rows rows' : List (Challenge D)} {i : ℕ} {c : Call D}

theorem conflicts_of_origin {d : Draft} {revoked : Option ℕ} (h : r.origin = s.origin)
    (hactive : s.status = .active → r.status = .active)
    (hr : World.conflicts service d revoked r = false) :
    World.conflicts service d revoked s = false := by
  have hid := id_of_origin h
  have hsubject := subject_of_origin h
  have horganization := of_origin Challenge.organizationId (fun _ => rfl) h
  have hkey := of_origin Challenge.idempotencyKey (fun _ => rfl) h
  simp only [World.conflicts,Bool.or_eq_false_iff,decide_eq_false_iff_not] at hr ⊢
  rw [← hid,← hsubject,← horganization,← hkey]
  exact ⟨hr.1,fun hs => hr.2 ⟨hactive hs.1,hs.2⟩⟩

theorem Fits.evolve (h : Fits service rows i c)
    (hkept : ∀ r ∈ rows, c.phase.lock = some r.id → r ∈ rows')
    (hother : ∀ r ∈ rows', (∃ s ∈ rows, s.origin = r.origin ∧
        (r.status = .active → s.status = .active)) ∨
      ∀ d, c.phase.entry = some d → World.conflicts service d c.phase.lock r = false) :
    Fits service rows' i c := by
  constructor
  · exact h.drawn
  · intro d id hd hid
    obtain ⟨r,hr,rfl,hrest⟩ := h.superseded d id hd hid
    exact ⟨r,hkept r hr hid,rfl,hrest⟩
  · intro row update outcome hphase
    obtain ⟨hmem,hupdates⟩ := h.updates row update outcome hphase
    refine ⟨hkept row hmem ?_,hupdates⟩
    rcases hphase with hphase | hphase <;> rw [hphase] <;> rfl
  · exact h.verdict
  · intro d hd r hr
    rcases hother r hr with ⟨s,hs,horigin,hactive⟩ | hnew
    · exact conflicts_of_origin horigin hactive (h.clear d hd s hs)
    · exact hnew d hd
  · exact h.asked

theorem Fits.of_quiet (hquiet : c.phase.quiet)
    (hdraft : ∀ d, c.phase.draft = some d → d.id = i) : Fits service rows i c := by
  constructor
  · exact hdraft
  · simp [Phase.quiet_lock hquiet]
  · intro row update outcome hphase
    rcases hphase with hphase | hphase <;> rw [hphase] at hquiet <;> cases hquiet
  · intro row update id hphase
    rcases hphase with hphase | hphase <;> rw [hphase] at hquiet <;> cases hquiet
  · simp [Phase.quiet_entry hquiet]
  · intro organizationId id code now hphase
    rw [hphase] at hquiet
    cases hquiet

namespace World

variable {w : World D}

omit [DecidableEq D] in
theorem phase_of_call (hi : w.calls[i]? = some c) : w.phase i = some c.phase := by
  simp [phase,hi]

variable {p : Phase D} {j : ℕ}

omit [DecidableEq D] in
theorem call_of_phase (h : w.phase i = some p) : ∃ c, w.calls[i]? = some c ∧ c.phase = p :=
  Option.map_eq_some_iff.mp h

omit [DecidableEq D] in
theorem phase_enter (hi : w.calls[i]? = some c) (p : Phase D) (j : ℕ) :
    (w.enter i p).phase j = if j = i then some p else w.phase j := by
  unfold phase enter
  rw [Batch.modify_at hi]
  split_ifs <;> rfl

omit [DecidableEq D] in
theorem elsewhere_false {test : Phase D → Bool} (h : w.elsewhere i test = false) (hj : j ≠ i)
    (hp : w.phase j = some p) : test p = false := by
  have hlt : j < w.calls.length := by
    by_contra hlt
    simp [phase,List.getElem?_eq_none (Nat.le_of_not_lt hlt)] at hp
  have hnot := List.any_eq_false.mp h j (List.mem_range.mpr hlt)
  simpa [hj,hp] using hnot

omit [DecidableEq D] in
theorem unlocked {id : ℕ} (h : w.lockedElsewhere i id = false) (hj : j ≠ i) : id ∉ w.held j := by
  intro hmem
  unfold held at hmem
  obtain ⟨p,hp,hlock⟩ := Option.bind_eq_some_iff.mp (Option.mem_toList.mp hmem)
  have hfree := elsewhere_false h hj hp
  simp [hlock] at hfree

omit [DecidableEq D] in
theorem held_enter (hi : w.calls[i]? = some c) (p : Phase D) (j : ℕ) :
    (w.enter i p).held j = if j = i then p.lock.toList else w.held j := by
  unfold held
  rw [phase_enter hi]
  by_cases hj : j = i
  · simp [hj]
  · simp [hj]

theorem rivals_symm {d e : Draft} (h : rivals service d e = false) :
    rivals service e d = false := by
  simp only [rivals,Bool.or_eq_false_iff,decide_eq_false_iff_not] at h ⊢
  refine ⟨fun hs => h.1 hs.symm,fun hk => h.2 ⟨?_,hk.2.1.symm,hk.2.2.symm⟩⟩
  rw [hk.2.2]
  exact hk.1

section

variable (h : w.Sound service) (hi : w.calls[i]? = some c)

include h hi

theorem Sound.entered (hfits : Fits service w.rows i { c with phase := p })
    (hlock : ∀ id, p.lock = some id → c.phase.lock = some id ∨ w.lockedElsewhere i id = false)
    (hearly : p.early → c.phase.early) (hentry : ∀ d, p.entry = some d →
      w.elsewhere i (fun q => q.entry.any (rivals service d)) = false)
    (hverified : ∀ id, p = .closed (.verified id) →
      ((∃ d ∈ w.issued, d.id = id ∧ service.Accepts d c.request) ∧
        ∀ r ∈ w.rows, r.id = id → r.status = .verified) ∧
      ∀ (j : ℕ) b, w.calls[j]? = some b → b.phase ≠ .closed (.verified id)) :
    (w.enter i p).Sound service := by
  constructor
  · exact h.keyed
  · exact h.origins
  · exact h.once
  · exact Batch.forall_modify hi (fun hp => h.early i c hi (hearly hp)) h.early
  · intro d hd
    simpa [enter] using h.numbered d hd
  · exact h.tried
  · exact Batch.forall_modify hi hfits h.fits
  · refine h.sole.change (i := i) ?_ ?_ ?_
    · intro j hj
      rw [held_enter hi,if_neg hj]
    · rw [held_enter hi,if_pos rfl]
      cases p.lock <;> simp
    · intro id hid
      rw [held_enter hi,if_pos rfl,Option.mem_toList] at hid
      by_cases hown : id ∈ w.held i
      · exact .inl hown
      · refine .inr fun j => ?_
        by_cases hj : j = i
        · rw [hj]
          exact hown
        · refine unlocked ((hlock id hid).resolve_left fun hold => hown ?_) hj
          simp [held,phase_of_call hi,hold]
  · intro j l q r d e hjl hq hr hd he
    rw [phase_enter hi] at hq hr
    by_cases hj : j = i
    · rw [if_pos hj] at hq
      rw [if_neg (fun hl => hjl (hj.trans hl.symm))] at hr
      cases hq
      have hfree := elsewhere_false (hentry d hd) (fun hl => hjl (hj.trans hl.symm)) hr
      simpa [he] using hfree
    · rw [if_neg hj] at hq
      by_cases hl : l = i
      · rw [if_pos hl] at hr
        cases hr
        have hfree := elsewhere_false (hentry e he) hj hq
        rw [hd] at hfree
        exact rivals_symm (by simpa using hfree)
      · rw [if_neg hl] at hr
        exact h.apart j l q r d e hjl hq hr hd he
  · exact h.single
  · intro j b id hb hp
    rcases Batch.modified hi hb with ⟨rfl,rfl⟩ | ⟨-,hb⟩
    · exact (hverified id hp).1
    · exact h.used j b id hb hp
  · intro j l a b id ha hb hpa hpb
    rcases Batch.modified hi ha with ⟨hj,rfl⟩ | ⟨-,ha₀⟩ <;>
      rcases Batch.modified hi hb with ⟨hl,rfl⟩ | ⟨-,hb₀⟩
    · exact hj.trans hl.symm
    · exact absurd hpb ((hverified id hpa).2 l b hb₀)
    · exact absurd hpa ((hverified id hpb).2 j a ha₀)
    · exact h.alone j l a b id ha₀ hb₀ hpa hpb

theorem Sound.released (hquiet : p.quiet) (hdraft : ∀ d, p.draft = some d → d.id = i)
    (hearly : p.early → c.phase.early) : (w.enter i p).Sound service := by
  refine h.entered hi (Fits.of_quiet hquiet hdraft) (by simp [Phase.quiet_lock hquiet]) hearly
    (by simp [Phase.quiet_entry hquiet]) ?_
  rintro _ rfl
  cases hquiet

theorem Sound.ends (hquiet : p.quiet) (hlate : p.early = false) :
    (w.enter i p).Sound service := by
  refine h.released hi hquiet ?_ ?_
  · intro d hd
    simp [Phase.early,hd] at hlate
  · simp [hlate]

end

end World

end

variable {D : Type}

def Phase.count : Phase D → Option (Draft × ℕ)
  | .counted d n | .awaiting d n _ | .superseding d n _ | .inserting d n _ | .inserted d n _ =>
    some (d,n)
  | _ => none

variable [DecidableEq D]

structure Goes (service : Service D) (w : World D) (a : Action) (i : ℕ) (old new : Phase D) :
    Prop where
  unverified : ∀ id, new ≠ .closed (.verified id)
  count : ∀ d n, new.count = some (d,n) → old.count = some (d,n) ∨
    (old = .checked d ∧ n < service.settings.maxIssuesPerWindow ∧
      n = countIssuedSince (service.subject d) (d.now-service.settings.issueWindowSeconds) w.rows)
  entry : ∀ d, new.entry = some d → (∃ n revoked, old = .inserting d n revoked) ∧
    w.elsewhere i (fun q => q.entry.any (World.rivals service d)) = false ∧
      ∃ now, a = .advance i now

namespace World

inductive Turn (service : Service D) (w : World D) (a : Action) : World D → Prop
  | idle : Turn service w a w
  | admits (request : Request) (p : Phase D) (hcount : p.count = none)
      (hp : ∀ id, p ≠ .closed (.verified id)) : Turn service w a (w.admitCall request p)
  | enters (i : ℕ) (c : Call D) (p : Phase D) (hi : w.calls[i]? = some c)
      (hgoes : Goes service w a i c.phase p) : Turn service w a (w.enter i p)
  | commits (i : ℕ) (c : Call D) (row update : Challenge D) (outcome : Outcome)
      (hi : w.calls[i]? = some c) (hphase : c.phase = .written row update outcome) :
      Turn service w a (w.commitStep i row update outcome)
  | issues (i : ℕ) (c : Call D) (draft : Draft) (issued : ℕ) (revoked : Option ℕ) (now : ℤ)
      (hi : w.calls[i]? = some c) (hphase : c.phase = .inserted draft issued revoked) :
      Turn service w a (w.issueStep service i draft revoked now)
  | drops (rows : List (Challenge D)) (hrows : ∀ r ∈ rows, r ∈ w.rows) :
      Turn service w a { w with rows := rows }

end World

variable {service : Service D} {w : World D} {a : Action} {i : ℕ} {c : Call D}

theorem Goes.plain {old new : Phase D} (hentry : new.entry = none)
    (hverified : ∀ id, new ≠ .closed (.verified id))
    (hcount : new.count = none ∨ new.count = old.count) : Goes service w a i old new := by
  refine ⟨hverified,fun d n h => ?_,by simp [hentry]⟩
  rcases hcount with hnone | hsame
  · rw [hnone] at h
    cases h
  · exact .inl (hsame ▸ h)

namespace World

/-- What a step does, and that everything stays in order. -/
structure Moved (service : Service D) (w : World D) (a : Action) (w' : World D) : Prop where
  turn : Turn service w a w'
  sound : w'.Sound service

theorem Sound.closes (h : w.Sound service) (hi : w.calls[i]? = some c) {p : Phase D}
    (hquiet : p.quiet) (hlate : p.early = false) : Moved service w a (w.enter i p) := by
  refine ⟨.enters i c p hi (.plain (Phase.quiet_entry hquiet) (Phase.quiet_unverified hquiet)
    (.inl ?_)),h.ends hi hquiet hlate⟩
  cases p <;> first | rfl | cases hlate

end World

end NexusAi.Otp
