import NexusAi.Lib.Batch
import NexusAi.Auth.Ledger

/-!
# Calls post to the ledger

A step lets time or the identities pass, admits a call, moves one call on by a check of
its flow, or commits a revocation, a rotation or a new session. What a call has returned
makes an entry of the ledger, and the sessions agree with the entries all along a run.
-/

namespace NexusAi.Auth

section

variable {D : Type}

/-- The phases of a call that may still be refused by what it reads of the identities. -/
def Phase.refusable : Phase D → Bool
  | .authenticating _ | .verifying _ _ | .selecting _ _ | .probing _ _ _ | .joining _ _ _
  | .admitting _ _ _ => true
  | _ => false

def Phase.isClosed : Phase D → Bool
  | .closed _ => true
  | _ => false

variable [DecidableEq D]

inductive Goes (service : Service D) (w : World D) : Phase D → Phase D → Prop
  | refused (p : Phase D) (error : AuthError) (hp : p.refusable) :
      Goes service w p (.closed (.failed error))
  | named (user : User) (request : LoginRequest)
      (h : w.identities.byEmail request.email = some user) :
      Goes service w (.authenticating request) (.verifying user request)
  | verified (user : User) (request : LoginRequest) (h : user.status = .active) :
      Goes service w (.verifying user request) (.selecting user.id request.organizationId)
  | selected (userId organizationId : ℕ) (requested : Option ℕ) :
      Goes service w (.selecting userId requested) (.establishing userId organizationId)
  | starts (userId organizationId : ℕ) :
      Goes service w (.establishing userId organizationId) (.probing userId organizationId w.clock)
  | probed (userId organizationId : ℕ) (now : ℤ)
      (h : w.identities.operational organizationId) :
      Goes service w (.probing userId organizationId now) (.joining userId organizationId now)
  | joined (userId organizationId : ℕ) (now : ℤ)
      (h : activeIn userId organizationId w.identities.memberships) :
      Goes service w (.joining userId organizationId now) (.inserting userId organizationId now)
  | missed (token : RefreshToken) (now : ℤ) (h : w.byTokenHash service token = none) :
      Goes service w (.looking token now) (.tracing token)
  | dead (token : RefreshToken) (now : ℤ) (row : RefreshSession D)
      (h : w.byTokenHash service token = some row) :
      Goes service w (.looking token now) (.closed refreshFailed)
  | found (token : RefreshToken) (now : ℤ) (row : RefreshSession D)
      (h : w.byTokenHash service token = some row) (hnow : now < row.expiresAt) :
      Goes service w (.looking token now) (.vetting token now row)
  | untraced (token : RefreshToken) (h : w.byPreviousTokenHash service token = none) :
      Goes service w (.tracing token) (.closed refreshFailed)
  | traced (token : RefreshToken) (row : RefreshSession D)
      (h : w.byPreviousTokenHash service token = some row) :
      Goes service w (.tracing token) (.condemning row.id)
  | vetted (token : RefreshToken) (now : ℤ) (row : RefreshSession D)
      (h : w.identities.activeUser row.userId) :
      Goes service w (.vetting token now row) (.admitting token now row)
  | suspended (token : RefreshToken) (now : ℤ) (row : RefreshSession D) :
      Goes service w (.vetting token now row) (.condemning row.id)
  | admitted (token : RefreshToken) (now : ℤ) (row : RefreshSession D)
      (h : activeIn row.userId token.organizationId w.identities.memberships) :
      Goes service w (.admitting token now row) (.rotating token now row)
  | lost (token : RefreshToken) (now : ℤ) (row : RefreshSession D) :
      Goes service w (.rotating token now row) (.condemning row.id)
  | unheld (token : RefreshToken) (h : w.byTokenHash service token = none) :
      Goes service w (.leaving token) (.leavingOld token)
  | quits (token : RefreshToken) (row : RefreshSession D)
      (h : w.byTokenHash service token = some row) :
      Goes service w (.leaving token) (World.quitPhase row)
  | strays (token : RefreshToken) (h : w.byPreviousTokenHash service token = none) :
      Goes service w (.leavingOld token) (.closed .left)
  | quitsOld (token : RefreshToken) (row : RefreshSession D)
      (h : w.byPreviousTokenHash service token = some row) :
      Goes service w (.leavingOld token) (World.quitPhase row)

inductive Begins (w : World D) : Request → Phase D → Prop
  | login (request : LoginRequest) : Begins w (.login request) (.authenticating request)
  | refresh (token : RefreshToken) : Begins w (.refresh (some token)) (.looking token w.clock)
  | logout (token : RefreshToken) : Begins w (.logout (some token)) (.leaving token)
  | malformed : Begins w (.refresh none) (.closed refreshFailed)
  | stray : Begins w (.logout none) (.closed .left)

namespace World

inductive Turn (service : Service D) (w : World D) : Action → World D → Prop
  | idle (a : Action) : Turn service w a w
  | ticks (seconds : ℕ) : Turn service w (.tick seconds) { w with clock := w.clock+seconds }
  | administers (identities : Identities) :
      Turn service w (.administer identities) { w with identities := identities }
  | admits (a : Action) (request : Request) (p : Phase D) (hp : Begins w request p) :
      Turn service w a (w.admitCall request p)
  | aborts (i : ℕ) (c : Call D) (hi : w.calls[i]? = some c) (hopen : c.phase.isClosed = false) :
      Turn service w (.abort i) (w.enter i (.closed .aborted))
  | enters (i : ℕ) (c : Call D) (p : Phase D) (hi : w.calls[i]? = some c)
      (hgoes : Goes service w c.phase p) : Turn service w (.advance i) (w.enter i p)
  | revokes (i : ℕ) (c : Call D) (sessionId : ℕ) (outcome : Outcome) (hi : w.calls[i]? = some c)
      (hp : c.phase = .condemning sessionId ∧ outcome = refreshFailed ∨
        c.phase = .quitting sessionId ∧ outcome = .left) :
      Turn service w (.advance i) (w.revokeStep i sessionId outcome)
  | inserts (i : ℕ) (c : Call D) (userId organizationId : ℕ) (now : ℤ)
      (hi : w.calls[i]? = some c) (hp : c.phase = .inserting userId organizationId now) :
      Turn service w (.advance i) (w.insertStep service i userId organizationId now)
  | rotates (i : ℕ) (c : Call D) (token : RefreshToken) (now : ℤ) (row : RefreshSession D)
      (hi : w.calls[i]? = some c) (hp : c.phase = .rotating token now row)
      (hany : ∃ s ∈ w.sessions, World.rotates service token row.id s) :
      Turn service w (.advance i) ((w.store (w.sessions.map
        (rotate service token ⟨token.organizationId,i⟩ row.id))).enter i
          (.closed (.issued row.userId token.organizationId row.id ⟨token.organizationId,i⟩)))

variable {service : Service D} {w : World D} {i : ℕ} {c : Call D}

omit [DecidableEq D] in
theorem phase_of_call (hi : w.calls[i]? = some c) :
    w.phase i = some c.phase := by
  simp [phase,hi]

omit [DecidableEq D] in
theorem call_of_phase {p : Phase D} (h : w.phase i = some p) :
    ∃ c, w.calls[i]? = some c ∧ c.phase = p :=
  Option.map_eq_some_iff.mp h

theorem goes_authenticate (request : LoginRequest) :
    Goes service w (.authenticating request) (authenticatePhase w.identities request) := by
  unfold authenticatePhase
  cases h : w.identities.byEmail request.email with
  | none => exact .refused _ _ rfl
  | some user => exact .named user request h

theorem goes_verify (user : User) (request : LoginRequest) :
    Goes service w (.verifying user request)
      (verifyPhase service w.identities user request) := by
  simp only [verifyPhase]
  split_ifs with h
  · exact .refused _ _ rfl
  · refine .verified user request ?_
    by_contra hs
    exact h (by simp [hs])

theorem goes_select (userId : ℕ) (requested : Option ℕ) :
    Goes service w (.selecting userId requested)
      (selectPhase w.identities userId requested) := by
  unfold selectPhase
  split
  · exact .refused _ _ rfl
  · exact .selected userId _ requested

theorem goes_probe (userId organizationId : ℕ) (now : ℤ) :
    Goes service w (.probing userId organizationId now)
      (probePhase w.identities userId organizationId now) := by
  unfold probePhase
  cases h : w.identities.currentStatus organizationId with
  | none => exact .refused _ _ rfl
  | some =>
    dsimp only
    split_ifs with hop
    · exact .probed userId organizationId now (by simp [Identities.operational,h,hop])
    · exact .refused _ _ rfl

theorem goes_join (userId organizationId : ℕ) (now : ℤ) :
    Goes service w (.joining userId organizationId now)
      (joinPhase w.identities userId organizationId now) := by
  unfold joinPhase
  split_ifs with h
  · exact .joined userId organizationId now h
  · exact .refused _ _ rfl

section

variable (token : RefreshToken)

theorem goes_look (now : ℤ) :
    Goes service w (.looking token now) (w.lookPhase service token now) := by
  unfold lookPhase
  cases h : w.byTokenHash service token with
  | none => exact .missed token now h
  | some row =>
    dsimp only
    split_ifs with hdead
    · exact .dead token now row h
    · exact .found token now row h (Int.lt_of_not_ge fun hge => hdead (.inr hge))

theorem goes_trace : Goes service w (.tracing token) (w.tracePhase service token) := by
  unfold tracePhase
  cases h : w.byPreviousTokenHash service token with
  | none => exact .untraced token h
  | some row => exact .traced token row h

theorem goes_vet (now : ℤ) (row : RefreshSession D) :
    Goes service w (.vetting token now row) (vetPhase w.identities token now row) := by
  unfold vetPhase
  split_ifs with h
  · exact .vetted token now row h
  · exact .suspended token now row

theorem goes_admit (now : ℤ) (row : RefreshSession D) :
    Goes service w (.admitting token now row) (admitPhase w.identities token now row) := by
  unfold admitPhase
  split_ifs with h
  · exact .admitted token now row h
  · exact .refused _ _ rfl

theorem goes_leave : Goes service w (.leaving token) (w.leavePhase service token) := by
  unfold leavePhase
  cases h : w.byTokenHash service token with
  | none => exact .unheld token h
  | some row => exact .quits token row h

theorem goes_leaveOld : Goes service w (.leavingOld token) (w.leaveOldPhase service token) := by
  unfold leaveOldPhase
  cases h : w.byPreviousTokenHash service token with
  | none => exact .strays token h
  | some row => exact .quitsOld token row h

end

theorem rotateStep_turn (hi : w.calls[i]? = some c) {token : RefreshToken}
    {now : ℤ} {row : RefreshSession D} (hp : c.phase = .rotating token now row) :
    Turn service w (.advance i) (w.rotateStep service i token row) := by
  simp only [rotateStep]
  split_ifs with hany
  · exact .rotates i c token now row hi hp (List.any_eq_true.mp hany)
  · exact .enters i c _ hi (hp ▸ .lost token now row)

theorem advanceStep_turn (hi : w.calls[i]? = some c) :
    Turn service w (.advance i) (w.advanceStep service i c.phase) := by
  have hread : ∀ p, Goes service w c.phase p → Turn service w (.advance i) (w.enter i p) :=
    fun p hgoes => .enters i c p hi hgoes
  cases hp : c.phase with
  | authenticating request => exact hread _ (hp ▸ goes_authenticate request)
  | verifying user request => exact hread _ (hp ▸ goes_verify user request)
  | selecting userId requested => exact hread _ (hp ▸ goes_select userId requested)
  | establishing userId organizationId => exact hread _ (hp ▸ .starts userId organizationId)
  | probing userId organizationId now => exact hread _ (hp ▸ goes_probe userId organizationId now)
  | joining userId organizationId now => exact hread _ (hp ▸ goes_join userId organizationId now)
  | inserting userId organizationId now => exact .inserts i c userId organizationId now hi hp
  | looking token now => exact hread _ (hp ▸ goes_look token now)
  | tracing token => exact hread _ (hp ▸ goes_trace token)
  | vetting token now row => exact hread _ (hp ▸ goes_vet token now row)
  | admitting token now row => exact hread _ (hp ▸ goes_admit token now row)
  | rotating => exact rotateStep_turn hi hp
  | condemning sessionId => exact .revokes i c sessionId _ hi (.inl ⟨hp,rfl⟩)
  | leaving token => exact hread _ (hp ▸ goes_leave token)
  | leavingOld token => exact hread _ (hp ▸ goes_leaveOld token)
  | quitting sessionId => exact .revokes i c sessionId _ hi (.inr ⟨hp,rfl⟩)
  | closed => exact .idle _

theorem step_turn (w : World D) (a : Action) : Turn service w a (w.step service a) := by
  cases a with
  | login request => exact .admits _ _ _ (.login request)
  | refresh raw =>
    cases raw with
    | none => exact .admits _ _ _ .malformed
    | some token => exact .admits _ _ _ (.refresh token)
  | logout raw =>
    cases raw with
    | none => exact .admits _ _ _ .stray
    | some token => exact .admits _ _ _ (.logout token)
  | advance i =>
    cases hphase : w.phase i with
    | none =>
      simp only [step,hphase]
      exact .idle _
    | some =>
      obtain ⟨c,hi,rfl⟩ := call_of_phase hphase
      simp only [step,hphase]
      exact advanceStep_turn hi
  | abort i =>
    cases hphase : w.phase i with
    | none =>
      simp only [step,hphase]
      exact .idle _
    | some =>
      obtain ⟨c,hi,rfl⟩ := call_of_phase hphase
      simp only [step,hphase]
      cases hp : c.phase with
      | closed => exact .idle _
      | _ => exact .aborts i c hi (by rw [hp]; rfl)
  | tick seconds => exact .ticks seconds
  | administer identities => exact .administers identities

end World

end

variable {D : Type}

def Request.presented : Request → Option RefreshToken
  | .refresh raw => raw
  | _ => none

def Call.issue (c : Call D) : Option Issue :=
  match c.phase with
  | .closed (.issued _ organizationId sessionId token) =>
    some ⟨c.request.presented,organizationId,sessionId,token⟩
  | _ => none

/-- The token that a call which may come to issue was presented with. -/
def Phase.presents : Phase D → Option (Option RefreshToken)
  | .authenticating _ | .verifying _ _ | .selecting _ _ | .establishing _ _ | .probing _ _ _
  | .joining _ _ _ | .inserting _ _ _ => some none
  | .looking t _ | .vetting t _ _ | .admitting t _ _ | .rotating t _ _ => some (some t)
  | _ => none

theorem Call.issue_of_open {c : Call D} (h : c.phase.isClosed = false) : c.issue = none := by
  unfold issue
  cases hp : c.phase with
  | closed => rw [hp] at h; cases h
  | _ => rfl

theorem Call.issue_closed (request : Request) (userId organizationId sessionId : ℕ)
    (token : RefreshToken) :
    Call.issue (⟨request,.closed (.issued userId organizationId sessionId token)⟩ : Call D) =
      some ⟨request.presented,organizationId,sessionId,token⟩ := rfl

variable {p : Phase D}

theorem presents_open {q : Option RefreshToken} (h : p.presents = some q) : p.isClosed = false := by
  cases p with
  | closed => cases h
  | _ => rfl

theorem quitPhase_issue (request : Request) (row : RefreshSession D) :
    Call.issue ⟨request,World.quitPhase row⟩ = none := by
  unfold World.quitPhase
  split_ifs <;> rfl

theorem quitPhase_presents (row : RefreshSession D) : (World.quitPhase row).presents = none := by
  unfold World.quitPhase
  split_ifs <;> rfl

variable [DecidableEq D] {service : Service D} {w w' : World D} {a : Action} {q : Phase D}

theorem Goes.open (h : Goes service w p q) : p.isClosed = false := by
  cases h with
  | refused p _ hp =>
    cases p with
    | closed => cases hp
    | _ => rfl
  | _ => rfl

theorem Goes.unissued (h : Goes service w p q) (request : Request) :
    Call.issue ⟨request,q⟩ = none := by
  cases h with
  | quits _ row | quitsOld _ row => exact quitPhase_issue request row
  | _ => rfl

theorem Goes.presents (h : Goes service w p q) {t : Option RefreshToken}
    (ht : q.presents = some t) : p.presents = some t := by
  cases h with
  | quits | quitsOld => rw [quitPhase_presents] at ht; cases ht
  | named | verified | selected | starts | probed | joined | found | vetted | admitted => exact ht
  | _ => cases ht

omit [DecidableEq D] in
theorem Begins.unissued {request : Request} (h : Begins w request p) :
    Call.issue ⟨request,p⟩ = none := by
  cases h <;> rfl

omit [DecidableEq D] in
theorem Begins.presents {request : Request} (h : Begins w request p) {t : Option RefreshToken}
    (ht : p.presents = some t) : request.presented = t := by
  cases h with
  | login | refresh => exact Option.some.inj ht
  | _ => cases ht

namespace World

def issueAt (w : World D) (i : ℕ) : Option Issue := (w.calls[i]?).bind Call.issue

/-- A call that may come to issue remembers what it was presented with. -/
structure Sound (service : Service D) (w : World D) : Prop where
  ledger : Ledger service w.sessions w.issueAt
  asked : ∀ (i : ℕ) c q, w.calls[i]? = some c → c.phase.presents = some q →
    c.request.presented = q

variable {i : ℕ} {c : Call D} {p : Phase D}

omit [DecidableEq D] in
theorem issueAt_of_call (hi : w.calls[i]? = some c) : w.issueAt i = c.issue := by
  simp [issueAt,hi]

omit [DecidableEq D] in
theorem calls_enter (hi : w.calls[i]? = some c) (p : Phase D) (j : ℕ) :
    (w.enter i p).calls[j]? = if j = i then some { c with phase := p } else w.calls[j]? :=
  Batch.modify_at hi _ j

omit [DecidableEq D] in
theorem phase_enter (hi : w.calls[i]? = some c) (p : Phase D) (j : ℕ) :
    (w.enter i p).phase j = if j = i then some p else w.phase j := by
  unfold phase
  rw [calls_enter hi]
  split_ifs <;> rfl

omit [DecidableEq D] in
theorem issueAt_enter (hi : w.calls[i]? = some c) (p : Phase D) :
    (w.enter i p).issueAt = Function.update w.issueAt i (Call.issue { c with phase := p }) := by
  funext j
  unfold issueAt
  rw [calls_enter hi]
  by_cases hj : j = i
  · simp [hj]
  · simp [hj]

omit [DecidableEq D] in
theorem issueAt_enter_open (hi : w.calls[i]? = some c) (hopen : c.phase.isClosed = false)
    (hp : Call.issue { c with phase := p } = none) : (w.enter i p).issueAt = w.issueAt := by
  rw [issueAt_enter hi,hp,← Call.issue_of_open hopen,← issueAt_of_call hi,
    Function.update_eq_self]

omit [DecidableEq D] in
theorem issueAt_store (sessions : List (RefreshSession D)) (i : ℕ) (p : Phase D) :
    ((w.store sessions).enter i p).issueAt = (w.enter i p).issueAt := rfl

omit [DecidableEq D] in
theorem issueAt_admitCall {request : Request} (hp : Call.issue ⟨request,p⟩ = none) :
    (w.admitCall request p).issueAt = w.issueAt := by
  funext j
  unfold issueAt admitCall
  rcases Nat.lt_trichotomy j w.calls.length with hlt | rfl | _
  · rw [List.getElem?_append_left hlt]
  · simp [hp]
  · rw [List.getElem?_eq_none (by simp; omega),List.getElem?_eq_none (by omega)]

theorem byTokenHash_some {token : RefreshToken} {row : RefreshSession D}
    (h : w.byTokenHash service token = some row) :
    row ∈ w.sessions ∧ row.organizationId = token.organizationId ∧
      row.tokenHash = service.hashRefreshToken token := by
  have htest := List.find?_some h
  exact ⟨List.mem_of_find?_eq_some h,of_decide_eq_true htest⟩

theorem Turn.posts (h : Turn service w a w') (hsound : w.Sound service) :
    Posts service w.sessions w.issueAt w'.sessions w'.issueAt := by
  cases h with
  | idle | ticks | administers => exact .same
  | admits _ _ _ hp =>
    rw [issueAt_admitCall hp.unissued]
    exact .same
  | aborts _ _ hi hopen =>
    rw [issueAt_enter_open hi hopen rfl]
    exact .same
  | enters _ c _ hi hgoes =>
    rw [issueAt_enter_open hi hgoes.open (hgoes.unissued c.request)]
    exact .same
  | revokes _ c sessionId outcome hi hp =>
    have hopen : c.phase.isClosed = false := by
      rcases hp with ⟨hp,-⟩ | ⟨hp,-⟩ <;> rw [hp] <;> rfl
    have hunissued : Call.issue (⟨c.request,.closed outcome⟩ : Call D) = none := by
      rcases hp with ⟨-,rfl⟩ | ⟨-,rfl⟩ <;> rfl
    rw [revokeStep,issueAt_store,issueAt_enter_open hi hopen hunissued]
    exact .revokes sessionId w.clock
  | inserts i c userId organizationId now hi hp =>
    have hpresents : c.phase.presents = some none := by rw [hp]; rfl
    have hnone : w.issueAt i = none := by
      rw [issueAt_of_call hi,Call.issue_of_open (presents_open hpresents)]
    rw [insertStep,issueAt_store,issueAt_enter hi,Call.issue_closed,
      hsound.asked i c none hi hpresents]
    exact .inserts i userId organizationId now hnone
  | rotates i c token _ row hi hp hany =>
    have hpresents : c.phase.presents = some (some token) := by rw [hp]; rfl
    have hnone : w.issueAt i = none := by
      rw [issueAt_of_call hi,Call.issue_of_open (presents_open hpresents)]
    rw [issueAt_store,issueAt_enter hi,Call.issue_closed,
      hsound.asked i c (some token) hi hpresents]
    exact .rotates i token row.id hnone hany

theorem Turn.asked (h : Turn service w a w') (hsound : w.Sound service) (i : ℕ) (c : Call D)
    (q : Option RefreshToken) (hi : w'.calls[i]? = some c) (hq : c.phase.presents = some q) :
    c.request.presented = q := by
  have hentered : ∀ {j : ℕ} {b : Call D} {p : Phase D}, w.calls[j]? = some b →
      (p.presents = some q → b.phase.presents = some q) → (w.enter j p).calls[i]? = some c →
      c.request.presented = q := by
    intro j b p hj hp hc
    rcases Batch.modified hj hc with ⟨rfl,rfl⟩ | ⟨-,hc⟩
    · exact hsound.asked i b q hj (hp hq)
    · exact hsound.asked i c q hc hq
  cases h with
  | idle | ticks | administers => exact hsound.asked i c q hi hq
  | admits _ _ _ hp =>
    rcases Batch.concat_cases hi with ⟨-,rfl⟩ | hi
    · exact hp.presents hq
    · exact hsound.asked i c q hi hq
  | aborts _ _ hj | inserts _ _ _ _ _ hj | rotates _ _ _ _ _ hj =>
    exact hentered hj (by simp [Phase.presents]) hi
  | enters _ _ _ hj hgoes => exact hentered hj hgoes.presents hi
  | revokes _ _ _ outcome hj =>
    exact hentered (p := .closed outcome) hj (by simp [Phase.presents]) hi

theorem Sound.step (h : w.Sound service) (a : Action) : (w.step service a).Sound service :=
  ⟨((step_turn w a).posts h).ledger h.ledger,(step_turn w a).asked h⟩

omit [DecidableEq D] in
theorem sound_initial (identities : Identities) (clock : ℤ) :
    (initial identities clock : World D).Sound service :=
  ⟨Ledger.nil,by simp [initial]⟩

theorem exec_sound (as : List Action) (h : w.Sound service) :
    (Run.exec (step service) as w).Sound service :=
  Run.exec_invariant _ (Sound service) (fun _ a h => h.step a) as w h

end World

end NexusAi.Auth
