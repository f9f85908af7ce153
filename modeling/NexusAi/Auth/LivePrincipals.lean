import NexusAi.Auth.Family

/-!
# Tokens for live principals

A sign-in checks the user, the Organization and the membership in three transactions,
and a refresh the session, the user and the membership in one; no row that a call has
checked is locked. As long as nothing is taken back under a call, what it has checked
still holds when it commits. The validator of an access token also asks for an operational
Organization, and a refresh does not.
-/

namespace NexusAi.Auth
open NexusAi.Checked

section

variable {D : Type}

def Phase.relies (ids : Identities) : Phase D → Bool
  | .verifying user _ => user.status ≠ .active || ids.activeUser user.id
  | .selecting userId _ | .establishing userId _ | .probing userId _ _ => ids.activeUser userId
  | .joining userId organizationId _ =>
    ids.activeUser userId && ids.operational organizationId
  | .inserting userId organizationId _ => ids.activeUser userId &&
      ids.operational organizationId && activeIn userId organizationId ids.memberships
  | .admitting _ _ row => ids.activeUser row.userId
  | .rotating token _ row => ids.activeUser row.userId &&
      ids.operational token.organizationId &&
      activeIn row.userId token.organizationId ids.memberships
  | _ => true

def Phase.read : Phase D → Option (ℤ × RefreshSession D)
  | .vetting _ now row | .admitting _ now row | .rotating _ now row => some (now,row)
  | _ => none

/-- The token of a refresh that may come to rotate it, and when the call was made. -/
def Phase.exchanges : Phase D → Option (RefreshToken × ℤ)
  | .looking token now | .vetting token now _ | .admitting token now _ | .rotating token now _ =>
    some (token,now)
  | _ => none

def Phase.opens : Phase D → Option ℤ
  | .probing _ _ now | .joining _ _ now | .inserting _ _ now => some now
  | _ => none

namespace World

variable [DecidableEq D] (service : Service D)

/-- A session that the call may come to issue for has not expired by then. -/
def inTime (w : World D) (clock : ℤ) (p : Phase D) : Bool :=
  (p.opens.all fun now => clock < now+service.refreshTokenTtlSeconds) &&
    p.exchanges.all fun e => w.sessions.all fun s =>
      s.tokenHash = service.hashRefreshToken e.1 → e.2 < s.expiresAt → clock < s.expiresAt

/-- Nothing that a call under way has checked is taken back, no session expires under a call,
and a refresh that finds the membership finds the Organization operational. -/
def steady (w : World D) : Action → Bool
  | .administer identities => w.calls.all fun c => c.phase.relies identities
  | .tick seconds => w.calls.all fun c => w.inTime service (w.clock+seconds) c.phase
  | .advance i =>
    match w.phase i with
    | some (.admitting token _ row) => w.identities.operational token.organizationId ||
        !activeIn row.userId token.organizationId w.identities.memberships
    | _ => true
  | _ => true

variable {service} {w : World D} {a : Action}

structure Live (service : Service D) (w : World D) : Prop where
  sound : w.Sound service
  relies : ∀ (i : ℕ) c, w.calls[i]? = some c → c.phase.relies w.identities
  inTime : ∀ (i : ℕ) c, w.calls[i]? = some c → w.inTime service w.clock c.phase
  read : ∀ (i : ℕ) c now row, w.calls[i]? = some c → c.phase.read = some (now,row) →
    now < row.expiresAt ∧ ∃ s ∈ w.sessions, s.id = row.id ∧ s.expiresAt = row.expiresAt

variable {p q : Phase D} {sessions : List (RefreshSession D)} {i : ℕ} {c : Call D}

theorem inTime_iff {clock : ℤ} : w.inTime service clock p ↔
    (∀ now, p.opens = some now → clock < now+service.refreshTokenTtlSeconds) ∧
    ∀ token now, p.exchanges = some (token,now) → ∀ s ∈ w.sessions,
      s.tokenHash = service.hashRefreshToken token → now < s.expiresAt → clock < s.expiresAt := by
  unfold inTime
  rw [Bool.and_eq_true_iff]
  refine and_congr ?_ ?_
  · cases p.opens <;> simp
  · cases p.exchanges with
    | none => simp
    | some e =>
      simp only [Option.all_some,List.all_eq_true,decide_eq_true_eq,Option.some.injEq]
      constructor
      · rintro h _ _ rfl
        exact h
      · intro h
        exact h e.1 e.2 rfl

theorem inTime_stored {clock : ℤ} (h : w.inTime service clock p)
    (hrows : ∀ s' ∈ sessions, clock < s'.expiresAt ∨
      ∃ s ∈ w.sessions, s.tokenHash = s'.tokenHash ∧ s.expiresAt = s'.expiresAt) :
    (w.store sessions).inTime service clock p := by
  obtain ⟨hopens,hexchanges⟩ := inTime_iff.mp h
  refine inTime_iff.mpr ⟨hopens,?_⟩
  intro token now hp s' hs' hhash hnow
  rcases hrows s' hs' with hlater | ⟨s,hs,htoken,hexpires⟩
  · exact hlater
  · rw [← hexpires] at hnow ⊢
    exact hexchanges token now hp s hs (htoken.trans hhash) hnow

theorem Live.entered (h : w.Live service) (hi : w.calls[i]? = some c)
    (hsound : ((w.store sessions).enter i p).Sound service)
    (hrows : ∀ s' ∈ sessions, w.clock < s'.expiresAt ∨
      ∃ s ∈ w.sessions, s.tokenHash = s'.tokenHash ∧ s.expiresAt = s'.expiresAt)
    (hkept : ∀ s ∈ w.sessions, ∃ s' ∈ sessions, s'.id = s.id ∧ s'.expiresAt = s.expiresAt)
    (hrelies : p.relies w.identities)
    (htime : (w.store sessions).inTime service w.clock p)
    (hread : ∀ now row, p.read = some (now,row) → now < row.expiresAt ∧
      ∃ s ∈ sessions, s.id = row.id ∧ s.expiresAt = row.expiresAt) :
    ((w.store sessions).enter i p).Live service := by
  have hi' : (w.store sessions).calls[i]? = some c := hi
  constructor
  · exact hsound
  · exact Batch.forall_modify hi' hrelies h.relies
  · exact Batch.forall_modify hi' htime fun j b hb => inTime_stored (h.inTime j b hb) hrows
  · intro j b now row hb hp
    rcases Batch.modified hi' hb with ⟨-,rfl⟩ | ⟨-,hb⟩
    · exact hread now row hp
    · obtain ⟨hnow,s,hs,hid,hexpires⟩ := h.read j b now row hb hp
      obtain ⟨s',hs',hid',hexpires'⟩ := hkept s hs
      exact ⟨hnow,s',hs',hid'.trans hid,hexpires'.trans hexpires⟩

theorem goes_relies (hgoes : Goes service w p q) (hp : p.relies w.identities)
    (hphase : w.phase i = some p) (hok : w.steady service (.advance i)) :
    q.relies w.identities := by
  cases hgoes with
  | named user _ hfound =>
    have hmem := List.mem_of_find?_eq_some hfound
    by_cases hactive : user.status = .active
    · have hbyId : w.identities.byId user.id = some user :=
        Table.find_of_mem w.identities.users_keyed hmem
      simp [Phase.relies,Identities.activeUser,hbyId,hactive]
    · simp [Phase.relies,hactive]
  | verified _ _ hactive => simpa [Phase.relies,hactive] using hp
  | selected | starts => exact hp
  | probed _ _ _ hop =>
    exact Bool.and_eq_true_iff.mpr ⟨hp,hop⟩
  | joined _ _ _ hmember =>
    exact Bool.and_eq_true_iff.mpr ⟨hp,hmember⟩
  | vetted _ _ _ huser => exact huser
  | admitted token _ _ hmember =>
    have hop : w.identities.operational token.organizationId := by
      simpa [steady,hphase,hmember] using hok
    exact Bool.and_eq_true_iff.mpr ⟨Bool.and_eq_true_iff.mpr ⟨hp,hop⟩,hmember⟩
  | quits | quitsOld => unfold quitPhase; split_ifs <;> rfl
  | _ => rfl

omit [DecidableEq D] in
theorem quitPhase_opens (row : RefreshSession D) : (quitPhase row).opens = none ∧
    (quitPhase row).exchanges = none ∧ (quitPhase row).read = none := by
  unfold quitPhase
  split_ifs <;> exact ⟨rfl,rfl,rfl⟩

theorem goes_inTime (hgoes : Goes service w p q) (hp : w.inTime service w.clock p) :
    w.inTime service w.clock q := by
  obtain ⟨hopens,hexchanges⟩ := inTime_iff.mp hp
  refine inTime_iff.mpr ?_
  cases hgoes with
  | starts =>
    refine ⟨?_,by simp [Phase.exchanges]⟩
    rintro _ ⟨⟩
    have := service.ttl_bounds.1
    omega
  | probed | joined => exact ⟨hopens,by simp [Phase.exchanges]⟩
  | found | vetted | admitted => exact ⟨by simp [Phase.opens],hexchanges⟩
  | quits _ row | quitsOld _ row =>
    obtain ⟨h₁,h₂,-⟩ := quitPhase_opens row
    simp [h₁,h₂]
  | _ => exact ⟨by simp [Phase.opens],by simp [Phase.exchanges]⟩

theorem goes_read (hgoes : Goes service w p q) {now : ℤ} {row : RefreshSession D}
    (hq : q.read = some (now,row)) :
    p.read = some (now,row) ∨ now < row.expiresAt ∧ row ∈ w.sessions := by
  cases hgoes with
  | found _ _ _ hfound hnow =>
    cases hq
    exact .inr ⟨hnow,(byTokenHash_some hfound).1⟩
  | vetted | admitted => exact .inl hq
  | quits _ row' | quitsOld _ row' => rw [(quitPhase_opens row').2.2] at hq; cases hq
  | _ => cases hq

section

variable (h : w.Live service) (hi : w.calls[i]? = some c)

include h hi

theorem Live.rotated {token : RefreshToken} {now : ℤ} {row s : RefreshSession D}
    (hp : c.phase = .rotating token now row) (hs : s ∈ w.sessions)
    (hrotates : rotates service token row.id s) : w.clock < s.expiresAt := by
  obtain ⟨hid,-,hhash,-⟩ := of_decide_eq_true hrotates
  obtain ⟨hnow,r,hr,hrid,hexpires⟩ := h.read i c now row hi (by rw [hp]; rfl)
  obtain rfl := Table.mem_unique h.sound.ledger.keyed hr hs (hrid.trans hid.symm)
  have htime := (inTime_iff.mp (h.inTime i c hi)).2 token now (by rw [hp]; rfl)
  exact htime r hs hhash (hexpires ▸ hnow)

theorem Live.goes (hsound : (w.enter i p).Sound service) (hrelies : p.relies w.identities)
    (htime : w.inTime service w.clock p) (hread : ∀ now row, p.read = some (now,row) →
      c.phase.read = some (now,row) ∨ now < row.expiresAt ∧ row ∈ w.sessions) :
    (w.enter i p).Live service := by
  have hrows : ∀ s' ∈ w.sessions, w.clock < s'.expiresAt ∨
      ∃ s ∈ w.sessions, s.tokenHash = s'.tokenHash ∧ s.expiresAt = s'.expiresAt :=
    fun s hs => .inr ⟨s,hs,rfl,rfl⟩
  refine h.entered hi hsound hrows ?_ hrelies htime ?_
  · exact fun s hs => ⟨s,hs,rfl,rfl⟩
  · intro now row hp
    rcases hread now row hp with hold | ⟨hnow,hrow⟩
    · exact h.read i c now row hi hold
    · exact ⟨hnow,row,hrow,rfl,rfl⟩

theorem Live.commits {outcome : Outcome}
    (hsound : ((w.store sessions).enter i (.closed outcome)).Sound service)
    (hrows : ∀ s' ∈ sessions, w.clock < s'.expiresAt ∨
      ∃ s ∈ w.sessions, s.tokenHash = s'.tokenHash ∧ s.expiresAt = s'.expiresAt)
    (hkept : ∀ s ∈ w.sessions, ∃ s' ∈ sessions, s'.id = s.id ∧ s'.expiresAt = s.expiresAt) :
    ((w.store sessions).enter i (.closed outcome)).Live service := by
  refine h.entered hi hsound hrows hkept rfl ?_ ?_
  · exact inTime_iff.mpr ⟨by simp [Phase.opens],by simp [Phase.exchanges]⟩
  · simp [Phase.read]

end

theorem rotate_expiresAt (service : Service D) (token new : RefreshToken) (sessionId : ℕ)
    (s : RefreshSession D) : (rotate service token new sessionId s).expiresAt = s.expiresAt := by
  unfold rotate
  split_ifs <;> rfl

theorem Live.step (h : w.Live service) (hok : w.steady service a) :
    (w.step service a).Live service := by
  have hturn : Turn service w a (w.step service a) := step_turn w a
  have hsound := h.sound.step a
  generalize w.step service a = w' at hturn hsound ⊢
  cases hturn with
  | idle => exact h
  | ticks =>
    refine ⟨hsound,h.relies,?_,h.read⟩
    intro i c hi
    exact List.all_eq_true.mp hok c (List.mem_of_getElem? hi)
  | administers =>
    refine ⟨hsound,?_,h.inTime,h.read⟩
    intro i c hi
    exact List.all_eq_true.mp hok c (List.mem_of_getElem? hi)
  | admits _ _ _ hp =>
    refine ⟨hsound,?_,?_,?_⟩
    · exact Batch.forall_concat (by cases hp <;> rfl) h.relies
    · refine Batch.forall_concat (inTime_iff.mpr ?_) h.inTime
      cases hp with
      | refresh =>
        refine ⟨by simp [Phase.opens],?_⟩
        rintro t now ⟨⟩ s hs _ hnow
        exact hnow
      | _ => exact ⟨by simp [Phase.opens],by simp [Phase.exchanges]⟩
    · intro i c now row hi hread
      rcases Batch.concat_cases hi with ⟨-,rfl⟩ | hi
      · cases hp <;> cases hread
      · exact h.read i c now row hi hread
  | aborts _ _ hi =>
    refine h.goes hi hsound rfl ?_ (by simp [Phase.read])
    exact inTime_iff.mpr ⟨by simp [Phase.opens],by simp [Phase.exchanges]⟩
  | enters i c _ hi hgoes =>
    refine h.goes hi hsound ?_ (goes_inTime hgoes (h.inTime i c hi)) fun _ _ => goes_read hgoes
    exact goes_relies hgoes (h.relies i c hi) (phase_of_call hi) hok
  | revokes _ _ _ _ hi =>
    refine h.commits hi hsound ?_ ?_
    · intro s' hs'
      obtain ⟨s,hs,rfl⟩ := List.mem_map.mp hs'
      exact .inr ⟨s,hs,by rw [revoke_eq],by rw [revoke_eq]⟩
    · exact fun s hs => ⟨_,List.mem_map_of_mem hs,revoke_id _ _ s,by rw [revoke_eq]⟩
  | inserts i c _ _ now hi hp =>
    refine h.commits hi hsound ?_ ?_
    · intro s' hs'
      rcases List.mem_append.mp hs' with hs' | hs'
      · exact .inr ⟨s',hs',rfl,rfl⟩
      · obtain rfl := List.mem_singleton.mp hs'
        exact .inl ((inTime_iff.mp (h.inTime i c hi)).1 now (by rw [hp]; rfl))
    · exact fun s hs => ⟨s,List.mem_append_left _ hs,rfl,rfl⟩
  | rotates _ _ token _ row hi hp =>
    refine h.commits hi hsound ?_ ?_
    · intro s' hs'
      obtain ⟨s,hs,rfl⟩ := List.mem_map.mp hs'
      by_cases hthis : rotates service token row.id s
      · rw [rotate_expiresAt]
        exact .inl (h.rotated hi hp hs hthis)
      · exact .inr ⟨s,hs,by rw [rotate,if_neg hthis],by rw [rotate_expiresAt]⟩
    · exact fun s hs => ⟨_,List.mem_map_of_mem hs,rotate_id _ _ _ _ s,rotate_expiresAt _ _ _ _ s⟩

theorem live_initial (identities : Identities) (clock : ℤ) :
    (initial identities clock : World D).Live service :=
  ⟨sound_initial identities clock,by simp [initial],by simp [initial],by simp [initial]⟩

end World

end

variable {D : Type}

namespace World

def requireValidIn (w : World D) (organizationId userId sessionId : ℕ) :
    Except AuthError User := do
  let session ← present (w.sessions.find? fun s =>
    s.id = sessionId ∧ s.organizationId = organizationId)
    (.sessionRevoked "The session is no longer active.")
  require (session.revokedAt = none ∧ w.clock < session.expiresAt)
    (.sessionRevoked "The session is no longer active.")
  let user ← present (w.identities.byId userId) (.userInactive "The user is not active.")
  require (user.status = .active) (.userInactive "The user is not active.")
  require (activeIn userId organizationId w.identities.memberships)
    (.membershipInactive "The user's membership in this Organization is not active.")
  let status ← present (w.identities.currentStatus organizationId) noOrganization
  require (isOperational status)
    (.organizationInactive "The Organization is not accepting normal operations." status)
  pure user

variable [DecidableEq D] {service : Service D} {w : World D} {a : Action}

omit [DecidableEq D] in
theorem requireValidIn_ok {organizationId userId sessionId : ℕ} {s : RefreshSession D}
    (hkeyed : Table.Keyed RefreshSession.id w.sessions) (hs : s ∈ w.sessions)
    (hid : s.id = sessionId) (horganization : s.organizationId = organizationId)
    (hfree : s.revokedAt = none) (htime : w.clock < s.expiresAt)
    (huser : w.identities.activeUser userId)
    (hoperational : w.identities.operational organizationId)
    (hmember : activeIn userId organizationId w.identities.memberships) :
    ∃ user, w.requireValidIn organizationId userId sessionId = .ok user := by
  obtain ⟨user,hfound,hactive⟩ := (Option.any_eq_true _ _).mp huser
  obtain ⟨status,hstatus,hop⟩ := (Option.any_eq_true _ _).mp hoperational
  have hsession : w.sessions.find? (fun s =>
      s.id = sessionId ∧ s.organizationId = organizationId) = some s := by
    cases hfind : w.sessions.find? (fun s =>
        s.id = sessionId ∧ s.organizationId = organizationId) with
    | none =>
      have hnot := List.find?_eq_none.mp hfind s hs
      exact absurd (decide_eq_true ⟨hid,horganization⟩) hnot
    | some r =>
      have htest := List.find?_some hfind
      have hr : r.id = sessionId := (of_decide_eq_true htest).1
      rw [Table.mem_unique hkeyed (List.mem_of_find?_eq_some hfind) hs (hr.trans hid.symm)]
  refine ⟨user,?_⟩
  simp only [requireValidIn,bind_ok,present_ok,require_ok,pure_ok]
  exact ⟨s,hsession,(),⟨hfree,htime⟩,user,hfound,(),of_decide_eq_true hactive,(),hmember,status,
    hstatus,(),hop,rfl⟩

theorem Live.issues (h : w.Live service) (hlive : (w.step service a).Live service) {i : ℕ}
    {userId organizationId sessionId : ℕ} {token : RefreshToken}
    (hbefore : w.phase i ≠ some (.closed (.issued userId organizationId sessionId token)))
    (hafter : (w.step service a).phase i =
      some (.closed (.issued userId organizationId sessionId token))) :
    ∃ user, (w.step service a).requireValidIn organizationId userId sessionId = .ok user := by
  have hturn : Turn service w a (w.step service a) := step_turn w a
  generalize w.step service a = w' at hturn hlive hafter ⊢
  have hentered : ∀ {l : List (RefreshSession D)} {j : ℕ} {c : Call D} {p : Phase D},
      w.calls[j]? = some c → ((w.store l).enter j p).phase i =
        some (.closed (.issued userId organizationId sessionId token)) →
      p = .closed (.issued userId organizationId sessionId token) := by
    intro l j c p hj hp
    rw [phase_enter (w := w.store l) hj] at hp
    by_cases hij : i = j
    · rw [if_pos hij] at hp
      exact Option.some.inj hp
    · rw [if_neg hij] at hp
      exact absurd hp hbefore
  cases hturn with
  | idle | ticks | administers => exact absurd hafter hbefore
  | admits _ _ p hp =>
    obtain ⟨c,hc,hphase⟩ := call_of_phase hafter
    rcases Batch.concat_cases hc with ⟨-,rfl⟩ | hc
    · rw [show p = _ from hphase] at hp
      cases hp
    · exact absurd (hphase ▸ phase_of_call hc) hbefore
  | aborts _ _ hj => cases hentered (l := w.sessions) hj hafter
  | enters _ c _ hj hgoes =>
    obtain rfl := hentered (l := w.sessions) hj hafter
    cases hgoes.unissued c.request
  | revokes _ _ _ _ hj hp =>
    have heq := hentered hj hafter
    rcases hp with ⟨-,rfl⟩ | ⟨-,rfl⟩ <;> cases heq
  | inserts _ c _ _ now hj hp =>
    cases hentered hj hafter
    have hrelies := h.relies _ c hj
    rw [hp] at hrelies
    simp only [Phase.relies,Bool.and_eq_true] at hrelies
    refine requireValidIn_ok hlive.sound.ledger.keyed
      (List.mem_append_right _ (List.mem_singleton_self _)) rfl rfl rfl ?_ hrelies.1.1 hrelies.1.2
      hrelies.2
    exact (inTime_iff.mp (h.inTime _ c hj)).1 now (by rw [hp]; rfl)
  | rotates _ c _ _ _ hj hp hany =>
    cases hentered hj hafter
    have hrelies := h.relies _ c hj
    rw [hp] at hrelies
    simp only [Phase.relies,Bool.and_eq_true] at hrelies
    obtain ⟨s,hs,hrotates⟩ := hany
    obtain ⟨hid,horganization,-,hfree⟩ := of_decide_eq_true hrotates
    refine requireValidIn_ok hlive.sound.ledger.keyed (List.mem_map_of_mem hs)
      ((rotate_id _ _ _ _ s).trans hid) ((rotate_organizationId _ _ _ _ s).trans horganization)
      ?_ ?_ hrelies.1.1 hrelies.1.2 hrelies.2
    · rw [rotate,if_pos hrotates]
      exact hfree
    · rw [rotate_expiresAt]
      exact h.rotated hj hp hs hrotates

/-- In every steady run, where a call comes to return tokens the validator accepts them. -/
theorem issues_live (service : Service D) (identities : Identities) (clock : ℤ)
    (before after : List Action) (a : Action)
    (hc : Run.Conforms (step service) (fun w a => w.steady service a)
      (before++a::after) (initial identities clock)) :
    let w := Run.exec (step service) before (initial identities clock)
    ∀ i userId organizationId sessionId token,
      w.phase i ≠ some (.closed (.issued userId organizationId sessionId token)) →
      (w.step service a).phase i =
        some (.closed (.issued userId organizationId sessionId token)) →
      ∃ user, (w.step service a).requireValidIn organizationId userId sessionId = .ok user := by
  intro w i userId organizationId sessionId token hbefore hafter
  obtain ⟨hearly,hlate⟩ := (Run.conforms_append (step service) _ before (a::after) _).1 hc
  have hlive : w.Live service := Run.exec_conforming (step service) _ (Live service)
    (fun _ _ hok h => h.step hok) before _ hearly (live_initial identities clock)
  exact hlive.issues (hlive.step hlate.1) hbefore hafter

end World

def refreshing : List Action :=
  .login ⟨"owner","secret",none⟩::advances 0 7++.refresh (some ⟨1,0⟩)::advances 1 3

theorem refreshing_live : ∃ user,
    (Run.exec (World.step sampleService) refreshing (.initial sampleIdentities 0)
      |>.step sampleService (.advance 1)).requireValidIn 1 5 0 = .ok user :=
  World.issues_live sampleService sampleIdentities 0 refreshing [] (.advance 1) (by decide +kernel)
    1 5 1 0 ⟨1,1⟩ (by decide +kernel) (by decide +kernel)

def suspendedOrganization : Identities := { sampleIdentities with
  organizations := [⟨1,.suspended⟩] }

def suspendedUser : Identities := { sampleIdentities with
  users := [⟨5,"owner",.suspended⟩]
  users_keyed := by simp [Table.Keyed] }

/-- The Organization is suspended between a sign-in and a refresh. -/
def refreshedSuspended : World RefreshToken :=
  Run.exec (World.step sampleService) (.login ⟨"owner","secret",none⟩::advances 0 7++
    .administer suspendedOrganization::.refresh (some ⟨1,0⟩)::advances 1 4)
    (.initial sampleIdentities 0)

def signedInSuspended : World RefreshToken :=
  Run.exec (World.step sampleService) (.login ⟨"owner","secret",none⟩::advances 0 2++
    .administer suspendedUser::advances 0 5) (.initial sampleIdentities 0)

theorem suspended_issues :
    refreshedSuspended.phase 1 = some (.closed (.issued 5 1 0 ⟨1,1⟩)) ∧
    refreshedSuspended.requireValidIn 1 5 0 = .error (.organizationInactive
      "The Organization is not accepting normal operations." .suspended) ∧
    signedInSuspended.phase 0 = some (.closed (.issued 5 1 0 ⟨1,0⟩)) ∧
    signedInSuspended.requireValidIn 1 5 0 = .error (.userInactive "The user is not active.") := by
  decide +kernel

end NexusAi.Auth
