import NexusAi.Auth.Posting

/-!
# The family of a refresh token

A token is exchanged once, and a revoked session issues nothing. A call that
comes with an exchanged token finds no session by its current hash; whether it
finds the session by its previous hash depends on how long ago the exchange was.
-/

namespace NexusAi.Auth.World

variable {D : Type} [DecidableEq D] {service : Service D} {w w' : World D} {a : Action}

def Exchanged (w : World D) (token : RefreshToken) (sessionId : ℕ) : Prop :=
  ∃ i e, w.issueAt i = some e ∧ e.presented = some token ∧ e.sessionId = sessionId

/-- The session for which the token was exchanged, if any, is revoked. -/
def condemned (w : World D) (token : RefreshToken) : Bool :=
  w.calls.all fun c => c.issue.all fun e => e.presented = some token →
    w.sessions.any fun s => s.id = e.sessionId ∧ s.revokedAt.isSome

/-- Where a call looks for an exchanged token among the previous hashes, it is one, or the
session is revoked already. -/
def recent (service : Service D) (w : World D) : Action → Bool
  | .advance i =>
    match w.phase i with
    | some (.tracing token) | some (.leavingOld token) =>
      w.condemned token || (w.byPreviousTokenHash service token).isSome
    | _ => true
  | _ => true

variable {token : RefreshToken} {sessionId i : ℕ} {p : Phase D}

omit [DecidableEq D] in
theorem Exchanged.revoked (h : w.Exchanged token sessionId) (hcondemned : w.condemned token) :
    Revoked w.sessions sessionId := by
  obtain ⟨i,e,hi,he,rfl⟩ := h
  obtain ⟨c,hc,hissue⟩ := Option.bind_eq_some_iff.mp hi
  have hall := List.all_eq_true.mp hcondemned c (List.mem_of_getElem? hc)
  simpa [hissue,he,Revoked] using hall

theorem byPreviousTokenHash_some {row : RefreshSession D}
    (h : w.byPreviousTokenHash service token = some row) :
    row ∈ w.sessions ∧ row.organizationId = token.organizationId ∧
      row.previousTokenHash = some (service.hashRefreshToken token) := by
  have htest := List.find?_some h
  exact ⟨List.mem_of_find?_eq_some h,of_decide_eq_true htest⟩

theorem Sound.unheld (h : w.Sound service) (hx : w.Exchanged token sessionId)
    (row : RefreshSession D) : w.byTokenHash service token ≠ some row := by
  intro hrow
  obtain ⟨hmem,-,hhash⟩ := byTokenHash_some hrow
  obtain ⟨i,e,hi,he,-⟩ := hx
  exact (h.ledger.spent i e token hi he).2 row hmem hhash

theorem Sound.traces (h : w.Sound service) (hx : w.Exchanged token sessionId)
    {row : RefreshSession D} (hrow : w.byPreviousTokenHash service token = some row) :
    row.id = sessionId := by
  obtain ⟨hmem,-,hhash⟩ := byPreviousTokenHash_some hrow
  obtain ⟨i,d,hi,hd,hdsession⟩ := h.ledger.previous row hmem token hhash
  obtain ⟨j,e,hj,he,hesession⟩ := hx
  obtain rfl := h.ledger.once i j d e token hi hj hd he
  obtain rfl := Option.some.inj (hi.symm.trans hj)
  exact hdsession.symm.trans hesession

theorem Exchanged.step (hx : w.Exchanged token sessionId) (h : w.Sound service) (a : Action) :
    (w.step service a).Exchanged token sessionId := by
  obtain ⟨i,e,hi,he⟩ := hx
  exact ⟨i,e,((step_turn w a).posts h).grows hi,he⟩

/-- How far a call can be that came with an exchanged token. -/
inductive Replay (w : World D) (token : RefreshToken) (sessionId : ℕ) : Phase D → Prop
  | looking (now : ℤ) : Replay w token sessionId (.looking token now)
  | tracing : Replay w token sessionId (.tracing token)
  | leaving : Replay w token sessionId (.leaving token)
  | leavingOld : Replay w token sessionId (.leavingOld token)
  | condemning : Replay w token sessionId (.condemning sessionId)
  | quitting : Replay w token sessionId (.quitting sessionId)
  | aborted : Replay w token sessionId (.closed .aborted)
  | closed (outcome : Outcome) (h : Revoked w.sessions sessionId) :
      Replay w token sessionId (.closed outcome)

omit [DecidableEq D] in
theorem Replay.mono (h : Replay w token sessionId p)
    (hrevoked : Revoked w.sessions sessionId → Revoked w'.sessions sessionId) :
    Replay w' token sessionId p := by
  cases h with
  | closed outcome h => exact .closed outcome (hrevoked h)
  | looking now => exact .looking now
  | tracing => exact .tracing
  | leaving => exact .leaving
  | leavingOld => exact .leavingOld
  | condemning => exact .condemning
  | quitting => exact .quitting
  | aborted => exact .aborted

theorem Replay.goes {q : Phase D} (h : Replay w token sessionId p) (hsound : w.Sound service)
    (hx : w.Exchanged token sessionId) (hfound : p = .tracing token ∨ p = .leavingOld token →
      Revoked w.sessions sessionId ∨ w.byPreviousTokenHash service token ≠ none) (hgoes : Goes service w p q) :
    Replay w token sessionId q := by
  cases hgoes with
  | missed => cases h; exact .tracing
  | dead _ _ row hrow | found _ _ row hrow | quits _ row hrow =>
    cases h; exact absurd hrow (hsound.unheld hx row)
  | untraced _ hnone =>
    cases h
    exact .closed _ ((hfound (.inl rfl)).resolve_right (not_not.mpr hnone))
  | traced _ _ hrow =>
    cases h
    rw [hsound.traces hx hrow]
    exact .condemning
  | unheld => cases h; exact .leavingOld
  | strays _ hnone =>
    cases h
    exact .closed _ ((hfound (.inr rfl)).resolve_right (not_not.mpr hnone))
  | quitsOld _ row hrow =>
    cases h
    have hid := hsound.traces hx hrow
    unfold quitPhase
    split_ifs with hfree
    · rw [hid]
      exact .quitting
    · refine .closed _ ⟨row,(byPreviousTokenHash_some hrow).1,hid,?_⟩
      exact Option.isSome_iff_ne_none.mpr fun hnone => hfree (by rw [hnone]; rfl)
  | refused _ _ hp => cases h <;> cases hp
  | _ => cases h

def Replays (w : World D) (i : ℕ) (token : RefreshToken) (sessionId : ℕ) : Prop :=
  ∃ p, w.phase i = some p ∧ Replay w token sessionId p

theorem recent_found (hok : w.recent service (.advance i))
    (hx : w.Exchanged token sessionId)
    (hp : w.phase i = some (.tracing token) ∨ w.phase i = some (.leavingOld token)) :
    Revoked w.sessions sessionId ∨ w.byPreviousTokenHash service token ≠ none := by
  have hor : w.condemned token ∨ w.byPreviousTokenHash service token ≠ none := by
    rcases hp with hp | hp <;> simpa [recent,hp,Option.isSome_iff_ne_none] using hok
  exact hor.imp_left hx.revoked

theorem Replays.step (h : w.Replays i token sessionId) (hsound : w.Sound service)
    (hx : w.Exchanged token sessionId) (hok : w.recent service a) :
    (w.step service a).Replays i token sessionId := by
  have hturn : Turn service w a (w.step service a) := step_turn w a
  have hrevoked : Revoked w.sessions sessionId → Revoked (w.step service a).sessions sessionId :=
    fun h => (hturn.posts hsound).revoked h
  obtain ⟨p,hp,hreplay⟩ := h
  generalize w.step service a = w' at hturn hrevoked ⊢
  have hentered : ∀ {l : List (RefreshSession D)} {j : ℕ} {c : Call D} {q : Phase D},
      w.calls[j]? = some c → (Revoked w.sessions sessionId → Revoked l sessionId) →
      (Replay w token sessionId c.phase → i = j → Replay (w.store l) token sessionId q) →
      ((w.store l).enter j q).Replays i token sessionId := by
    intro l j c q hj hl hq
    have hphase := phase_enter (w := w.store l) hj q i
    by_cases hij : i = j
    · obtain rfl : p = c.phase := Option.some.inj (hp.symm.trans (hij ▸ phase_of_call hj))
      exact ⟨q,by rw [hphase,if_pos hij],(hq hreplay hij).mono id⟩
    · exact ⟨p,by rw [hphase,if_neg hij]; exact hp,hreplay.mono hl⟩
  cases hturn with
  | idle => exact ⟨p,hp,hreplay⟩
  | ticks | administers => exact ⟨p,hp,hreplay.mono id⟩
  | admits =>
    obtain ⟨c,hc,rfl⟩ := call_of_phase hp
    refine ⟨c.phase,phase_of_call ?_,hreplay.mono id⟩
    exact List.getElem?_append_left (List.getElem?_eq_some_iff.mp hc).1 ▸ hc
  | aborts _ _ hj => exact hentered (l := w.sessions) hj id fun _ _ => .aborted
  | enters _ _ _ hj hgoes =>
    refine hentered (l := w.sessions) hj id ?_
    rintro hreplay rfl
    have hphase := phase_of_call hj
    refine hreplay.goes hsound hx ?_ hgoes
    rintro (heq | heq)
    · exact recent_found hok hx (.inl (heq ▸ hphase))
    · exact recent_found hok hx (.inr (heq ▸ hphase))
  | revokes _ _ other outcome hj hphase =>
    refine hentered hj hrevoked ?_
    rintro hreplay rfl
    have hother : other = sessionId := by
      rcases hphase with ⟨hphase,-⟩ | ⟨hphase,-⟩ <;> rw [hphase] at hreplay <;>
        cases hreplay <;> rfl
    obtain ⟨k,e,hk,-,rfl⟩ := hx
    obtain ⟨s,hs,hid,-⟩ := hsound.ledger.stored k e hk
    subst hother
    rw [← hid]
    exact .closed outcome (Revoked.of_revoke hs w.clock)
  | inserts _ _ _ _ _ hj hphase | rotates _ _ _ _ _ hj hphase =>
    refine hentered hj hrevoked ?_
    intro hreplay
    rw [hphase] at hreplay
    cases hreplay

theorem exec_replayed (as : List Action)
    (hc : Run.Conforms (step service) (fun w a => w.recent service a) as w)
    (hsound : w.Sound service) (hx : w.Exchanged token sessionId)
    (h : w.Replays i token sessionId) :
    (Run.exec (step service) as w).Replays i token sessionId := by
  refine (Run.exec_conforming (step service) _ (fun w => w.Sound service ∧
    w.Exchanged token sessionId ∧ w.Replays i token sessionId) ?_ as w hc ⟨hsound,hx,h⟩).2.2
  rintro w a hok ⟨hsound,hx,h⟩
  exact ⟨hsound.step a,hx.step hsound a,h.step hsound hx hok⟩

theorem exec_stays (as : List Action) (hsound : w.Sound service)
    (h : Revoked w.sessions sessionId) {e : Issue}
    (hi : (Run.exec (step service) as w).issueAt i = some e) (he : e.sessionId = sessionId) :
    w.issueAt i = some e := by
  induction as generalizing w with
  | nil => exact hi
  | cons a _ ih =>
    have hposts := (step_turn w a).posts hsound
    exact hposts.stays hsound.ledger (he ▸ h) (ih (hsound.step a) (hposts.revoked h) hi)

omit [DecidableEq D] in
theorem replays_admitCall {request : Request} (hp : Replay w token sessionId p) :
    (w.admitCall request p).Replays w.calls.length token sessionId := by
  refine ⟨p,?_,hp.mono id⟩
  simp [phase,admitCall]

/-- In every run in which exchanged tokens are looked up while they are the previous ones of
their sessions or these are revoked, a token is exchanged once, presenting an exchanged token
revokes the session, and a revoked session issues nothing. -/
theorem families_safe (service : Service D) (identities : Identities) (clock : ℤ)
    (as : List Action) (hc : Run.Conforms (step service) (fun w a => w.recent service a) as
      (initial identities clock)) :
    let run := fun as => Run.exec (step service) as (initial identities clock)
    (∀ i j d e token, (run as).issueAt i = some d → (run as).issueAt j = some e →
      d.presented = some token → e.presented = some token → i = j) ∧
    (∀ before a after token sessionId outcome, as = before++a::after →
      a = .refresh (some token) ∨ a = .logout (some token) →
      (run before).Exchanged token sessionId →
      (run as).phase (run before).calls.length = some (.closed outcome) → outcome ≠ .aborted →
      Revoked (run as).sessions sessionId) ∧
    (∀ before after sessionId i e, as = before++after → Revoked (run before).sessions sessionId →
      (run as).issueAt i = some e → e.sessionId = sessionId →
      (run before).issueAt i = some e) := by
  intro run
  have hsound : ∀ as, (run as).Sound service :=
    fun as => exec_sound as (sound_initial identities clock)
  refine ⟨(hsound as).ledger.once,?_,?_⟩
  · intro before a after token sessionId outcome heq ha hx hclosed hended
    have hrun : run as = Run.exec (step service) after ((run before).step service a) := by
      rw [heq]
      exact Run.exec_append (step service) before (a::after) _
    have hlate := ((Run.conforms_append (step service) _ before (a::after) _).1 (heq ▸ hc)).2.2
    have hbegins : ((run before).step service a).Replays (run before).calls.length token
        sessionId := by
      rcases ha with rfl | rfl
      · exact replays_admitCall (.looking _)
      · exact replays_admitCall .leaving
    obtain ⟨p,hp,hreplay⟩ := exec_replayed after hlate ((hsound before).step a)
      (hx.step (hsound before) a) hbegins
    rw [← hrun,hclosed] at hp
    obtain rfl := Option.some.inj hp
    rw [hrun]
    cases hreplay with
    | closed _ hrevoked => exact hrevoked
    | aborted => exact absurd rfl hended
  · intro before after sessionId i e heq hrevoked hi he
    have hrun : run as = Run.exec (step service) after (run before) := by
      rw [heq]
      exact Run.exec_append (step service) before after _
    exact exec_stays after (hsound before) hrevoked (hrun ▸ hi) he

end NexusAi.Auth.World

namespace NexusAi.Auth

def sampleService : Service RefreshToken where
  hashRefreshToken := Function.Embedding.refl RefreshToken
  verify := fun hash password => hash = password
  refreshTokenTtlSeconds := 3600
  ttl_bounds := by decide

def sampleIdentities : Identities where
  users := [⟨5,"owner",.active⟩]
  credentials := [⟨5,1,"secret"⟩]
  memberships := [⟨1,1,5,.active⟩]
  organizations := [⟨1,.active⟩]
  users_keyed := by simp [Table.Keyed]

def advances (i n : ℕ) : List Action := List.replicate n (.advance i)

/-- The first call signs in, with token 0 of Organization 1, and the second refreshes it. -/
def refreshedOnce : List Action :=
  .login ⟨"owner","secret",none⟩::advances 0 7++.refresh (some ⟨1,0⟩)::advances 1 4

def replayed : List Action := refreshedOnce++.refresh (some ⟨1,0⟩)::advances 2 3

theorem replayed_revokes :
    Revoked (Run.exec (World.step sampleService) replayed (.initial sampleIdentities 0)).sessions
      0 :=
  (World.families_safe sampleService sampleIdentities 0 replayed (by decide +kernel)).2.1
    refreshedOnce (.refresh (some ⟨1,0⟩)) (advances 2 3) ⟨1,0⟩ 0 refreshFailed rfl (.inl rfl)
    ⟨1,⟨some ⟨1,0⟩,1,0,⟨1,1⟩⟩,by decide +kernel⟩ (by decide +kernel) (by decide)

/-- The token is refreshed twice, and then the first one is presented again. -/
def refreshedTwice : List Action := refreshedOnce++.refresh (some ⟨1,1⟩)::advances 2 4

theorem outdated_unrevoked :
    let w := Run.exec (World.step sampleService) refreshedTwice (.initial sampleIdentities 0)
    let w' := Run.exec (World.step sampleService)
      (refreshedTwice++.refresh (some ⟨1,0⟩)::advances 3 2) (.initial sampleIdentities 0)
    w.Exchanged ⟨1,0⟩ 0 ∧ w'.phase 3 = some (.closed refreshFailed) ∧
      ∃ s ∈ w'.sessions, s.id = 0 ∧ s.revokedAt = none := by
  refine ⟨⟨1,⟨some ⟨1,0⟩,1,0,⟨1,1⟩⟩,by decide +kernel⟩,by decide +kernel,?_⟩
  exact ⟨⟨0,1,5,⟨1,2⟩,some ⟨1,1⟩,3,3600,none⟩,by decide +kernel⟩

/-- Every session accepts a token that was issued for it. A token that was exchanged was
issued, was exchanged by one call and is accepted by no session any more. -/
theorem World.tokens_traced {D : Type} [DecidableEq D] (service : Service D)
    (identities : Identities) (clock : ℤ) (as : List Action) :
    let w := Run.exec (step service) as (initial identities clock)
    (∀ s ∈ w.sessions, ∃ j e, w.issueAt j = some e ∧ e.sessionId = s.id ∧
      s.tokenHash = service.hashRefreshToken e.token) ∧
    ∀ j e t, w.issueAt j = some e → e.presented = some t →
      (∃ k d, w.issueAt k = some d ∧ d.token = t) ∧
      (∀ i d, w.issueAt i = some d → d.presented = some t → i = j) ∧
      ∀ s ∈ w.sessions, s.tokenHash ≠ service.hashRefreshToken t := by
  have h : Ledger service _ _ := (exec_sound as (sound_initial identities clock)).ledger
  refine ⟨h.current,fun j e t hj ht => ?_⟩
  obtain ⟨hissued,hspent⟩ := h.spent j e t hj ht
  exact ⟨hissued,fun i d hi hd => h.once i j d e t hi hj hd ht,hspent⟩

end NexusAi.Auth
