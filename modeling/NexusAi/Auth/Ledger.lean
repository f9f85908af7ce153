import NexusAi.Auth.System

/-!
# Sessions and the tokens issued for them

The tokens that calls have returned are an account of the sessions: the current
hash of a session is that of a token issued for it and not exchanged yet, and the
previous hash that of a token exchanged for it. A rotation replaces the one by
the other in a single conditional update.
-/

namespace NexusAi.Auth

variable {D : Type}

/-- What a call returned, and the token it was presented with. -/
structure Issue where
  presented : Option RefreshToken
  (organizationId sessionId : ℕ)
  token : RefreshToken
  deriving DecidableEq

structure Ledger (service : Service D) (sessions : List (RefreshSession D))
    (issues : ℕ → Option Issue) : Prop where
  keyed : Table.Keyed RefreshSession.id sessions
  opened : ∀ s ∈ sessions, (issues s.id).isSome
  drawn : ∀ j e, issues j = some e → e.token = ⟨e.organizationId,j⟩
  stored : ∀ j e, issues j = some e →
    ∃ s ∈ sessions, s.id = e.sessionId ∧ s.organizationId = e.organizationId
  current : ∀ s ∈ sessions, ∃ j e, issues j = some e ∧ e.sessionId = s.id ∧
    s.tokenHash = service.hashRefreshToken e.token
  previous : ∀ s ∈ sessions, ∀ t, s.previousTokenHash = some (service.hashRefreshToken t) →
    ∃ j e, issues j = some e ∧ e.presented = some t ∧ e.sessionId = s.id
  spent : ∀ j e t, issues j = some e → e.presented = some t →
    (∃ k d, issues k = some d ∧ d.token = t) ∧
      ∀ s ∈ sessions, s.tokenHash ≠ service.hashRefreshToken t
  once : ∀ i j d e t, issues i = some d → issues j = some e → d.presented = some t →
    e.presented = some t → i = j

section

variable [DecidableEq D] (service : Service D) (token new : RefreshToken) (sessionId : ℕ)
  (s : RefreshSession D)

theorem rotate_id : (World.rotate service token new sessionId s).id = s.id := by
  unfold World.rotate
  split_ifs <;> rfl

theorem rotate_organizationId :
    (World.rotate service token new sessionId s).organizationId = s.organizationId := by
  unfold World.rotate
  split_ifs <;> rfl

end

theorem update_some {issues : ℕ → Option Issue} {i j : ℕ} {d e : Issue} (hi : issues i = none) :
    Function.update issues i (some e) j = some d ↔ (j = i ∧ d = e) ∨ issues j = some d := by
  by_cases hji : j = i
  · simp [hji,hi,eq_comm]
  · simp [hji]

namespace Ledger

variable {service : Service D} {sessions : List (RefreshSession D)} {issues : ℕ → Option Issue}

theorem nil : Ledger service [] fun _ => none := by
  constructor <;> simp [Table.Keyed]

section

variable (h : Ledger service sessions issues)

include h

theorem token_ne {i j : ℕ} (hi : issues i = none) {e : Issue} (hj : issues j = some e)
    (organizationId : ℕ) : e.token ≠ ⟨organizationId,i⟩ := by
  intro heq
  rw [h.drawn j e hj] at heq
  obtain ⟨-,rfl⟩ := RefreshToken.mk.inj heq
  rw [hi] at hj
  cases hj

theorem current_unique {r s : RefreshSession D} (hr : r ∈ sessions) (hs : s ∈ sessions)
    (heq : r.tokenHash = s.tokenHash) : r = s := by
  obtain ⟨j,d,hj,hd,hrhash⟩ := h.current r hr
  obtain ⟨k,e,hk,he,hshash⟩ := h.current s hs
  have htoken : d.token = e.token :=
    service.hashRefreshToken.injective (hrhash.symm.trans (heq.trans hshash))
  rw [h.drawn j d hj,h.drawn k e hk] at htoken
  obtain ⟨-,rfl⟩ := RefreshToken.mk.inj htoken
  obtain rfl := Option.some.inj (hj.symm.trans hk)
  exact Table.mem_unique h.keyed hr hs (hd.symm.trans he)

theorem mapped {f : RefreshSession D → RefreshSession D}
    (hf : ∀ s, f s = { s with revokedAt := (f s).revokedAt }) :
    Ledger service (sessions.map f) issues := by
  have hid : ∀ s, (f s).id = s.id := fun s => by rw [hf s]
  have horganization : ∀ s, (f s).organizationId = s.organizationId := fun s => by rw [hf s]
  have htoken : ∀ s, (f s).tokenHash = s.tokenHash := fun s => by rw [hf s]
  have hprevious : ∀ s, (f s).previousTokenHash = s.previousTokenHash := fun s => by rw [hf s]
  constructor
  · exact Table.keyed_map h.keyed hid
  · simpa [hid] using h.opened
  · exact h.drawn
  · simpa [hid,horganization] using h.stored
  · simpa [hid,htoken] using h.current
  · simpa [hid,hprevious] using h.previous
  · simpa [htoken] using h.spent
  · exact h.once

/-- A call returns a new token: every session stays as it is in the account, or is the one
of the token, with the presented token before it. -/
theorem extend {i : ℕ} (hi : issues i = none) {e : Issue} {sessions' : List (RefreshSession D)}
    (hdrawn : e.token = ⟨e.organizationId,i⟩) (hkeyed : Table.Keyed RefreshSession.id sessions')
    (hkept : ∀ s ∈ sessions, ∃ s' ∈ sessions', s'.id = s.id ∧ s'.organizationId = s.organizationId)
    (hstored : ∃ s ∈ sessions', s.id = e.sessionId ∧ s.organizationId = e.organizationId)
    (hpresented : ∀ t, e.presented = some t →
      ∃ s ∈ sessions, s.tokenHash = service.hashRefreshToken t)
    (hrows : ∀ s' ∈ sessions', (∃ s ∈ sessions, s.id = s'.id ∧ s.tokenHash = s'.tokenHash ∧
        s.previousTokenHash = s'.previousTokenHash ∧
        ∀ t, e.presented = some t → s.tokenHash ≠ service.hashRefreshToken t) ∨
      (s'.id = e.sessionId ∧ (s'.id = i ∨ ∃ s ∈ sessions, s.id = s'.id) ∧
        s'.tokenHash = service.hashRefreshToken e.token ∧
        s'.previousTokenHash = e.presented.map service.hashRefreshToken)) :
    Ledger service sessions' (Function.update issues i (some e)) := by
  have hnew : Function.update issues i (some e) i = some e := Function.update_self ..
  have hold {j d} (hj : issues j = some d) : Function.update issues i (some e) j = some d :=
    (update_some hi).mpr (.inr hj)
  -- the presented token was issued before, and so is none that is drawn now
  have hspent : ∀ t, e.presented = some t → ∃ k d, issues k = some d ∧ d.token = t := by
    intro t ht
    obtain ⟨s,hs,hhash⟩ := hpresented t ht
    obtain ⟨k,d,hk,-,hcurrent⟩ := h.current s hs
    exact ⟨k,d,hk,service.hashRefreshToken.injective (hcurrent.symm.trans hhash)⟩
  have hfresh : ∀ t, (∃ k d, issues k = some d ∧ d.token = t) →
      service.hashRefreshToken e.token ≠ service.hashRefreshToken t := by
    rintro t ⟨k,d,hk,rfl⟩ heq
    refine h.token_ne hi hk e.organizationId ?_
    rw [← hdrawn]
    exact (service.hashRefreshToken.injective heq).symm
  constructor
  · exact hkeyed
  · intro s' hs'
    have hopened : ∀ s ∈ sessions, (Function.update issues i (some e) s.id).isSome := by
      intro s hs
      obtain ⟨d,hd⟩ := Option.isSome_iff_exists.mp (h.opened s hs)
      exact Option.isSome_of_eq_some (hold hd)
    rcases hrows s' hs' with ⟨s,hs,hid,-⟩ | ⟨-,hid | ⟨s,hs,hid⟩,-⟩
    · exact hid ▸ hopened s hs
    · rw [hid,hnew]
      rfl
    · exact hid ▸ hopened s hs
  · intro j d hj
    rcases (update_some hi).mp hj with ⟨rfl,rfl⟩ | hj
    · exact hdrawn
    · exact h.drawn j d hj
  · intro j d hj
    rcases (update_some hi).mp hj with ⟨rfl,rfl⟩ | hj
    · exact hstored
    · obtain ⟨s,hs,hid,horganization⟩ := h.stored j d hj
      obtain ⟨s',hs',hid',horganization'⟩ := hkept s hs
      exact ⟨s',hs',hid'.trans hid,horganization'.trans horganization⟩
  · intro s' hs'
    rcases hrows s' hs' with ⟨s,hs,hid,htoken,-⟩ | ⟨hid,-,htoken,-⟩
    · obtain ⟨j,d,hj,hd,hhash⟩ := h.current s hs
      exact ⟨j,d,hold hj,hd.trans hid,htoken ▸ hhash⟩
    · exact ⟨i,e,hnew,hid.symm,htoken⟩
  · intro s' hs' t ht
    rcases hrows s' hs' with ⟨s,hs,hid,-,hprevious,-⟩ | ⟨hid,-,-,hprevious⟩
    · obtain ⟨j,d,hj,hd,hsession⟩ := h.previous s hs t (hprevious.trans ht)
      exact ⟨j,d,hold hj,hd,hsession.trans hid⟩
    · obtain ⟨_,ht',heq⟩ := Option.map_eq_some_iff.mp (hprevious.symm.trans ht)
      obtain rfl := service.hashRefreshToken.injective heq
      exact ⟨i,e,hnew,ht',hid.symm⟩
  · intro j d t hj ht
    have hissued : ∃ k d, issues k = some d ∧ d.token = t := by
      rcases (update_some hi).mp hj with ⟨rfl,rfl⟩ | hj
      · exact hspent t ht
      · exact (h.spent j d t hj ht).1
    constructor
    · obtain ⟨k,d',hk,hd'⟩ := hissued
      exact ⟨k,d',hold hk,hd'⟩
    · intro s' hs'
      rcases hrows s' hs' with ⟨s,hs,-,htoken,-,hne⟩ | ⟨-,-,htoken,-⟩
      · rw [← htoken]
        rcases (update_some hi).mp hj with ⟨rfl,rfl⟩ | hj
        · exact hne t ht
        · exact (h.spent j d t hj ht).2 s hs
      · rw [htoken]
        exact hfresh t hissued
  · intro j k d d' t hj hk ht ht'
    -- an exchanged token is current for no session any more
    have hclash : ∀ {j d}, issues j = some d → d.presented = some t → e.presented ≠ some t := by
      intro j d hj hd he
      obtain ⟨s,hs,hhash⟩ := hpresented t he
      exact (h.spent j d t hj hd).2 s hs hhash
    rcases (update_some hi).mp hj with ⟨rfl,rfl⟩ | hj₀ <;> rcases (update_some hi).mp hk with ⟨rfl,rfl⟩ | hk₀
    · rfl
    · exact absurd ht (hclash hk₀ ht')
    · exact absurd ht' (hclash hj₀ ht)
    · exact h.once j k d d' t hj₀ hk₀ ht ht'

theorem insert {i : ℕ} (hi : issues i = none) (userId organizationId : ℕ) (now : ℤ) :
    Ledger service (sessions++[World.opened service i userId organizationId now])
      (Function.update issues i (some ⟨none,organizationId,i,⟨organizationId,i⟩⟩)) := by
  refine h.extend hi rfl ?_ ?_ ?_ (by simp) ?_
  · refine Table.keyed_append h.keyed ?_
    intro s hs heq
    have hopened := h.opened s hs
    rw [show s.id = i from heq,hi] at hopened
    cases hopened
  · exact fun s hs => ⟨s,List.mem_append_left _ hs,rfl,rfl⟩
  · exact ⟨_,List.mem_append_right _ (List.mem_singleton_self _),rfl,rfl⟩
  · intro s' hs'
    rcases List.mem_append.mp hs' with hs' | hs'
    · exact .inl ⟨s',hs',rfl,rfl,rfl,by simp⟩
    · obtain rfl := List.mem_singleton.mp hs'
      exact .inr ⟨rfl,.inl rfl,rfl,rfl⟩

theorem rotate [DecidableEq D] {i : ℕ} (hi : issues i = none) {token : RefreshToken}
    {sessionId : ℕ} (hany : ∃ s ∈ sessions, World.rotates service token sessionId s) :
    Ledger service (sessions.map (World.rotate service token ⟨token.organizationId,i⟩ sessionId))
      (Function.update issues i
        (some ⟨some token,token.organizationId,sessionId,⟨token.organizationId,i⟩⟩)) := by
  obtain ⟨r,hr,hrotates⟩ := hany
  have hmatch := hrotates
  simp only [World.rotates,decide_eq_true_eq] at hmatch
  obtain ⟨hid,horganization,hhash,-⟩ := hmatch
  refine h.extend hi rfl (Table.keyed_map h.keyed (rotate_id _ _ _ _)) ?_ ?_ ?_ ?_
  · intro s hs
    exact ⟨_,List.mem_map_of_mem hs,rotate_id _ _ _ _ s,rotate_organizationId _ _ _ _ s⟩
  · exact ⟨_,List.mem_map_of_mem hr,(rotate_id _ _ _ _ r).trans hid,
      (rotate_organizationId _ _ _ _ r).trans horganization⟩
  · rintro t ⟨⟩
    exact ⟨r,hr,hhash⟩
  · intro s' hs'
    obtain ⟨s,hs,rfl⟩ := List.mem_map.mp hs'
    by_cases hthis : World.rotates service token sessionId s
    · have hsession : s.id = sessionId := (of_decide_eq_true hthis).1
      have hid' := rotate_id service token ⟨token.organizationId,i⟩ sessionId s
      refine .inr ⟨hid'.trans hsession,.inr ⟨s,hs,hid'.symm⟩,?_,?_⟩
      · rw [World.rotate,if_pos hthis]
      · rw [World.rotate,if_pos hthis]
        rfl
    · refine .inl ⟨s,hs,(rotate_id _ _ _ _ s).symm,?_,?_,?_⟩
      · rw [World.rotate,if_neg hthis]
      · rw [World.rotate,if_neg hthis]
      · rintro t ⟨⟩ heq
        obtain rfl := h.current_unique hr hs (hhash.trans heq.symm)
        exact hthis hrotates

end

end Ledger

def Revoked (sessions : List (RefreshSession D)) (sessionId : ℕ) : Prop :=
  ∃ s ∈ sessions, s.id = sessionId ∧ s.revokedAt.isSome

section

variable (sessionId : ℕ) (now : ℤ) (s : RefreshSession D)

theorem revoke_eq : World.revoke sessionId now s =
    { s with revokedAt := (World.revoke sessionId now s).revokedAt } := by
  unfold World.revoke
  split_ifs <;> rfl

theorem revoke_id : (World.revoke sessionId now s).id = s.id := by
  rw [revoke_eq]

theorem revoke_keeps (h : s.revokedAt.isSome) :
    (World.revoke sessionId now s).revokedAt.isSome := by
  unfold World.revoke
  split_ifs
  · rfl
  · exact h

end

theorem Revoked.of_revoke {sessions : List (RefreshSession D)} {s : RefreshSession D}
    (hs : s ∈ sessions) (now : ℤ) : Revoked (sessions.map (World.revoke s.id now)) s.id := by
  refine ⟨_,List.mem_map_of_mem hs,revoke_id _ _ s,?_⟩
  unfold World.revoke
  split_ifs with hfree
  · rfl
  · exact Option.isSome_iff_ne_none.mpr fun hnone => hfree ⟨rfl,hnone⟩

/-- What can be done to the sessions and the issued tokens in one step. -/
inductive Posts [DecidableEq D] (service : Service D) (sessions : List (RefreshSession D))
    (issues : ℕ → Option Issue) : List (RefreshSession D) → (ℕ → Option Issue) → Prop
  | same : Posts service sessions issues sessions issues
  | revokes (sessionId : ℕ) (now : ℤ) :
      Posts service sessions issues (sessions.map (World.revoke sessionId now)) issues
  | inserts (i userId organizationId : ℕ) (now : ℤ) (hi : issues i = none) :
      Posts service sessions issues
        (sessions++[World.opened service i userId organizationId now])
        (Function.update issues i (some ⟨none,organizationId,i,⟨organizationId,i⟩⟩))
  | rotates (i : ℕ) (token : RefreshToken) (sessionId : ℕ) (hi : issues i = none)
      (hany : ∃ s ∈ sessions, World.rotates service token sessionId s) :
      Posts service sessions issues
        (sessions.map (World.rotate service token ⟨token.organizationId,i⟩ sessionId))
        (Function.update issues i
          (some ⟨some token,token.organizationId,sessionId,⟨token.organizationId,i⟩⟩))

namespace Posts

variable [DecidableEq D] {service : Service D} {sessions sessions' : List (RefreshSession D)}
  {issues issues' : ℕ → Option Issue}

section

variable (hp : Posts service sessions issues sessions' issues')

include hp

theorem ledger (h : Ledger service sessions issues) : Ledger service sessions' issues' := by
  cases hp with
  | same => exact h
  | revokes sessionId now =>
    exact h.mapped (revoke_eq sessionId now)
  | inserts _ userId organizationId now hi => exact h.insert hi userId organizationId now
  | rotates _ _ _ hi hany => exact h.rotate hi hany

theorem grows {j : ℕ} {e : Issue} (hj : issues j = some e) : issues' j = some e := by
  cases hp with
  | same | revokes => exact hj
  | inserts _ _ _ _ hi | rotates _ _ _ hi => exact (update_some hi).mpr (.inr hj)

theorem revoked {sessionId : ℕ} (h : Revoked sessions sessionId) : Revoked sessions' sessionId := by
  obtain ⟨s,hs,hid,hrevoked⟩ := h
  cases hp with
  | same => exact ⟨s,hs,hid,hrevoked⟩
  | revokes =>
    exact ⟨_,List.mem_map_of_mem hs,(revoke_id _ _ s).trans hid,revoke_keeps _ _ s hrevoked⟩
  | inserts => exact ⟨s,List.mem_append_left _ hs,hid,hrevoked⟩
  | rotates =>
    refine ⟨_,List.mem_map_of_mem hs,(rotate_id _ _ _ _ s).trans hid,?_⟩
    unfold World.rotate
    split_ifs <;> exact hrevoked

theorem stays (h : Ledger service sessions issues) {j : ℕ} {e : Issue}
    (hrevoked : Revoked sessions e.sessionId) (hj : issues' j = some e) : issues j = some e := by
  obtain ⟨s,hs,hid,hsome⟩ := hrevoked
  cases hp with
  | same | revokes => exact hj
  | inserts i _ _ _ hi =>
    rcases (update_some hi).mp hj with ⟨-,rfl⟩ | hj
    · have hopened := h.opened s hs
      rw [show s.id = i from hid,hi] at hopened
      cases hopened
    · exact hj
  | rotates _ _ _ hi hany =>
    rcases (update_some hi).mp hj with ⟨-,rfl⟩ | hj
    · obtain ⟨r,hr,hrotates⟩ := hany
      obtain ⟨hrid,-,-,hnone⟩ := of_decide_eq_true hrotates
      obtain rfl := Table.mem_unique h.keyed hr hs (hrid.trans hid.symm)
      rw [hnone] at hsome
      cases hsome
    · exact hj

end

end Posts

end NexusAi.Auth
