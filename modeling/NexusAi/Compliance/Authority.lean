import NexusAi.Compliance.Writes

/-!
# Actions respect holds, policy and approval, once

The effects of all runs, with the rows that stand at the commit of each one. A plan has
one execution. It is claimed until the effect and completed with it.
-/

namespace NexusAi.Compliance

section Effects

variable {t : Tables} {profiles : List Profile} {clock : ℕ → ℕ} {o : Outcome}

structure Authorized (t : Tables) (profiles : List Profile) (plan : Plan) (e : Effect) : Prop where
  row : t.plans[e.planId]? = some plan
  subject : e.subjectId = plan.subjectId
  profile : profiles[plan.subjectId]? = some e.before
  version : e.before.version = plan.targetVersion
  applied : ∃ result,
    Compliance.applied plan.action plan.subjectId e.before plan.targetVersion = .ok (e.after,result)
  unheld : plan.action.destructive → ∀ h ∈ t.holds, h.covers plan.subjectId = false
  policy : ∃ policy, t.policies[plan.policyId]? = some policy ∧ policy.state = .active ∧
    policy.revision = plan.policyRevision
  policyEpoch : plan.policyEpoch = t.policyEpoch
  holdEpoch : plan.holdEpoch = t.holdEpoch
  approval : ∃ a, t.approvals e.planId = some a ∧ a.fingerprint = planSemantics plan ∧
    e.approvedAt < a.expiresAt
  execution : ∃ x, t.executions e.planId = some x ∧ x.state = .claimed ∧
    x.ownerId = e.fence.ownerId ∧ x.generation = e.fence.generation ∧ e.leasedAt < x.leaseExpiresAt
  request : ∀ id, plan.requestId = some id → ∃ row, t.requests[id]? = some row ∧
    row.verifiedBy.isSome ∧ row.state ≠ .denied ∧ row.state ≠ .cancelled ∧
    row.state ≠ .expired

theorem Writes.authorized (h : Writes t profiles clock o) {e : Effect} (he : o.effect = some e) :
    (∃ plan, Authorized t profiles plan e) ∧ e.approvedAt = clock 2 ∧ e.leasedAt = clock 3 := by
  cases h with
  | applies _ plan old _ _ target _ result _ _ hplan hvalid happroved hold hclaimed hfence hlease
      htarget happlied =>
    cases he
    refine ⟨⟨plan,?_⟩,rfl,rfl⟩
    constructor
    case row => exact hplan
    case subject => rfl
    case profile => exact htarget
    case version =>
      obtain ⟨p,hp,hversion⟩ := hvalid.target
      rw [htarget] at hp
      rw [← Option.some.inj hp] at hversion
      exact hversion
    case applied => exact ⟨result,happlied⟩
    case unheld => exact hvalid.unheld
    case policy =>
      obtain ⟨policy,hactive,hrevision⟩ := hvalid.policy
      exact ⟨policy,hactive.row,hactive.state,hrevision.symm⟩
    case policyEpoch => exact hvalid.policyEpoch
    case holdEpoch => exact hvalid.holdEpoch
    case approval =>
      obtain ⟨a,ha,hprint,hexpires⟩ := happroved
      exact ⟨a,ha,hprint.trans hvalid.fingerprint,hexpires⟩
    case execution => exact ⟨old,hold,hclaimed,hfence.1,hfence.2,hlease⟩
    case request =>
      intro r hr
      obtain ⟨row,hrow,hstate,hverified⟩ := hvalid.request r hr
      refine ⟨row,hrow,hverified,?_,?_,?_⟩ <;> rcases hstate with hs | hs | hs <;> simp [hs]
  | _ => cases he

theorem Carried.plans {plan : Plan} {ok : RequestState → Prop} {f : Request → Request} {t' : Tables}
    (h : Carried t plan ok f t') : t'.plans = t.plans := by
  cases h <;> rfl

theorem Writes.planned (h : Writes t profiles clock o) :
    o.tables.plans = t.plans ∨ ∃ plan, Planned t profiles plan ∧ o.tables.plans = t.plans++[plan] := by
  cases h with
  | plans _ _ plan _ _ _ hplan | retains plan _ hplan => exact .inr ⟨plan,hplan,rfl⟩
  | approves | claims | applies =>
    rename_i hcarried
    exact .inl hcarried.plans
  | _ => exact .inl rfl

end Effects

namespace Ledger

variable {l : Ledger}

/-- Every effect has its own plan, and the plan's execution is over. -/
structure Counted (l : Ledger) : Prop where
  nodup : (l.effects.map Effect.planId).Nodup
  completed : ∀ e ∈ l.effects, ∃ x, l.tables.executions e.planId = some x ∧ x.state = .completed

theorem initial_counted : Counted initial := ⟨List.nodup_nil,fun _ h => by cases h⟩

theorem Carried.executions {t t' : Tables} {plan : Plan} {ok : RequestState → Prop}
    {f : Request → Request} (h : Carried t plan ok f t') : t'.executions = t.executions := by
  cases h <;> rfl

theorem Counted.fresh (h : Counted l) {id : ℕ}
    (hopen : ∀ x, l.tables.executions id = some x → x.state = .claimed) :
    ∀ e ∈ l.effects, e.planId ≠ id := by
  rintro e he rfl
  obtain ⟨x,hx,hdone⟩ := h.completed e he
  rw [hopen x hx] at hdone
  cases hdone

theorem Counted.update (h : Counted l) {id : ℕ} {x : Execution} {t' : Tables}
    (hopen : ∀ x, l.tables.executions id = some x → x.state = .claimed)
    (hexecutions : t'.executions = Function.update l.tables.executions id (some x)) :
    ∀ e ∈ l.effects, ∃ y, t'.executions e.planId = some y ∧ y.state = .completed := by
  intro e he
  rw [hexecutions,Function.update_of_ne (h.fresh hopen e he)]
  exact h.completed e he

theorem Counted.commits {clock : ℕ → ℕ} {o : Outcome} (h : Counted l)
    (hw : Writes l.tables l.profiles clock o) : Counted (l.apply o) := by
  have plain (heffect : o.effect = none)
      (hkeep : ∀ e ∈ l.effects, ∃ x, o.tables.executions e.planId = some x ∧ x.state = .completed) :
      Counted (l.apply o) := by
    unfold apply
    rw [heffect]
    refine ⟨?_,?_⟩
    · simpa using h.nodup
    · simpa using hkeep
  cases hw with
  | claims _ _ _ _ _ _ _ _ hnone =>
    refine plain rfl (h.update ?_ rfl)
    intro y hy
    rw [hnone] at hy
    cases hy
  | takes _ _ _ _ _ _ _ _ hold hwas =>
    refine plain rfl (h.update ?_ rfl)
    intro y hy
    rw [hold] at hy
    rw [← Option.some.inj hy]
    exact hwas
  | applies id _ _ x _ _ _ _ _ _ _ _ _ hold hclaimed _ _ _ _ hdone =>
    have hopen : ∀ y, l.tables.executions id = some y → y.state = .claimed := by
      intro y hy
      rw [hold] at hy
      rw [← Option.some.inj hy]
      exact hclaimed
    refine ⟨?_,?_⟩
    · have hnew : id ∉ l.effects.map Effect.planId := by
        intro hmem
        obtain ⟨e,he,hid⟩ := List.mem_map.mp hmem
        exact h.fresh hopen e he hid
      simp only [Ledger.apply,Option.toList_some,List.map_append,List.map_cons,List.map_nil]
      rw [← List.concat_eq_append]
      exact h.nodup.concat hnew
    · intro e he
      rcases List.mem_append.mp he with he | he
      · exact h.update hopen rfl e he
      · rw [List.mem_singleton.mp he]
        exact ⟨x,Function.update_self _ _ _,hdone⟩
  | approves _ _ _ _ _ _ _ _ _ hcarried =>
    refine plain rfl ?_
    dsimp only
    rw [Carried.executions hcarried]
    exact h.completed
  | _ => exact plain rfl h.completed

theorem step_counted (l : Ledger) (b : Change) (h : Counted l) : Counted (l.step b) := by
  cases b with
  | enroll => exact ⟨h.nodup,h.completed⟩
  | serve s =>
    simp only [step,serve]
    split_ifs
    · exact h
    · split
      · exact ⟨h.nodup,h.completed⟩
      · rename_i hran
        have hlater : Counted { l with now := s.start+s.delays.sum } := ⟨h.nodup,h.completed⟩
        exact hlater.commits (transaction_writes hran)

end Ledger

namespace World

variable {w : World} {l : Ledger}

/-- A move leaves the rows alone, enrolls a customer, or commits a transaction that ran
on the rows as they stand. -/
inductive Changed (w : World) : World → Prop
  | rests (w' : World) (htables : w'.tables = w.tables) (hprofiles : w'.profiles = w.profiles)
      (heffects : w'.effects = w.effects) : Changed w w'
  | enrolls (profile : Profile) : Changed w { w with profiles := w.profiles++[profile] }
  | commits (o : Outcome) (start : ℕ) (delays : List ℕ) (w' : World)
      (hend : start+delays.sum ≤ w.now)
      (hwrites : Writes w.tables w.profiles (reading start delays) o)
      (htables : w'.tables = o.tables) (hprofiles : w'.profiles = affected o.effect w.profiles)
      (heffects : w'.effects = w.effects++o.effect.toList) : Changed w w'

theorem Follows.changed (h : Follows w l) (a : Move) : Changed w (w.step a) := by
  cases a with
  | enroll profile => exact .enrolls profile
  | pass | call => exact .rests _ rfl rfl rfl
  | refuse =>
    simp only [step]
    split <;> exact .rests _ rfl rfl rfl
  | lock =>
    simp only [step]
    split
    · split_ifs
      · exact .rests _ rfl rfl rfl
      · split <;> exact .rests _ rfl rfl rfl
    · exact .rests _ rfl rfl rfl
  | commit i =>
    simp only [step]
    split
    · rename_i start delays o hphase
      obtain ⟨c,hc,hphase⟩ := Option.map_eq_some_iff.mp hphase
      obtain ⟨-,hend,hran⟩ := h.ran i start delays o c ⟨hc,hphase⟩
      have hwrites := transaction_writes hran
      rw [← h.tables,← h.profiles] at hwrites
      split
      · exact .commits o start delays _ hend hwrites rfl rfl rfl
      · exact .commits o start delays _ hend hwrites rfl rfl rfl
      · exact .rests _ rfl rfl rfl
    · exact .rests _ rfl rfl rfl

theorem Changed.effects {w' : World} (h : Changed w w') {e : Effect} (he : e ∈ w'.effects) :
    e ∈ w.effects ∨ (∃ plan, Authorized w.tables w.profiles plan e) ∧
      e.approvedAt ≤ e.leasedAt ∧ e.leasedAt ≤ w.now := by
  cases h with
  | rests _ _ _ heffects =>
    rw [heffects] at he
    exact .inl he
  | enrolls => exact .inl he
  | commits _ start delays _ hend hwrites _ _ heffects =>
    rw [heffects] at he
    rcases List.mem_append.mp he with he | he
    · exact .inl he
    · obtain ⟨hplan,happroved,hleased⟩ := hwrites.authorized (Option.mem_toList.mp he)
      rw [happroved,hleased]
      exact .inr ⟨hplan,reading_mono start delays (by omega),(reading_le start delays 3).2.trans hend⟩

theorem Changed.plans {w' : World} (h : Changed w w') :
    w'.tables.plans = w.tables.plans ∨
      ∃ plan, Planned w.tables w.profiles plan ∧ w'.tables.plans = w.tables.plans++[plan] := by
  cases h with
  | rests _ htables =>
    rw [htables]
    exact .inl rfl
  | enrolls => exact .inl rfl
  | commits _ _ _ _ _ hwrites htables =>
    rw [htables]
    exact hwrites.planned

theorem Changed.profiles {w' : World} (h : Changed w w') {s : ℕ} {p : Profile}
    (hp : w.profiles[s]? = some p) :
    w'.profiles[s]? = some p ∨ ∃ e, w'.effects = w.effects++[e] ∧ e.subjectId = s ∧
      w'.profiles[s]? = some e.after := by
  have hlt := (List.getElem?_eq_some_iff.mp hp).1
  cases h with
  | rests _ _ hprofiles =>
    rw [hprofiles]
    exact .inl hp
  | enrolls => exact .inl ((List.getElem?_append_left hlt).trans hp)
  | commits o _ _ _ _ _ _ hprofiles heffects =>
    rw [hprofiles,heffects]
    cases heffect : o.effect with
    | none => exact .inl hp
    | some e =>
      by_cases hs : e.subjectId = s
      · refine .inr ⟨e,rfl,hs,?_⟩
        simp only [affected]
        rw [hs]
        simp [hlt]
      · exact .inl ((List.getElem?_set_ne hs).trans hp)

/-- A plan takes effect once at most, under an approval and a lease in that order, and
profiles change by effects alone. -/
theorem actions_respected (as : List Move) :
    ((Run.exec step as initial).effects.map Effect.planId).Nodup ∧
    ∀ a, let w := Run.exec step as initial
      (∀ e ∈ (w.step a).effects, e ∈ w.effects ∨
        (∃ plan, Authorized w.tables w.profiles plan e) ∧
          e.approvedAt ≤ e.leasedAt ∧ e.leasedAt ≤ w.now) ∧
      ((w.step a).tables.plans = w.tables.plans ∨ ∃ plan, Planned w.tables w.profiles plan ∧
        (w.step a).tables.plans = w.tables.plans++[plan]) ∧
      ∀ s p, w.profiles[s]? = some p → (w.step a).profiles[s]? = some p ∨
        ∃ e, (w.step a).effects = w.effects++[e] ∧ e.subjectId = s ∧
          (w.step a).profiles[s]? = some e.after := by
  obtain ⟨bs,h⟩ := run_follows as
  constructor
  · rw [h.effects]
    exact (Run.exec_invariant Ledger.step Ledger.Counted Ledger.step_counted bs .initial
      Ledger.initial_counted).nodup
  · intro a
    have hchanged := h.changed a
    exact ⟨fun e he => hchanged.effects he,hchanged.plans,fun s p hp => hchanged.profiles hp⟩

end World
section Requests

variable {t : Tables} {profiles : List Profile} {clock : ℕ → ℕ} {o : Outcome} {id : ℕ}
  {row : Request}

/-- Writing a request that is still open leaves the ended ones alone. -/
theorem setRequest_ended (hrow : t.requests[id]? = some row) (hended : row.state.terminal)
    {k : ℕ} {old new : Request} (hold : t.requests[k]? = some old)
    (hopen : old.state.terminal = false) : (t.setRequest k new).requests[id]? = some row := by
  have hk : k ≠ id := by
    rintro rfl
    rw [hrow] at hold
    cases hold
    rw [hopen] at hended
    cases hended
  exact (List.getElem?_set_ne hk).trans hrow

theorem open_of_allowed {s target : RequestState} (h : target ∈ allowed s) : s.terminal = false := by
  cases s <;> simp [allowed] at h <;> rfl

theorem Carried.ended {plan : Plan} {ok : RequestState → Prop} {f : Request → Request} {t' : Tables}
    (h : Carried t plan ok f t') (hrow : t.requests[id]? = some row)
    (hended : row.state.terminal) (hok : ∀ s, ok s → s.terminal = false) :
    t'.requests[id]? = some row := by
  cases h with
  | apart => exact hrow
  | moved _ _ _ hold hs => exact setRequest_ended hrow hended hold (hok _ hs)

theorem Writes.ended (h : Writes t profiles clock o) (hrow : t.requests[id]? = some row)
    (hended : row.state.terminal) : o.tables.requests[id]? = some row := by
  cases h with
  | receives =>
    exact (List.getElem?_append_left (List.getElem?_eq_some_iff.mp hrow).1).trans hrow
  | verifies _ _ _ _ hold hstate | plans _ _ _ _ hold hstate =>
    exact setRequest_ended hrow hended hold (by rw [hstate]; rfl)
  | ends _ _ _ _ hold hallowed =>
    exact setRequest_ended hrow hended hold (open_of_allowed hallowed)
  | approves | claims =>
    rename_i hcarried
    exact hcarried.ended hrow hended fun _ => open_of_allowed
  | applies _ plan _ _ _ _ _ _ _ _ _ hvalid _ _ _ _ _ _ _ _ _ hcarried =>
    cases hcarried with
    | apart => exact hrow
    | moved k old hid hold =>
      obtain ⟨_,hk,hstate,-⟩ := hvalid.request k hid
      rw [hold] at hk
      cases hk
      exact setRequest_ended hrow hended hold (by rcases hstate with hs | hs | hs <;> rw [hs] <;> rfl)
  | _ => exact hrow

end Requests

namespace World

/-- A request that has ended stays as it is. -/
def Final (w w' : World) : Prop := ∀ (id : ℕ) row, w.tables.requests[id]? = some row →
  row.state.terminal → w'.tables.requests[id]? = some row

/-- However a run goes on, a request that has ended stays as it is. -/
theorem decisions_final (as bs : List Move) :
    Final (Run.exec step as initial) (Run.exec step (as++bs) initial) := by
  rw [Run.exec_append]
  refine Run.exec_related step (fun w => ∃ l, Follows w l) Final ?_ (fun _ _ _ hrow _ => hrow)
    (fun _ _ _ h h' id row hrow hended => h' id row (h id row hrow hended) hended) ?_ bs _ ?_
  · rintro w a ⟨l,h⟩
    obtain ⟨l',h',-⟩ := step_follows a h
    exact ⟨l',h'⟩
  · rintro w a ⟨l,h⟩ id row hrow hended
    have hchanged := h.changed a
    generalize w.step a = w' at hchanged ⊢
    cases hchanged with
    | rests _ htables => exact htables ▸ hrow
    | enrolls => exact hrow
    | commits _ _ _ _ _ hwrites htables => exact htables ▸ hwrites.ended hrow hended
  · obtain ⟨_,h⟩ := run_follows as
    exact ⟨_,h⟩

end World

end NexusAi.Compliance
