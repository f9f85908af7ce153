import NexusAi.Events.Handling

/-!
# Nothing is lost before the last delivery

The broker delivers a message as often as the consumer tries it. Whatever ends a
delivery before the last one is made up for by a later one. The last one ends in
a commit or in the transaction that buries, unless it crashes or cannot store the
letter, and then the event is gone.
-/

namespace NexusAi.Events

namespace Consumers

section Steps

variable {s : EventsSettings} {registry : Registry} {organizationOf : ℕ → Option ℕ}
  {w w' : Consumers}

theorem settle_getElem (m : ℕ) (answered : Bool) (j : ℕ) :
    (w.settle m answered).postings[j]? = (w.postings[j]?).map fun p =>
      if m = j then { p with settled := p.settled || answered } else p := by
  simp only [settle,List.getElem?_modify]
  congr

theorem enter_getElem (i : ℕ) (stage : Stage) (j : ℕ) :
    (w.enter i stage).deliveries[j]? = (w.deliveries[j]?).map fun d =>
      if i = j then { d with stage := stage } else d := by
  simp only [enter,List.getElem?_modify]
  congr

variable {i : ℕ} {d : Delivery} {p : Posting} {stage : Stage} {answered : Bool}

section

variable (h : Handled s w w' i d p stage answered)

include h

theorem Handled.posting {j : ℕ} {q : Posting} (hq : w'.postings[j]? = some q) :
    ∃ q₀, w.postings[j]? = some q₀ ∧ q.consumer = q₀.consumer ∧ q.message = q₀.message ∧
      q.delivered = q₀.delivered ∧
      (q.settled → q₀.settled ∨ j = d.posting ∧ answered) := by
  rw [h.postings,settle_getElem] at hq
  obtain ⟨q₀,hq₀,rfl⟩ := Option.map_eq_some_iff.mp hq
  refine ⟨q₀,hq₀,?_⟩
  by_cases hj : d.posting = j
  · subst hj
    simp
  · simp only [hj,if_false,true_and]
    exact fun hs => .inl hs

theorem Handled.delivery {d' : Delivery} (hd' : d' ∈ w'.deliveries) :
    d' ∈ w.deliveries ∨ d' = { d with stage := stage } := by
  obtain ⟨j,hj⟩ := List.mem_iff_getElem?.mp hd'
  rw [h.deliveries,enter_getElem] at hj
  obtain ⟨d₀,hd₀,rfl⟩ := Option.map_eq_some_iff.mp hj
  by_cases hij : i = j
  · subst hij
    have he : d₀ = d := Option.some.inj (hd₀.symm.trans (posting_mem h.found).1)
    exact .inr (by simp [he])
  · exact .inl (by simpa [hij] using List.mem_of_getElem? hd₀)

theorem Handled.kept {d' : Delivery} (hd' : d' ∈ w.deliveries) :
    d' ∈ w'.deliveries ∨ d' = d ∧ { d with stage := stage } ∈ w'.deliveries := by
  obtain ⟨j,hj⟩ := List.mem_iff_getElem?.mp hd'
  have hj' : w'.deliveries[j]? = some (if i = j then { d' with stage := stage } else d') := by
    rw [h.deliveries,enter_getElem,hj]
    rfl
  by_cases hij : i = j
  · subst hij
    have he : d' = d := Option.some.inj (hj.symm.trans (posting_mem h.found).1)
    rw [if_pos rfl,he] at hj'
    exact .inr ⟨he,List.mem_of_getElem? hj'⟩
  · rw [if_neg hij] at hj'
    exact .inl (List.mem_of_getElem? hj')

end

section

variable (hw : w.Tracked s organizationOf)

include hw

theorem Tracked.handled (h : Handled s w w' i d p stage answered)
    (hfinished : ∀ k, w.Finished k → w'.Finished k)
    (hlettered : ∀ k r, w'.receipt k = some r → r.status = .dead → organizationOf k.2 ≠ none →
      ∃ letter ∈ w'.letters, letter.identity = (k.2,.consumer,some k.1)) :
    w'.Tracked s organizationOf := by
  have hplace := posting_mem h.found
  have hlength : w'.postings.length = w.postings.length := by
    rw [h.postings,settle,List.length_modify]
  refine ⟨?_,hlettered,?_,?_,?_,?_⟩
  · intro q hq e he
    obtain ⟨j,hj⟩ := List.mem_iff_getElem?.mp hq
    obtain ⟨q₀,hq₀,-,hmessage,-⟩ := h.posting hj
    exact hw.known q₀ (List.mem_of_getElem? hq₀) e (hmessage ▸ he)
  · intro d' hd'
    rw [hlength]
    rcases h.delivery hd' with hold | rfl
    · exact hw.posted d' hold
    · exact hw.posted d (List.mem_of_getElem? hplace.1)
  · intro d' hd' hcommitted q hq e he
    obtain ⟨q₀,hq₀,hconsumer,hmessage,-⟩ := h.posting hq
    rw [hmessage] at he
    rw [hconsumer]
    rcases h.delivery hd' with hold | rfl
    · exact hfinished _ (hw.committed d' hold hcommitted q₀ hq₀ e he)
    · obtain rfl : q₀ = p := Option.some.inj (hq₀.symm.trans hplace.2)
      exact h.settles (.inr hcommitted) e he
  · intro q hq hsettled e he
    obtain ⟨j,hj⟩ := List.mem_iff_getElem?.mp hq
    obtain ⟨q₀,hq₀,hconsumer,hmessage,-,horigin⟩ := h.posting hj
    rw [hmessage] at he
    rw [hconsumer]
    rcases horigin hsettled with hold | ⟨rfl,hanswered⟩
    · exact hfinished _ (hw.settled q₀ (List.mem_of_getElem? hq₀) hold e he)
    · obtain rfl : q₀ = p := Option.some.inj (hq₀.symm.trans hplace.2)
      exact h.settles (.inl hanswered) e he
  · intro m q hq hlast
    obtain ⟨q₀,hq₀,hconsumer,hmessage,hdelivered,-⟩ := h.posting hq
    rw [hconsumer] at hlast ⊢
    rw [hdelivered] at hlast
    rw [hmessage]
    rcases hw.last m q₀ hq₀ hlast with hdone | ⟨d',hd',rfl,hrunning,hordinal⟩
    · exact .inl fun e he => hfinished _ (hdone e he)
    · rcases h.kept hd' with hkept | ⟨rfl,hmoved⟩
      · exact .inr ⟨d',hkept,rfl,hrunning,hordinal⟩
      · obtain rfl : q₀ = p := Option.some.inj (hq₀.symm.trans hplace.2)
        -- the last delivery itself: it ends with its event finished, or runs on
        by_cases hover : stage = .over
        · exact .inl (h.ends hover hrunning hordinal)
        · exact .inr ⟨_,hmoved,rfl,hover,hordinal⟩

theorem Tracked.post {consumer : ConsumerSpec} {message : Message}
    (hknown : ∀ e ∈ message.envelope, e.organizationId = organizationOf e.eventId) :
    (w.step s registry (.post consumer message)).Tracked s organizationOf := by
  have hold : ∀ {j : ℕ} {q : Posting}, j < w.postings.length →
      (w.postings++[⟨consumer,message,0,false⟩])[j]? = some q → w.postings[j]? = some q := by
    intro j q hj hq
    rwa [List.getElem?_append_left hj] at hq
  refine ⟨?_,fun k r hr => hw.lettered k r hr,?_,?_,?_,?_⟩
  · intro q hq
    rcases Table.mem_concat hq with hq | rfl
    · exact hw.known q hq
    · exact hknown
  · intro d hd
    simp only [step,List.length_append]
    exact Nat.lt_add_right _ (hw.posted d hd)
  · intro d hd hcommitted q hq e he
    exact hw.committed d hd hcommitted q (hold (hw.posted d hd) hq) e he
  · intro q hq hsettled e he
    rcases Table.mem_concat hq with hq | rfl
    · exact hw.settled q hq hsettled e he
    · cases hsettled
  · intro m q hq hlast
    by_cases hm : m < w.postings.length
    · rcases hw.last m q (hold hm hq) hlast with hdone | hrunning
      · exact .inl hdone
      · exact .inr hrunning
    · have hq' : q = ⟨consumer,message,0,false⟩ := by
        simp only [step,List.getElem?_append_right (Nat.not_lt.mp hm),
          List.getElem?_singleton] at hq
        split_ifs at hq
        exact (Option.some.inj hq).symm
      rw [hq'] at hlast
      exact absurd hlast (Nat.not_le.mpr (consumer.maxAttempts_pos s))

omit hw in
theorem posting_delivered {m j : ℕ} {q : Posting}
    (hq : (w.postings.modify m fun p => { p with delivered := p.delivered+1 })[j]? = some q) :
    ∃ q₀, w.postings[j]? = some q₀ ∧ q.consumer = q₀.consumer ∧ q.message = q₀.message ∧
      q.settled = q₀.settled ∧ (j ≠ m → q.delivered = q₀.delivered) := by
  rw [List.getElem?_modify] at hq
  obtain ⟨q₀,hq₀,rfl⟩ := Option.map_eq_some_iff.mp hq
  refine ⟨q₀,hq₀,?_⟩
  by_cases hj : m = j
  · simp [hj]
  · simp [hj]

theorem Tracked.deliver (m : ℕ) (readable : Bool) :
    (w.step s registry (.deliver m readable)).Tracked s organizationOf := by
  simp only [step,deliverStep]
  cases hp : w.postings[m]? with
  | none => exact hw
  | some p =>
    refine ⟨?_,fun k r hr => hw.lettered k r hr,?_,?_,?_,?_⟩
    · intro q hq e he
      obtain ⟨j,hj⟩ := List.mem_iff_getElem?.mp hq
      obtain ⟨q₀,hq₀,-,hmessage,-⟩ := posting_delivered hj
      exact hw.known q₀ (List.mem_of_getElem? hq₀) e (hmessage ▸ he)
    · intro d hd
      rw [List.length_modify]
      rcases Table.mem_concat hd with hd | rfl
      · exact hw.posted d hd
      · exact (List.getElem?_eq_some_iff.mp hp).1
    · intro d hd hcommitted q hq e he
      obtain ⟨q₀,hq₀,hconsumer,hmessage,-⟩ := posting_delivered hq
      rw [hmessage] at he
      rw [hconsumer]
      rcases Table.mem_concat hd with hd | rfl
      · exact hw.committed d hd hcommitted q₀ hq₀ e he
      · cases hcommitted
    · intro q hq hsettled e he
      obtain ⟨j,hj⟩ := List.mem_iff_getElem?.mp hq
      obtain ⟨q₀,hq₀,hconsumer,hmessage,hsame,-⟩ := posting_delivered hj
      rw [hmessage] at he
      rw [hconsumer]
      exact hw.settled q₀ (List.mem_of_getElem? hq₀) (hsame ▸ hsettled) e he
    · intro j q hq hlast
      obtain ⟨q₀,hq₀,hconsumer,hmessage,-,hother⟩ := posting_delivered hq
      rw [hconsumer] at hlast ⊢
      rw [hmessage]
      by_cases hj : j = m
      · subst hj
        obtain rfl : q₀ = p := Option.some.inj (hq₀.symm.trans hp)
        have hq' : q.delivered = q₀.delivered+1 := by
          rw [List.getElem?_modify,hp] at hq
          rw [← Option.some.inj hq]
          simp
        rw [hq'] at hlast
        exact .inr ⟨_,List.mem_append_right _ (List.mem_singleton_self _),rfl,by simp,hlast⟩
      · rw [hother hj] at hlast
        rcases hw.last j q₀ hq₀ hlast with hdone | ⟨d,hd,hrest⟩
        · exact .inl hdone
        · exact .inr ⟨d,List.mem_append_left _ hd,hrest⟩

theorem Tracked.step (a : ConsumerAction) (hbroker : w.brokered s organizationOf a)
    (hlasting : w.lasting s a) : (w.step s registry a).Tracked s organizationOf := by
  have hmove : ∀ {i : ℕ} {w' : Consumers}, w' = w.step s registry a →
      (w' = w ∨ ∃ d p stage answered, Handled s w w' i d p stage answered) →
      w'.Tracked s organizationOf := by
    rintro i w' rfl (hsame | ⟨d,p,stage,answered,h⟩)
    · rw [hsame]
      exact hw
    · exact hw.handled h (fun k hk => hk.step) fun k r hr hdead htenant =>
        hw.lettered_step hr hdead htenant
  cases a with
  | post _ message =>
    refine hw.post fun e he => ?_
    have hparsed : message.envelope = some e := he
    simpa [brokered,hparsed] using hbroker
  | deliver m readable => exact hw.deliver m readable
  | process i => exact hmove rfl (process_handled (i := i) hlasting)
  | ack i outcome => exact hmove rfl (ack_handled (i := i) hw outcome)
  | terminate => exact hmove rfl (terminate_handled hlasting)
  | crash => exact hmove rfl (crash_handled hw hlasting)

end

end Steps

theorem tracked_initial (s : EventsSettings) (organizationOf : ℕ → Option ℕ) :
    initial.Tracked s organizationOf := by
  constructor <;> simp [initial,receipt,Table.find]

end Consumers

/-- Once no delivery of a tenant's event runs and none will come, the event is
processed, or dead with a letter, if the last delivery could do its work. -/
theorem nothing_lost (s : EventsSettings) (registry : Registry) (organizationOf : ℕ → Option ℕ)
    (as : List ConsumerAction)
    (hok : Run.Conforms (Consumers.step s registry)
      (fun w a => w.brokered s organizationOf a ∧ w.lasting s a) as
      Consumers.initial)
    (m : ℕ) (p : Posting) (hp : (Consumers.reach s registry as).postings[m]? = some p)
    (e : EventEnvelope) (he : p.message.envelope = some e) (htenant : e.scope = .tenant)
    (hover : (Consumers.reach s registry as).Over s m p) :
    ∃ r, (Consumers.reach s registry as).receipt (p.consumer.name,e.eventId) = some r ∧
      (r.status = .processed ∨ r.status = .dead ∧
        ∃ letter ∈ (Consumers.reach s registry as).letters,
          letter.identity = (e.eventId,.consumer,some p.consumer.name)) := by
  have hw : (Consumers.reach s registry as).Tracked s organizationOf :=
    Run.exec_conforming (Consumers.step s registry) _ (Consumers.Tracked s organizationOf)
      (fun _ a ha hw => hw.step a ha.1 ha.2) as _ hok (Consumers.tracked_initial s organizationOf)
  have hmem := List.mem_of_getElem? hp
  have hfinished : (Consumers.reach s registry as).Finished (p.consumer.name,e.eventId) := by
    rcases hover.1 with hsettled | hlast
    · exact hw.settled p hmem hsettled e he
    · rcases hw.last m p hp hlast with hdone | ⟨d,hd,hposting,hrunning,-⟩
      · exact hdone e he
      · exact absurd (hover.2 d hd hposting) hrunning
  obtain ⟨r,hr,hf⟩ := hfinished
  refine ⟨r,hr,?_⟩
  rcases r.finished_iff.mp hf with hprocessed | hdead
  · exact .inl hprocessed
  · refine .inr ⟨hdead,hw.lettered _ r hr hdead ?_⟩
    rw [← hw.known p hmem e he]
    exact e.scopeConsistency.mp htenant

/-- A delivery crashes, the last one is refused by the handler. -/
def refusedLastRun : List ConsumerAction :=
  [.post sampleConsumer (sampleMessage 7),.deliver 0 true,.crash 0,.deliver 0 true,
    .process 1 (some (.platform .handlerRetryable)),.terminate 1 true false]

theorem refusedLastRun_over : (Consumers.reach sampleSettings sampleRegistry refusedLastRun).Over
    sampleSettings 0 ⟨sampleConsumer,sampleMessage 7,2,false⟩ := by
  unfold Consumers.Over
  decide +kernel

theorem refusedLastRun_concludes :
    Run.Conforms (Consumers.step sampleSettings sampleRegistry)
      (fun w a => w.brokered sampleSettings (fun _ => some 1) a ∧
        w.lasting sampleSettings a) refusedLastRun Consumers.initial ∧
    ∃ r, (Consumers.reach sampleSettings sampleRegistry refusedLastRun).receipt ("journal",7) =
      some r ∧ (r.status = .processed ∨ r.status = .dead ∧
        ∃ letter ∈ (Consumers.reach sampleSettings sampleRegistry refusedLastRun).letters,
          letter.identity = (7,.consumer,some "journal")) := by
  have hok : Run.Conforms (Consumers.step sampleSettings sampleRegistry)
      (fun w a => w.brokered sampleSettings (fun _ => some 1) a ∧
        w.lasting sampleSettings a) refusedLastRun Consumers.initial := by
    decide +kernel
  exact ⟨hok,nothing_lost sampleSettings sampleRegistry (fun _ => some 1) refusedLastRun hok 0
    ⟨sampleConsumer,sampleMessage 7,2,false⟩ rfl (sampleEnvelope 7) rfl rfl
    refusedLastRun_over⟩

def crashedLastRun : List ConsumerAction :=
  [.post sampleConsumer (sampleMessage 7),.deliver 0 true,.crash 0,.deliver 0 true,
    .process 1 (some (.platform .handlerRetryable)),.crash 1]

theorem crashedLastRun_over : (Consumers.reach sampleSettings sampleRegistry crashedLastRun).Over
    sampleSettings 0 ⟨sampleConsumer,sampleMessage 7,2,false⟩ := by
  unfold Consumers.Over
  decide +kernel

/-- The broker did what it promises, and the event has no receipt and no letter. -/
theorem crashedLastRun_loses :
    Run.Conforms (Consumers.step sampleSettings sampleRegistry)
      (fun w a => w.brokered sampleSettings (fun _ => some 1) a) crashedLastRun
      Consumers.initial ∧
    (Consumers.reach sampleSettings sampleRegistry crashedLastRun).postings[0]? =
      some ⟨sampleConsumer,sampleMessage 7,2,false⟩ ∧
    (Consumers.reach sampleSettings sampleRegistry crashedLastRun).Over sampleSettings 0
      ⟨sampleConsumer,sampleMessage 7,2,false⟩ ∧
    (Consumers.reach sampleSettings sampleRegistry crashedLastRun).receipts = [] ∧
    (Consumers.reach sampleSettings sampleRegistry crashedLastRun).letters = [] :=
  ⟨by decide +kernel,rfl,crashedLastRun_over,by decide +kernel,by decide +kernel⟩

end NexusAi.Events
