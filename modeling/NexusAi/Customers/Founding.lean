import NexusAi.Customers.Ownership

/-!
# How identities come about

An identity comes about once, by a call that creates a customer and says so or by
a link. The invariant of the customer service ties every answer to the identity it
is about.
-/

namespace NexusAi.Customers

namespace World

/-- How an identity came about: by the one call that reports that it created the
customer, or by a link. -/
def Founded (w : World) (r : IdentityRow) : Prop :=
  (w.tables.outbox.filter (·.founds = some r.id) = [.created r.customerId r.id] ∧
    ∃ i c, w.calls[i]? = some c ∧ c.reports r.canonical ∧
      ∀ (j : ℕ) d, w.calls[j]? = some d → d.reports r.canonical → j = i) ∨
  (w.tables.outbox.filter (·.founds = some r.id) = [.linked r.customerId r.id] ∧
    ∀ d ∈ w.calls, d.reports r.canonical = false)

structure Owned (w : World) : Prop where
  customers : w.tables.customers.map CustomerRow.id = List.range w.tables.customers.length
  active : ∀ c ∈ w.tables.customers, c.status = "ACTIVE"
  numbered : w.tables.identities.map IdentityRow.id = List.range w.tables.identities.length
  unique : Table.Keyed IdentityRow.canonical w.tables.identities
  owners : ∀ r ∈ w.tables.identities, r.customerId < w.tables.customers.length
  answered : ∀ c ∈ w.calls, Answered w.tables c
  events : ∀ e ∈ w.tables.outbox, ∀ id ∈ e.founds, id < w.tables.identities.length
  founded : ∀ r ∈ w.tables.identities, w.Founded r

section Steps

variable {w w' : World}

theorem calls_reports (hcalls : ∀ (j : ℕ) c', w'.calls[j]? = some c' → w.calls[j]? = some c' ∨
      Answered w.tables c' ∧ (∀ canonical, c'.reports canonical = false) ∧
        ∀ c canonical, w.calls[j]? = some c → c.reports canonical = false)
    (hlength : w.calls.length ≤ w'.calls.length) (canonical : IdentityType × String) (j : ℕ)
    (c : Call) (hreports : c.reports canonical) :
    w'.calls[j]? = some c ↔ w.calls[j]? = some c := by
  constructor
  · intro hc
    rcases hcalls j c hc with hold | ⟨-,hnot,-⟩
    · exact hold
    · rw [hnot canonical] at hreports
      cases hreports
  · intro hc
    have hlt : j < w'.calls.length :=
      lt_of_lt_of_le (List.getElem?_eq_some_iff.mp hc).1 hlength
    obtain ⟨c',hc'⟩ : ∃ c', w'.calls[j]? = some c' := ⟨_,List.getElem?_eq_getElem hlt⟩
    rcases hcalls j c' hc' with hold | ⟨-,-,hnot⟩
    · rw [hc']
      exact hold.symm.trans hc
    · rw [hnot c canonical hc] at hreports
      cases hreports

theorem Founded.moved {r r' : IdentityRow} (h : w.Founded r) (hid : r'.id = r.id)
    (hcanonical : r'.canonical = r.canonical) (howner : r'.customerId = r.customerId)
    (houtbox : w'.tables.outbox.filter (·.founds = some r.id) =
      w.tables.outbox.filter (·.founds = some r.id))
    (hreports : ∀ (j : ℕ) c, c.reports r.canonical →
      (w'.calls[j]? = some c ↔ w.calls[j]? = some c)) : w'.Founded r' := by
  unfold Founded
  rw [hid,hcanonical,howner,houtbox]
  rcases h with ⟨hevents,i,c,hi,hc,hsole⟩ | ⟨hevents,hnone⟩
  · refine .inl ⟨hevents,i,c,(hreports i c hc).mpr hi,hc,fun j d hd hdreports => ?_⟩
    exact hsole j d ((hreports j d hdreports).mp hd) hdreports
  · refine .inr ⟨hevents,fun d hd => ?_⟩
    by_contra hnot
    have hdreports : d.reports r.canonical := by simpa using hnot
    obtain ⟨j,hj⟩ := List.getElem?_of_mem hd
    rw [hnone d (List.mem_of_getElem? ((hreports j d hdreports).mp hj))] at hdreports
    cases hdreports

theorem Owned.calls (hw : w.Owned) (htables : w'.tables = w.tables)
    (hcalls : ∀ (j : ℕ) c', w'.calls[j]? = some c' → w.calls[j]? = some c' ∨
      Answered w.tables c' ∧ (∀ canonical, c'.reports canonical = false) ∧
        ∀ c canonical, w.calls[j]? = some c → c.reports canonical = false)
    (hlength : w.calls.length ≤ w'.calls.length) : w'.Owned := by
  obtain ⟨hcustomers,hactive,hnumbered,hunique,howners,hanswered,hevents,hfounded⟩ := hw
  refine ⟨htables ▸ hcustomers,htables ▸ hactive,htables ▸ hnumbered,htables ▸ hunique,
    htables ▸ howners,?_,htables ▸ hevents,?_⟩
  · intro c hc
    obtain ⟨j,hj⟩ := List.getElem?_of_mem hc
    rw [htables]
    rcases hcalls j c hj with hold | ⟨hnew,-⟩
    · exact hanswered c (List.mem_of_getElem? hold)
    · exact hnew
  · intro r hr
    rw [htables] at hr
    refine (hfounded r hr).moved rfl rfl rfl (by rw [htables]) fun j c hreports => ?_
    exact calls_reports hcalls hlength r.canonical j c hreports

theorem Owned.verified (hw : w.Owned) {identityId : ℕ} {state : IdentityVerificationState}
    (htables : w'.tables = w.tables.setVerificationState identityId state)
    (hcalls : w'.calls = w.calls) : w'.Owned := by
  obtain ⟨f,hf,hidentities⟩ := verified_identities w.tables identityId state
  obtain ⟨hcustomers,extra,houtbox,hextra⟩ := verified_rest w.tables identityId state
  have hkept : Kept w.tables w'.tables := moves_kept (.verified identityId state htables hcalls)
  rw [← htables] at hidentities hcustomers houtbox
  have hids : w'.tables.identities.map IdentityRow.id = w.tables.identities.map IdentityRow.id := by
    rw [hidentities]
    exact Table.map_edit fun r _ _ => (hf r).1
  have hlength : w'.tables.identities.length = w.tables.identities.length := by
    simpa using congrArg List.length hids
  have hfrom : ∀ r' ∈ w'.tables.identities, ∃ r ∈ w.tables.identities, r'.id = r.id ∧
      r'.canonical = r.canonical ∧ r'.customerId = r.customerId := by
    intro r' hr'
    rw [hidentities] at hr'
    rcases Table.mem_edit.mp hr' with ⟨r,hr,-,rfl⟩ | ⟨hr,-⟩
    · exact ⟨r,hr,hf r⟩
    · exact ⟨r',hr,rfl,rfl,rfl⟩
  refine ⟨?_,?_,?_,?_,?_,?_,?_,?_⟩
  · rw [hcustomers]
    exact hw.customers
  · rw [hcustomers]
    exact hw.active
  · rw [hids,hlength]
    exact hw.numbered
  · rw [hidentities]
    exact Table.unique_edit (fun r _ _ => (hf r).2.1) hw.unique
  · intro r' hr'
    obtain ⟨r,hr,-,-,howner⟩ := hfrom r' hr'
    rw [hcustomers,howner]
    exact hw.owners r hr
  · intro c hc
    exact hkept.answered (hw.answered c (hcalls ▸ hc))
  · intro e he id hid
    rw [houtbox] at he
    rw [hlength]
    rcases List.mem_append.mp he with hold | hnew
    · exact hw.events e hold id hid
    · rw [hextra e hnew] at hid
      cases hid
  · intro r' hr'
    obtain ⟨r,hr,hid,hcanonical,howner⟩ := hfrom r' hr'
    refine (hw.founded r hr).moved hid hcanonical howner ?_ fun j c _ => by rw [hcalls]
    have hnone : extra.filter (·.founds = some r.id) = [] := by
      refine List.filter_eq_nil_iff.mpr fun e he => ?_
      simp [hextra e he]
    rw [houtbox,List.filter_append,hnone,List.append_nil]

def newRow (t : Tables) (c : Call) : IdentityRow :=
  t.identityRow (c.customerId.getD t.customers.length) c

def newEvent (t : Tables) (c : Call) : CustomerEvent :=
  match c.customerId with
  | none => .created t.customers.length t.identities.length
  | some customerId => .linked customerId t.identities.length

section

variable (t : Tables) (c : Call)

include t c

theorem inserted_identities : (t.inserted c).identities = t.identities++[newRow t c] ∧
      (t.inserted c).outbox = t.outbox++[newEvent t c] := by
  unfold Tables.inserted newRow newEvent
  cases c.customerId <;> exact ⟨rfl,rfl⟩

theorem inserted_customers : (t.inserted c).customers = t.customers ∨
    c.customerId = none ∧ (t.inserted c).customers = t.customers++[t.customerRow c] := by
  unfold Tables.inserted
  cases c.customerId
  · exact .inr ⟨rfl,rfl⟩
  · exact .inl rfl

theorem insertedAnswer_eq : t.insertedAnswer c =
    match c.customerId with
    | none => .resolved ⟨t.customers.length,c.displayName,.active⟩ true
    | some customerId => .linked ⟨t.identities.length,customerId,c.canonical.1,c.canonical.2,
        .unverified,false,c.source,.active⟩ := by
  obtain ⟨customerId,_,_,_,_⟩ := c
  cases customerId <;> rfl

theorem newEvent_founds : (newEvent t c).founds = some t.identities.length := by
  unfold newEvent
  cases c.customerId <;> rfl

end

theorem Owned.unreported (hw : w.Owned) {canonical : IdentityType × String}
    (hnone : w.tables.resolve canonical = none) (c : Call) (hc : c ∈ w.calls) :
    c.reports canonical = false := by
  have hanswered := hw.answered c hc
  unfold Answered at hanswered
  unfold Call.reports
  split
  · rename_i hphase
    rw [hphase] at hanswered
    obtain ⟨-,r,hr,hcanonical,-⟩ := hanswered
    simp only [decide_eq_false_iff_not]
    intro hsame
    exact Tables.resolve_none hnone r hr (hcanonical.trans hsame)
  · rfl

theorem inserted_founds (hw : w.Owned) (c : Call) (id : ℕ) :
    (w.tables.inserted c).outbox.filter (·.founds = some id) =
      if id = w.tables.identities.length then [newEvent w.tables c]
      else w.tables.outbox.filter (·.founds = some id) := by
  rw [(inserted_identities w.tables c).2,List.filter_append]
  split
  · rename_i heq
    have hold : w.tables.outbox.filter (·.founds = some id) = [] := by
      refine List.filter_eq_nil_iff.mpr fun e he => ?_
      simp only [decide_eq_true_eq]
      intro hfounds
      have hlt := hw.events e he id hfounds
      omega
    rw [hold]
    simp [newEvent_founds,heq]
  · rename_i hne
    simp [newEvent_founds,Ne.symm hne]

theorem Owned.customerId_lt (hw : w.Owned) {row : CustomerRow} (hrow : row ∈ w.tables.customers) :
    row.id < w.tables.customers.length := by
  have hmem := List.mem_map_of_mem (f := CustomerRow.id) hrow
  rw [hw.customers,List.mem_range] at hmem
  exact hmem

theorem Owned.identityId_lt (hw : w.Owned) {r : IdentityRow} (hr : r ∈ w.tables.identities) :
    r.id < w.tables.identities.length := by
  have hmem := List.mem_map_of_mem (f := IdentityRow.id) hr
  rw [hw.numbered,List.mem_range] at hmem
  exact hmem

theorem inserted_answered (t : Tables) (c : Call) :
    Answered (t.inserted c) { c with phase := t.insertedAnswer c } := by
  have hmem : newRow t c ∈ (t.inserted c).identities := by
    rw [(inserted_identities t c).1]
    exact List.mem_append_right _ (List.mem_singleton_self _)
  rw [insertedAnswer_eq]
  cases hcustomer : c.customerId with
  | none => exact ⟨rfl,newRow t c,hmem,rfl,by rw [newRow,hcustomer]; rfl⟩
  | some => exact ⟨newRow t c,hmem,rfl,rfl,by rw [newRow,hcustomer]; rfl⟩

section

variable (hw : w.Owned)

include hw

theorem Owned.inserted_owners {c : Call}
    (hmissing : ∀ customerId ∈ c.customerId, ∃ row ∈ w.tables.customers, row.id = customerId)
    (r : IdentityRow) (hr : r ∈ (w.tables.inserted c).identities) :
    r.customerId < (w.tables.inserted c).customers.length := by
  rw [(inserted_identities w.tables c).1] at hr
  rcases Table.mem_concat hr with hold | rfl
  · have hlt := hw.owners r hold
    rcases inserted_customers w.tables c with hsame | ⟨-,happended⟩
    · rw [hsame]
      exact hlt
    · rw [happended,List.length_append]
      exact Nat.lt_add_right _ hlt
  · cases hcustomer : c.customerId with
    | none =>
      rcases inserted_customers w.tables c with hsame | ⟨-,happended⟩
      · simp [Tables.inserted,hcustomer] at hsame
      · rw [happended,List.length_append]
        simp [newRow,Tables.identityRow,hcustomer]
    | some customerId =>
      obtain ⟨_,hrow,rfl⟩ := hmissing customerId hcustomer
      have hlt := hw.customerId_lt hrow
      simpa [newRow,Tables.identityRow,Tables.inserted,hcustomer] using hlt

theorem Owned.inserted_events (c : Call) (e : CustomerEvent)
    (he : e ∈ (w.tables.inserted c).outbox) (id : ℕ) (hid : id ∈ e.founds) :
    id < (w.tables.inserted c).identities.length := by
  rw [(inserted_identities w.tables c).1,List.length_append,List.length_singleton]
  rw [(inserted_identities w.tables c).2] at he
  rcases Table.mem_concat he with hold | rfl
  · have hlt := hw.events e hold id hid
    omega
  · rw [newEvent_founds] at hid
    cases hid
    omega

theorem Owned.inserted_new {i : ℕ} {c : Call} (hi : w.calls[i]? = some c)
    (hnone : w.tables.resolve c.canonical = none) (htables : w'.tables = w.tables.inserted c)
    (hcalls : w'.calls = (w.enter i (w.tables.insertedAnswer c)).calls) :
    w'.Founded (newRow w.tables c) := by
  have hself : w'.calls[i]? = some { c with phase := w.tables.insertedAnswer c } := by
    rw [hcalls]
    simp [enter,hi]
  have hothers : ∀ (j : ℕ) d, w'.calls[j]? = some d → d.reports c.canonical → j = i := by
    intro j d hd hreports
    rw [hcalls] at hd
    rcases Batch.modify_cases hd with ⟨e,_,rfl,-⟩ | ⟨-,hold⟩
    · rfl
    · rw [hw.unreported hnone d (List.mem_of_getElem? hold)] at hreports
      cases hreports
  have hevents : w'.tables.outbox.filter (·.founds = some (newRow w.tables c).id) =
      [newEvent w.tables c] := by
    rw [htables,inserted_founds hw]
    exact if_pos rfl
  cases hcustomer : c.customerId with
  | none =>
    refine .inl ⟨?_,i,_,hself,?_,hothers⟩
    · rw [hevents]
      simp [newEvent,newRow,Tables.identityRow,hcustomer]
    · simp [insertedAnswer_eq,hcustomer,Call.reports,newRow,Tables.identityRow,
        IdentityRow.canonical]
  | some =>
    refine .inr ⟨?_,fun d hd => ?_⟩
    · rw [hevents]
      simp [newEvent,newRow,Tables.identityRow,hcustomer]
    · by_contra hnot
      obtain ⟨j,hj⟩ := List.getElem?_of_mem hd
      have hreports : d.reports c.canonical := eq_true_of_ne_false hnot
      rw [hothers j d hj hreports,hself] at hj
      rw [← Option.some.inj hj] at hreports
      simp [insertedAnswer_eq,hcustomer,Call.reports] at hreports

theorem Owned.inserted_old {i : ℕ} {c : Call} (hi : w.calls[i]? = some c)
    (hnone : w.tables.resolve c.canonical = none) (htables : w'.tables = w.tables.inserted c)
    (hcalls : w'.calls = (w.enter i (w.tables.insertedAnswer c)).calls) (r : IdentityRow)
    (hr : r ∈ w.tables.identities) : w'.Founded r := by
  refine (hw.founded r hr).moved rfl rfl rfl ?_ fun j d hreports => ?_
  · rw [htables,inserted_founds hw,if_neg]
    exact (hw.identityId_lt hr).ne
  · -- the call that changes has another value
    have hother : ∀ phase, Call.reports r.canonical { c with phase := phase } = false := by
      intro phase
      have hne : c.canonical ≠ r.canonical := (Tables.resolve_none hnone r hr).symm
      unfold Call.reports
      split
      · simpa using hne
      · rfl
    rw [hcalls]
    constructor
    · intro hd
      rcases Batch.modified hi hd with ⟨-,rfl⟩ | ⟨-,hold⟩
      · rw [hother] at hreports
        cases hreports
      · exact hold
    · intro hd
      have hne : i ≠ j := by
        rintro rfl
        rw [hi] at hd
        rw [← Option.some.inj hd,hother c.phase] at hreports
        cases hreports
      simpa [enter,List.getElem?_modify,hne] using hd

theorem Owned.inserted {i : ℕ} {c : Call} (hi : w.calls[i]? = some c)
    (hphase : c.phase = .missing) (hnone : w.tables.resolve c.canonical = none)
    (htables : w'.tables = w.tables.inserted c)
    (hcalls : w'.calls = (w.enter i (w.tables.insertedAnswer c)).calls) : w'.Owned := by
  have hkept : Kept w.tables w'.tables := htables ▸ inserted_kept w.tables c
  have hidentities : w'.tables.identities = w.tables.identities++[newRow w.tables c] :=
    htables ▸ (inserted_identities w.tables c).1
  have hmissing : ∀ customerId ∈ c.customerId, ∃ row ∈ w.tables.customers, row.id = customerId := by
    have hanswered := hw.answered c (List.mem_of_getElem? hi)
    unfold Answered at hanswered
    rw [hphase] at hanswered
    exact hanswered
  refine ⟨?_,?_,?_,?_,?_,?_,?_,?_⟩
  · rw [htables]
    rcases inserted_customers w.tables c with hsame | ⟨-,hnew⟩
    · rw [hsame]
      exact hw.customers
    · rw [hnew,List.map_append,hw.customers,List.length_append,List.length_singleton,
        List.range_succ]
      rfl
  · rw [htables]
    rcases inserted_customers w.tables c with hsame | ⟨-,hnew⟩
    · rw [hsame]
      exact hw.active
    · rw [hnew]
      intro row hrow
      rcases Table.mem_concat hrow with hold | rfl
      · exact hw.active row hold
      · rfl
  · rw [hidentities,List.map_append,hw.numbered,List.length_append,List.length_singleton,
      List.range_succ]
    rfl
  · rw [hidentities]
    exact Table.keyed_append hw.unique fun r hr => Tables.resolve_none hnone r hr
  · rw [htables]
    exact hw.inserted_owners hmissing
  · intro d hd
    rw [hcalls] at hd
    rcases Batch.mem_modify hi hd with rfl | hold
    · rw [htables]
      exact inserted_answered w.tables c
    · exact hkept.answered (hw.answered d hold)
  · rw [htables]
    exact hw.inserted_events c
  · intro r hr
    rw [hidentities] at hr
    rcases Table.mem_concat hr with hold | rfl
    · exact hw.inserted_old hi hnone htables hcalls r hold
    · exact hw.inserted_new hi hnone htables hcalls

theorem Owned.moved (h : Moves w w') : w'.Owned := by
  cases h with
  | calls htables hcalls hlength => exact hw.calls htables hcalls hlength
  | inserted _ _ hi hphase hnone htables hcalls => exact hw.inserted hi hphase hnone htables hcalls
  | verified _ _ htables hcalls => exact hw.verified htables hcalls

end

theorem owned_initial : initial.Owned where
  customers := rfl
  active := by simp [initial]
  numbered := rfl
  unique := List.nodup_nil
  owners := by simp [initial]
  answered := by simp [initial]
  events := by simp [initial]
  founded := by simp [initial]

theorem owned_reach (normalize : IdentityRequest → Option String) (as : List Action) :
    (reach normalize as).Owned :=
  Run.exec_invariant (step normalize) Owned (fun w a hw => hw.moved (step_moves normalize w a)) as
    initial owned_initial

end Steps

end World

end NexusAi.Customers
