import NexusAi.Lib.Batch
import NexusAi.Provisioning.System

/-!
# What the tables and the calls say of each other

A claim and the organization that was created for it point at each other, keys are
claimed once and organization keys are taken once. Every call that works on a claim, or
was answered from one, has its key and its payload, whether or not another worker of the
same claim came first.
-/

namespace NexusAi.Provisioning

namespace World

def Claims (c : Call) (row : RequestRow) : Prop :=
  row.idempotencyKey = c.request.idempotencyKey ∧ row.requestFingerprint = c.request.payload

def Backed (w : World) (c : Call) : Phase → Prop
  | .baseline requestId payload _ => ∃ row, w.requests[requestId]? = some row ∧ Claims c row ∧
      payload = c.request.payload
  | .finalizing requestId organizationId _ => ∃ row, w.requests[requestId]? = some row ∧
      Claims c row ∧ row.organizationId = some organizationId
  | .ended (.ok answer) => ∃ (requestId : ℕ) (row : RequestRow),
      w.requests[requestId]? = some row ∧ Claims c row ∧
        row.organizationId = some answer.organizationId
  | _ => True

structure Formed (row : RequestRow) : Prop where
  payload : row.requestPayload = row.requestFingerprint
  key : row.organizationKey = row.requestFingerprint.organizationKey
  linked : row.status = .completed → row.organizationId.isSome

structure Sound (w : World) : Prop where
  keys : ∀ (i j : ℕ) r s, w.requests[i]? = some r → w.requests[j]? = some s →
    r.idempotencyKey = s.idempotencyKey → i = j
  formed : ∀ (i : ℕ) r, w.requests[i]? = some r → Formed r
  slugs : ∀ (m n : ℕ) o p, w.organizations[m]? = some o → w.organizations[n]? = some p →
    o.organizationKey = p.organizationKey → m = n
  created : ∀ (n : ℕ) o i, w.organizations[n]? = some o → o.createdFor = some i →
    ∃ r, w.requests[i]? = some r ∧ r.organizationId = some n ∧
      o.organizationKey = r.organizationKey
  links : ∀ (i : ℕ) r n, w.requests[i]? = some r → r.organizationId = some n →
    ∃ o, w.organizations[n]? = some o ∧ o.createdFor = some i
  calls : ∀ (i : ℕ) c, w.calls[i]? = some c → w.Backed c c.phase

def Keeps (w w' : World) : Prop :=
  ∀ (i : ℕ) r, w.requests[i]? = some r → ∃ r', w'.requests[i]? = some r' ∧
    r'.idempotencyKey = r.idempotencyKey ∧ r'.requestFingerprint = r.requestFingerprint ∧
      ∀ n, r.organizationId = some n → r'.organizationId = some n

section Keeping

variable {w w' : World} {c : Call}

theorem Backed.keeps (hkeeps : Keeps w w') {phase : Phase} (h : w.Backed c phase) :
    w'.Backed c phase := by
  -- each phase points at one row, which keeps its key, its payload and its link
  have carry {i : ℕ} {row : RequestRow} (hrow : w.requests[i]? = some row) (hc : Claims c row) :
      ∃ row', w'.requests[i]? = some row' ∧ Claims c row' ∧
        ∀ n, row.organizationId = some n → row'.organizationId = some n := by
    obtain ⟨row',hrow',hkey,hprint,hlink⟩ := hkeeps i row hrow
    exact ⟨row',hrow',⟨hkey.trans hc.1,hprint.trans hc.2⟩,hlink⟩
  cases phase with
  | baseline =>
    obtain ⟨_,hrow,hc,hpayload⟩ := h
    obtain ⟨row',hrow',hc',-⟩ := carry hrow hc
    exact ⟨row',hrow',hc',hpayload⟩
  | finalizing =>
    obtain ⟨_,hrow,hc,hlinked⟩ := h
    obtain ⟨row',hrow',hc',hlink⟩ := carry hrow hc
    exact ⟨row',hrow',hc',hlink _ hlinked⟩
  | ended answer =>
    cases answer with
    | error => trivial
    | ok =>
      obtain ⟨requestId,_,hrow,hc,hlinked⟩ := h
      obtain ⟨row',hrow',hc',hlink⟩ := carry hrow hc
      exact ⟨requestId,row',hrow',hc',hlink _ hlinked⟩
  | checking | claiming | handling => trivial

theorem keeps_modify {i : ℕ} {f : RequestRow → RequestRow}
    (hkey : ∀ r, (f r).idempotencyKey = r.idempotencyKey)
    (hprint : ∀ r, (f r).requestFingerprint = r.requestFingerprint)
    (hlink : ∀ r n, w.requests[i]? = some r → r.organizationId = some n →
      (f r).organizationId = some n)
    (hw' : w'.requests = w.requests.modify i f) : Keeps w w' := by
  intro j r hr
  rw [hw',List.getElem?_modify,hr]
  by_cases hij : i = j
  · subst hij
    exact ⟨f r,by simp,hkey r,hprint r,fun n hn => hlink r n hr hn⟩
  · exact ⟨r,by simp [hij],rfl,rfl,fun _ h => h⟩

theorem keeps_append {r : RequestRow} (hw' : w'.requests = w.requests++[r]) : Keeps w w' := by
  intro j s hs
  have hlt := (List.getElem?_eq_some_iff.mp hs).1
  refine ⟨s,?_,rfl,rfl,fun _ h => h⟩
  rw [hw',List.getElem?_append_left hlt,hs]

variable {key : String}

theorem byKeyHash_some {i : ℕ} (h : w.byKeyHash key = some i) :
    ∃ r, w.requests[i]? = some r ∧ r.idempotencyKey = key := by
  obtain ⟨hlt,hkey,-⟩ := List.findIdx?_eq_some_iff_getElem.mp h
  exact ⟨_,List.getElem?_eq_getElem hlt,by simpa using hkey⟩

theorem byKeyHash_none (h : w.byKeyHash key = none) {i : ℕ} {r : RequestRow}
    (hr : w.requests[i]? = some r) : r.idempotencyKey ≠ key := by
  have hnone := List.findIdx?_eq_none_iff.mp h r (List.mem_of_getElem? hr)
  simpa using hnone

theorem keyTaken_false (h : w.keyTaken key = false) {n : ℕ} {o : OrganizationRow}
    (ho : w.organizations[n]? = some o) : o.organizationKey ≠ key := by
  have hnone := List.any_eq_false.mp h o (List.mem_of_getElem? ho)
  simpa using hnone

end Keeping

section Transactions

variable {w : World} {c : Call} {r : RequestRow}

theorem Sound.rewrite (h : Sound w) {i : ℕ} {f : RequestRow → RequestRow}
    (hr : w.requests[i]? = some r) (hkey : ∀ r, (f r).idempotencyKey = r.idempotencyKey)
    (hprint : ∀ r, (f r).requestFingerprint = r.requestFingerprint)
    (horg : ∀ r, (f r).organizationKey = r.organizationKey)
    (hlink : (f r).organizationId = r.organizationId) (hformed : Formed (f r)) :
    Sound { w with requests := w.requests.modify i f } := by
  have hkeeps : Keeps w { w with requests := w.requests.modify i f } := by
    refine keeps_modify hkey hprint ?_ rfl
    intro s n hs hn
    rw [hr] at hs
    cases hs
    rw [hlink,hn]
  -- every claim afterwards was there before, with the same key and link
  have before {j : ℕ} {s : RequestRow} (hs : (w.requests.modify i f)[j]? = some s) :
      ∃ s₀, w.requests[j]? = some s₀ ∧ s.idempotencyKey = s₀.idempotencyKey ∧
        s.organizationId = s₀.organizationId := by
    rcases Batch.modified hr hs with ⟨rfl,rfl⟩ | ⟨-,hs⟩
    · exact ⟨r,hr,hkey r,hlink⟩
    · exact ⟨s,hs,rfl,rfl⟩
  constructor
  case keys =>
    intro j k s t hs ht hst
    obtain ⟨s₀,hs₀,hskey,-⟩ := before hs
    obtain ⟨t₀,ht₀,htkey,-⟩ := before ht
    exact h.keys j k s₀ t₀ hs₀ ht₀ (by rw [← hskey,← htkey,hst])
  case formed => exact Batch.forall_modify hr hformed h.formed
  case slugs => exact h.slugs
  case created =>
    intro n o j ho hj
    obtain ⟨s,hs,hsn,hso⟩ := h.created n o j ho hj
    by_cases hij : i = j
    · subst hij
      rw [hr] at hs
      cases hs
      exact ⟨f r,by simp [hr],by rw [hlink,hsn],by rw [horg,hso]⟩
    · exact ⟨s,by simp [hij,hs],hsn,hso⟩
  case links =>
    intro j s n hs hn
    obtain ⟨s₀,hs₀,-,hslink⟩ := before hs
    exact h.links j s₀ n hs₀ (by rw [← hslink,hn])
  case calls =>
    intro j d hd
    exact (h.calls j d hd).keeps hkeeps

theorem Sound.claim (h : Sound w) (hfree : w.byKeyHash c.request.idempotencyKey = none)
    (now : ℤ) : Sound { w with requests := w.requests++[pendingRow c now] } := by
  constructor
  case keys =>
    intro i j r s hr hs hrs
    rcases Batch.concat_cases hr with ⟨hi,rfl⟩ | hr <;> rcases Batch.concat_cases hs with ⟨hj,rfl⟩ | hs
    · rw [hi,hj]
    · exact absurd hrs.symm (byKeyHash_none hfree hs)
    · exact absurd hrs (byKeyHash_none hfree hr)
    · exact h.keys i j r s hr hs hrs
  case formed =>
    refine Batch.forall_concat ⟨rfl,rfl,?_⟩ h.formed
    intro hcompleted
    cases hcompleted
  case slugs => exact h.slugs
  case created =>
    intro n o i ho hi
    obtain ⟨r,hr,hrest⟩ := h.created n o i ho hi
    have hlt := (List.getElem?_eq_some_iff.mp hr).1
    exact ⟨r,by rw [List.getElem?_append_left hlt,hr],hrest⟩
  case links =>
    intro i r n hr hn
    rcases Batch.concat_cases hr with ⟨-,rfl⟩ | hr
    · cases hn
    · exact h.links i r n hr hn
  case calls =>
    intro i d hd
    exact (h.calls i d hd).keeps (keeps_append rfl)

theorem slugs_append {key : String} {o : OrganizationRow}
    (h : ∀ (m n : ℕ) o p, w.organizations[m]? = some o → w.organizations[n]? = some p →
      o.organizationKey = p.organizationKey → m = n)
    (hfree : w.keyTaken key = false) (ho : o.organizationKey = key) (m n : ℕ) (p q : OrganizationRow)
    (hp : (w.organizations++[o])[m]? = some p) (hq : (w.organizations++[o])[n]? = some q)
    (hpq : p.organizationKey = q.organizationKey) : m = n := by
  rcases Batch.concat_cases hp with ⟨hm,hpo⟩ | hp'
  · rcases Batch.concat_cases hq with ⟨hn,-⟩ | hq'
    · rw [hm,hn]
    · rw [hpo,ho] at hpq
      exact absurd hpq.symm (keyTaken_false hfree hq')
  · rcases Batch.concat_cases hq with ⟨-,hqo⟩ | hq'
    · rw [hqo,ho] at hpq
      exact absurd hpq (keyTaken_false hfree hp')
    · exact h m n p q hp' hq' hpq

theorem Sound.unlinked (h : Sound w) {i : ℕ} (hr : w.requests[i]? = some r)
    (hfree : w.keyTaken r.organizationKey = false) : r.organizationId = none := by
  cases hlink : r.organizationId with
  | none => rfl
  | some n =>
    obtain ⟨o,ho,hfor⟩ := h.links i r n hr hlink
    obtain ⟨_,hr',-,hkey⟩ := h.created n o i ho hfor
    rw [hr] at hr'
    cases hr'
    exact absurd hkey (keyTaken_false hfree ho)

theorem Sound.create (h : Sound w) {i : ℕ} (hr : w.requests[i]? = some r)
    (hfree : w.keyTaken r.organizationKey = false) (ownerUserId : ℕ) (now : ℤ) :
    Sound { w with
      organizations := w.organizations++[⟨r.organizationKey,some ownerUserId,some i⟩]
      requests := w.requests.modify i (RequestRow.linkOrganization now w.organizations.length) } := by
  have hnone := h.unlinked hr hfree
  constructor
  case keys =>
    intro j k s t hs ht hst
    have before {l : ℕ} {u : RequestRow}
        (hu : (w.requests.modify i (RequestRow.linkOrganization now w.organizations.length))[l]? =
          some u) : ∃ u₀, w.requests[l]? = some u₀ ∧ u.idempotencyKey = u₀.idempotencyKey := by
      rcases Batch.modify_cases hu with ⟨u₀,hu₀,-,rfl⟩ | ⟨-,hu⟩
      · exact ⟨u₀,hu₀,rfl⟩
      · exact ⟨u,hu,rfl⟩
    obtain ⟨s₀,hs₀,hskey⟩ := before hs
    obtain ⟨t₀,ht₀,htkey⟩ := before ht
    exact h.keys j k s₀ t₀ hs₀ ht₀ (by rw [← hskey,← htkey,hst])
  case formed =>
    intro j s hs
    rcases Batch.modify_cases hs with ⟨s₀,hs₀,-,rfl⟩ | ⟨-,hs⟩
    · have hformed := h.formed j s₀ hs₀
      exact ⟨hformed.payload,hformed.key,fun _ => rfl⟩
    · exact h.formed j s hs
  case slugs => exact slugs_append h.slugs hfree rfl
  case created =>
    intro n o j ho hj
    rcases Batch.concat_cases ho with ⟨hn,rfl⟩ | ho
    · cases hj
      exact ⟨RequestRow.linkOrganization now w.organizations.length r,by simp [hr],by rw [hn]; rfl,
        rfl⟩
    · obtain ⟨s,hs,hsn,hso⟩ := h.created n o j ho hj
      have hij : i ≠ j := by
        rintro rfl
        rw [hr] at hs
        cases hs
        rw [hnone] at hsn
        cases hsn
      exact ⟨s,by simp [hij,hs],hsn,hso⟩
  case links =>
    intro j s n hs hn
    rcases Batch.modify_cases hs with ⟨_,_,rfl,rfl⟩ | ⟨-,hs⟩
    · cases hn
      exact ⟨_,List.getElem?_concat_length,rfl⟩
    · obtain ⟨o,ho,hfor⟩ := h.links j s n hs hn
      have hlt := (List.getElem?_eq_some_iff.mp ho).1
      exact ⟨o,by rw [List.getElem?_append_left hlt,ho],hfor⟩
  case calls =>
    intro j d hd
    apply (h.calls j d hd).keeps
    refine keeps_modify (f := RequestRow.linkOrganization now w.organizations.length)
      (fun _ => rfl) (fun _ => rfl) ?_ rfl
    intro s n hs hn
    rw [hr] at hs
    cases hs
    rw [hnone] at hn
    cases hn

end Transactions

variable {w : World} {c : Call} {staleSeconds : ℤ} {i : ℕ} {now : ℤ}

theorem handleExisting_backed (h : Sound w) :
    w.Backed c (handleExisting staleSeconds w c now) := by
  unfold handleExisting
  split
  · trivial
  rename_i requestId hfind
  obtain ⟨row,hrow,hkey⟩ := byKeyHash_some hfind
  rw [hrow]
  dsimp only
  by_cases hprint : row.requestFingerprint = c.request.payload
  · rw [if_neg (not_not_intro hprint)]
    have hclaims : Claims c row := ⟨hkey,hprint⟩
    split
    · rename_i organizationId _ hlink
      exact ⟨requestId,row,hrow,hclaims,hlink⟩
    · trivial
    · unfold resumePending
      split
      · rename_i hlink
        exact ⟨row,hrow,hclaims,hlink⟩
      · split_ifs
        · exact ⟨row,hrow,hclaims,((h.formed requestId row hrow).payload).trans hprint⟩
        · trivial
        · trivial
  · rw [if_pos hprint]
    trivial

theorem executeBaseline_sound (h : Sound w) {requestId : ℕ} {payload : Payload} {ownerUserId : ℕ}
    (hbacked : w.Backed c (.baseline requestId payload ownerUserId)) :
    Sound (w.executeBaseline requestId payload ownerUserId now).1 ∧
      (w.executeBaseline requestId payload ownerUserId now).1.Backed c
        (w.executeBaseline requestId payload ownerUserId now).2 := by
  obtain ⟨row,hrow,hclaims,hpayload⟩ := hbacked
  have hformed := h.formed requestId row hrow
  have failed (code : String) :
      Sound { w with requests := w.requests.modify requestId (RequestRow.markFailed now code) } := by
    refine h.rewrite hrow (fun _ => rfl) (fun _ => rfl) (fun _ => rfl) rfl ?_
    refine ⟨hformed.payload,hformed.key,?_⟩
    intro hcompleted
    cases hcompleted
  have hkey : payload.organizationKey = row.organizationKey := by
    rw [hpayload,hformed.key,hclaims.2]
  unfold executeBaseline
  split_ifs with htaken hrole
  · exact ⟨failed _,trivial⟩
  · exact ⟨failed _,trivial⟩
  · rw [Bool.not_eq_true] at htaken
    rw [hkey] at htaken ⊢
    refine ⟨h.create hrow htaken ownerUserId now,?_⟩
    exact ⟨RequestRow.linkOrganization now w.organizations.length row,by simp [hrow],
      ⟨hclaims.1,hclaims.2⟩,rfl⟩

theorem transaction_calls (staleSeconds : ℤ) (w : World) (c : Call) (now : ℤ) :
    (w.transaction staleSeconds c now).1.calls = w.calls := by
  unfold transaction executeBaseline
  split
  · rfl
  · split_ifs <;> rfl
  · rfl
  · split_ifs <;> rfl
  · rfl
  · rfl

theorem transaction_sound (staleSeconds now : ℤ) (h : Sound w) (hc : w.calls[i]? = some c) :
    Sound (w.transaction staleSeconds c now).1 ∧
      (w.transaction staleSeconds c now).1.Backed c (w.transaction staleSeconds c now).2 := by
  have hbacked := h.calls i c hc
  unfold transaction
  cases hphase : c.phase with
  | checking =>
    dsimp only
    split_ifs <;> exact ⟨h,trivial⟩
  | claiming =>
    dsimp only
    split_ifs with hfound
    · exact ⟨h,trivial⟩
    · rw [Bool.not_eq_true,Option.isSome_eq_false_iff,Option.isNone_iff_eq_none] at hfound
      exact ⟨h.claim hfound now,_,List.getElem?_concat_length,⟨rfl,rfl⟩,rfl⟩
  | handling => exact ⟨h,handleExisting_backed h⟩
  | baseline =>
    rw [hphase] at hbacked
    exact executeBaseline_sound h hbacked
  | finalizing requestId organizationId =>
    rw [hphase] at hbacked
    obtain ⟨row,hrow,hclaims,hlink⟩ := hbacked
    have hformed := h.formed requestId row hrow
    refine ⟨h.rewrite hrow (fun _ => rfl) (fun _ => rfl) (fun _ => rfl) hlink.symm ?_,?_⟩
    · exact ⟨hformed.payload,hformed.key,fun _ => rfl⟩
    · exact ⟨requestId,RequestRow.complete now organizationId row,by simp [hrow],
        ⟨hclaims.1,hclaims.2⟩,rfl⟩
  | ended =>
    rw [hphase] at hbacked
    exact ⟨h,hbacked⟩

theorem Sound.enter (h : Sound w) (hc : w.calls[i]? = some c) {phase : Phase}
    (hbacked : w.Backed c phase) : Sound (w.enter i phase) := by
  refine ⟨h.keys,h.formed,h.slugs,h.created,h.links,?_⟩
  refine Batch.forall_modify hc ?_ h.calls
  cases phase with
  | ended answer => cases answer <;> exact hbacked
  | _ => exact hbacked

theorem advance_cases (staleSeconds : ℤ) (w : World) (i : ℕ) (now : ℤ) (reply : Reply) :
    w.advanceStep staleSeconds i now reply = w ∨
      ∃ c, w.calls[i]? = some c ∧ (∀ answer, c.phase ≠ .ended answer) ∧
        (reply.commits = false ∧
            w.advanceStep staleSeconds i now reply = w.enter i (.ended (.error .other)) ∨
          reply.commits ∧ ∃ phase,
            w.advanceStep staleSeconds i now reply =
              (w.transaction staleSeconds c now).1.enter i phase ∧
            (phase = (w.transaction staleSeconds c now).2 ∨ phase = .ended (.error .other))) := by
  unfold advanceStep
  cases hc : w.calls[i]? with
  | none => exact .inl rfl
  | some c =>
    dsimp only
    split
    · exact .inl rfl
    · rename_i hlive
      exact .inr ⟨c,rfl,hlive,.inr ⟨rfl,_,rfl,.inl rfl⟩⟩
    · rename_i hlive
      exact .inr ⟨c,rfl,hlive,.inr ⟨rfl,_,rfl,.inr rfl⟩⟩
    · rename_i hlive
      exact .inr ⟨c,rfl,hlive,.inl ⟨rfl,rfl⟩⟩

theorem step_sound (staleSeconds : ℤ) (w : World) (a : Action) (h : Sound w) :
    Sound (w.step staleSeconds a) := by
  cases a with
  | provision =>
    refine ⟨h.keys,h.formed,h.slugs,h.created,h.links,?_⟩
    refine Batch.forall_concat ?_ h.calls
    dsimp only
    split_ifs <;> trivial
  | advance i now reply =>
    simp only [step]
    rcases advance_cases staleSeconds w i now reply with hw | ⟨c,hc,-,⟨-,hw⟩ | ⟨-,_,hw,hphase⟩⟩
    · rw [hw]
      exact h
    · rw [hw]
      exact h.enter hc trivial
    · obtain ⟨hsound,hbacked⟩ := transaction_sound staleSeconds now h hc
      rw [← transaction_calls staleSeconds w c now] at hc
      rw [hw]
      rcases hphase with rfl | rfl
      · exact hsound.enter hc hbacked
      · exact hsound.enter hc trivial
  | createCoreRecord =>
    simp only [step,createCoreRecordStep]
    split_ifs with htaken
    · exact h
    · rw [Bool.not_eq_true] at htaken
      refine ⟨h.keys,h.formed,slugs_append h.slugs htaken rfl,?_,?_,h.calls⟩
      · intro n o j ho hj
        rcases Batch.concat_cases ho with ⟨-,rfl⟩ | ho
        · cases hj
        · exact h.created n o j ho hj
      · intro j r n hr hn
        obtain ⟨o,ho,hfor⟩ := h.links j r n hr hn
        have hlt := (List.getElem?_eq_some_iff.mp ho).1
        exact ⟨o,by rw [List.getElem?_append_left hlt,ho],hfor⟩
  | setActiveUsers | setOwnerRole => exact ⟨h.keys,h.formed,h.slugs,h.created,h.links,h.calls⟩

end World

end NexusAi.Provisioning
