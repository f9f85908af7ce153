import NexusAi.Lib.Batch
import NexusAi.Messaging.System

/-!
# One send for each key

The call whose insert wins owns the key for good. Every other call with the key
is turned away before it queues anything. While the owner is under way the claim
is pending, and only the owner writes it, so that whoever returns a message
returns the one that the owner's send produced.
-/

namespace NexusAi.Messaging

namespace CallPhase

def early : CallPhase → Bool
  | .checked | .losing | .closed _ => true
  | _ => false

/-- The call has not got to its claim, or ended otherwise than by an answer. -/
def unanswered : CallPhase → Bool
  | .checked | .closed (.refused _) | .closed (.aborted _) => true
  | _ => false

def ended : CallPhase → Bool
  | .closed _ => true
  | _ => false

def persisted : CallPhase → Bool
  | .checked | .losing | .owner => false
  | _ => true

def late : CallPhase → Bool
  | .checked | .losing | .owner | .queued _ => false
  | _ => true

def called : CallPhase → Bool
  | .accepted _ _ _ | .refused _ _ | .marked _ | .condemned _ _ => true
  | _ => false

def message : CallPhase → Option MessageRow
  | .queued m | .accepted m _ _ | .refused m _ | .marked m | .condemned m _ => some m
  | _ => none

end CallPhase

def Call.has (c : Call) (accountId : ℕ) (key : String) : Prop :=
  c.request.accountId = accountId ∧ c.request.idempotencyKey = some key

theorem Call.not_has {c : Call} (h : c.request.idempotencyKey = none) (a : ℕ) (k : String) :
    ¬ c.has a k := by
  rintro ⟨-,hk⟩
  rw [h] at hk
  cases hk

instance (c : Call) (accountId : ℕ) (key : String) : Decidable (c.has accountId key) :=
  inferInstanceAs (Decidable (_ ∧ _))

namespace World

/-- A call that does not own the key it names: it has found the claim of another
one and gives the answer that this claim holds for it. -/
def Turned (row : Option KeyRow) (request : SendMessageRequest) (phase : CallPhase) : Prop :=
  phase.unanswered ∨ ∃ r, row = some r ∧ (phase = .losing ∨
    ∃ existing : KeyRow, existing.requestFingerprint = r.requestFingerprint ∧
      phase = .closed (replayOrRaise existing (sendFingerprint request)))

theorem Turned.early {row : Option KeyRow} {request : SendMessageRequest} {phase : CallPhase}
    (h : Turned row request phase) : phase.early := by
  rcases h with h | ⟨r,-,rfl | ⟨_,-,rfl⟩⟩
  · revert h
    cases phase <;> simp [CallPhase.unanswered,CallPhase.early]
  · rfl
  · rfl

theorem Turned.rewritten {row row' : Option KeyRow} {request : SendMessageRequest}
    {phase : CallPhase} (h : Turned row request phase)
    (hrow : ∀ r, row = some r → ∃ r', row' = some r' ∧
      r'.requestFingerprint = r.requestFingerprint) : Turned row' request phase := by
  rcases h with h | ⟨r,hr,hphase⟩
  · exact .inl h
  · obtain ⟨r',hr',hprint⟩ := hrow r hr
    exact .inr ⟨r',hr',by rw [hprint]; exact hphase⟩

def origins (w : World) : List (ℕ × ℕ × Option String) := w.messages.map MessageRow.origin

def keyOf (w : World) (accountId : ℕ) (key : String) : Option KeyRow :=
  Table.find KeyRow.identity (accountId,key) w.keys

/-- What ties the calls to the claims and the messages. -/
structure Sends (w : World) : Prop where
  own : ∀ (i : ℕ) c a k, w.calls[i]? = some c → c.isOwner → c.has a k →
    ∃ row, w.keyOf a k = some row ∧ row.requestFingerprint = sendFingerprint c.request ∧
      (c.phase.ended = false → row.result = none)
  sole : ∀ (i j : ℕ) c d a k, w.calls[i]? = some c → w.calls[j]? = some d → c.isOwner →
    d.isOwner → c.has a k → d.has a k → i = j
  turned : ∀ (i : ℕ) c a k, w.calls[i]? = some c → c.isOwner = false → c.has a k →
    Turned (w.keyOf a k) c.request c.phase
  once : w.provided.Nodup
  late : ∀ i ∈ w.provided, ∃ c, w.calls[i]? = some c ∧ c.phase.late ∧
    ∀ a k, c.has a k → c.isOwner
  called : ∀ (i : ℕ) c, w.calls[i]? = some c → c.phase.called → i ∈ w.provided
  carried : ∀ (i : ℕ) c m, w.calls[i]? = some c → c.phase.message = some m → m.origin ∈ w.origins ∧
    m.origin.2 = (c.request.accountId,c.request.idempotencyKey)
  owned : ∀ t ∈ w.origins, ∀ k, t.2.2 = some k → ∃ (i : ℕ) (c : Call), w.calls[i]? = some c ∧
    c.isOwner ∧ c.has t.2.1 k ∧ c.phase.persisted
  single : ∀ t ∈ w.origins, ∀ t' ∈ w.origins, t.2 = t'.2 → t.2.2 ≠ none → t = t'
  numbered : w.origins.map Prod.fst = List.range w.origins.length
  result : ∀ a k row m, w.keyOf a k = some row → row.result = some m →
    row.status = .completed ∧ m.origin ∈ w.origins ∧ m.origin.2 = (a,some k) ∧
      ∃ i ∈ w.provided, ∃ c, w.calls[i]? = some c ∧ c.has a k
  returned : ∀ (i : ℕ) c m a k, w.calls[i]? = some c → c.phase = .closed (.returned m) → c.has a k →
    ∃ row, w.keyOf a k = some row ∧ row.result = some m

section Steps

variable {w w' : World} {i : ℕ} {c : Call}

theorem enter_calls_self {phase : CallPhase} (hi : w.calls[i]? = some c) (j : ℕ) :
    (w.enter i phase).calls[j]? = if j = i then some { c with phase := phase } else w.calls[j]? :=
  Batch.modify_at hi _ j

theorem keyOf_eq (h : w'.keys = w.keys) : w'.keyOf = w.keyOf := by
  unfold keyOf
  rw [h]

/-- What a call has to do with the claims and the messages. -/
structure Fits (w : World) (i : ℕ) (c : Call) : Prop where
  own : ∀ a k, c.isOwner → c.has a k → ∃ row, w.keyOf a k = some row ∧
    row.requestFingerprint = sendFingerprint c.request ∧
      (c.phase.ended = false → row.result = none)
  turned : ∀ a k, c.isOwner = false → c.has a k → Turned (w.keyOf a k) c.request c.phase
  called : c.phase.called → i ∈ w.provided
  carried : ∀ m, c.phase.message = some m → m.origin ∈ w.origins ∧
    m.origin.2 = (c.request.accountId,c.request.idempotencyKey)
  returned : ∀ m a k, c.phase = .closed (.returned m) → c.has a k →
    ∃ row, w.keyOf a k = some row ∧ row.result = some m

/-- What a step of a call leaves: claims stay, and one is written only by its owner and while
it is pending. -/
structure Leaves (w : World) (c : Call) (w' : World) : Prop where
  rows : ∀ a k row, w.keyOf a k = some row → ∃ row', w'.keyOf a k = some row' ∧
    row'.requestFingerprint = row.requestFingerprint ∧
      (row' = row ∨ c.isOwner ∧ c.has a k ∧ row.result = none)
  origins : ∀ t ∈ w.origins, t ∈ w'.origins
  provided : ∀ j ∈ w.provided, j ∈ w'.provided

/-- What a call that is not over needs for its next phase. -/
structure Advance (w w' : World) (i : ℕ) (c : Call) (phase : CallPhase) : Prop where
  provided : w'.provided = w.provided ∨ w'.provided = i::w.provided ∧
    c.phase.late = false ∧ phase.late ∧ ∀ a k, c.has a k → c.isOwner
  opened : c.phase.ended = false
  turned : ∀ a k, c.isOwner = false → c.has a k → Turned (w.keyOf a k) c.request phase
  late : c.phase.late → phase.late
  persisted : c.phase.persisted → phase.persisted
  called : phase.called → i ∈ w'.provided
  carried : ∀ m, phase.message = some m → m.origin ∈ w'.origins ∧
    m.origin.2 = (c.request.accountId,c.request.idempotencyKey)
  returned : ∀ m a k, phase = .closed (.returned m) → c.has a k →
    ∃ row, w.keyOf a k = some row ∧ row.result = some m

theorem Leaves.of_keys (hkeys : w'.keys = w.keys) (horigins : ∀ t ∈ w.origins, t ∈ w'.origins)
    (hprovided : ∀ j ∈ w.provided, j ∈ w'.provided) : Leaves w c w' :=
  ⟨fun _ _ row hrow => ⟨row,by rw [keyOf_eq hkeys,hrow],rfl,.inl rfl⟩,horigins,hprovided⟩

section

variable (hw : w.Sends) (hi : w.calls[i]? = some c)

include hw hi

theorem Sends.others (hl : Leaves w c w') {j : ℕ} {d : Call} (hj : j ≠ i)
    (hd : w.calls[j]? = some d) : w'.Fits j d where
  own a k hown hk := by
    obtain ⟨row,hrow,hprint,hpending⟩ := hw.own j d a k hd hown hk
    obtain ⟨row',hrow',hprint',hwritten⟩ := hl.rows a k row hrow
    refine ⟨row',hrow',hprint'.trans hprint,fun hopen => ?_⟩
    rcases hwritten with rfl | ⟨hcown,hck,-⟩
    · exact hpending hopen
    · exact absurd (hw.sole j i d c a k hd hi hown hcown hk hck) hj
  turned a k hown hk := (hw.turned j d a k hd hown hk).rewritten fun r hr =>
    (hl.rows a k r hr).imp fun _ h => ⟨h.1,h.2.1⟩
  called h := hl.provided j (hw.called j d hd h)
  carried m hm := (hw.carried j d m hd hm).imp_left (hl.origins _)
  returned m a k hphase hk := by
    obtain ⟨row,hrow,hresult⟩ := hw.returned j d m a k hd hphase hk
    obtain ⟨row',hrow',-,rfl | ⟨-,-,hnone⟩⟩ := hl.rows a k row hrow
    · exact ⟨row',hrow',hresult⟩
    · rw [hnone] at hresult
      cases hresult

/-- One call goes on, with its request unchanged. -/
theorem Sends.changed (hl : Leaves w c w') {c' : Call} (hreq : c'.request = c.request)
    (hcalls : ∀ j, w'.calls[j]? = if j = i then some c' else w.calls[j]?) (hfits : w'.Fits i c')
    (hadded : ∀ t ∈ w'.origins, t ∈ w.origins ∨ ∀ k, t.2.2 = some k → c'.isOwner ∧
      c'.has t.2.1 k ∧ c'.phase.persisted)
    (hsingle : ∀ t ∈ w'.origins, ∀ t' ∈ w'.origins, t.2 = t'.2 → t.2.2 ≠ none → t = t')
    (hnumbered : w'.origins.map Prod.fst = List.range w'.origins.length)
    (hprovided : w'.provided = w.provided ∨ w'.provided = i::w.provided ∧
      c.phase.late = false ∧ c'.phase.late ∧ ∀ a k, c.has a k → c'.isOwner)
    (hkeeps : c.isOwner → c'.isOwner)
    (hclaims : c'.isOwner → c.isOwner ∨ ∀ a k, c.has a k → w.keyOf a k = none)
    (hlate : c.phase.late → c'.phase.late)
    (hpersisted : c.phase.persisted → c'.phase.persisted)
    (hresult : ∀ a k row m, w'.keyOf a k = some row → row.result = some m →
      w.keyOf a k = some row ∨ row.status = .completed ∧ m.origin ∈ w'.origins ∧
        m.origin.2 = (a,some k) ∧ i ∈ w'.provided ∧ c.has a k) : w'.Sends := by
  have hhas : ∀ a k, c'.has a k ↔ c.has a k := by
    intro a k
    unfold Call.has
    rw [hreq]
  have hback : ∀ {j : ℕ} {d : Call}, w'.calls[j]? = some d →
      j = i ∧ d = c' ∨ j ≠ i ∧ w.calls[j]? = some d := by
    intro j d hd
    rw [hcalls] at hd
    split_ifs at hd with hj
    · exact .inl ⟨hj,(Option.some.inj hd).symm⟩
    · exact .inr ⟨hj,hd⟩
  have hall : ∀ j d, w'.calls[j]? = some d → w'.Fits j d := by
    intro j d hd
    rcases hback hd with ⟨rfl,rfl⟩ | ⟨hj,hd⟩
    · exact hfits
    · exact hw.others hi hl hj hd
  -- where a call stood there is one with its request, its key and its progress
  have hplace : ∀ {j : ℕ} {d : Call}, w.calls[j]? = some d → ∃ d', w'.calls[j]? = some d' ∧
      (∀ a k, d'.has a k ↔ d.has a k) ∧ (d.isOwner → d'.isOwner) ∧
        (d.phase.late → d'.phase.late) ∧
          (d.phase.persisted → d'.phase.persisted) := by
    intro j d hd
    rw [hcalls]
    split_ifs with hj
    · subst hj
      obtain rfl := Option.some.inj (hd.symm.trans hi)
      exact ⟨c',rfl,hhas,hkeeps,hlate,hpersisted⟩
    · exact ⟨d,hd,fun _ _ => Iff.rfl,id,id,id⟩
  have hfree : ∀ {j : ℕ} {d : Call} {a : ℕ} {k : String}, w.calls[j]? = some d →
      d.isOwner → d.has a k → c'.isOwner → c.has a k → j = i := by
    intro j d a k hd hown hdk hcown hck
    rcases hclaims hcown with hcown | hnone
    · exact hw.sole j i d c a k hd hi hown hcown hdk hck
    · obtain ⟨row,hrow,-⟩ := hw.own j d a k hd hown hdk
      rw [hnone a k hck] at hrow
      cases hrow
  refine ⟨fun j d a k hd => (hall j d hd).own a k,?_,fun j d a k hd => (hall j d hd).turned a k,
    ?_,?_,fun j d hd => (hall j d hd).called,fun j d m hd => (hall j d hd).carried m,?_,hsingle,
    hnumbered,?_,fun j d m a k hd => (hall j d hd).returned m a k⟩
  · intro j l d e a k hd he hdown heown hdk hek
    rcases hback hd with ⟨rfl,rfl⟩ | ⟨-,hd⟩ <;> rcases hback he with ⟨rfl,rfl⟩ | ⟨-,he⟩
    · rfl
    · exact (hfree he heown hek hdown ((hhas a k).mp hdk)).symm
    · exact hfree hd hdown hdk heown ((hhas a k).mp hek)
    · exact hw.sole j l d e a k hd he hdown heown hdk hek
  · rcases hprovided with hsame | ⟨hcons,hfresh,-⟩
    · rw [hsame]
      exact hw.once
    · rw [hcons]
      refine List.nodup_cons.mpr ⟨fun hmem => ?_,hw.once⟩
      obtain ⟨_,hc₀,hlate₀,-⟩ := hw.late i hmem
      rw [Option.some.inj (hc₀.symm.trans hi),hfresh] at hlate₀
      cases hlate₀
  · have hold : ∀ j ∈ w.provided, ∃ d, w'.calls[j]? = some d ∧ d.phase.late ∧
        ∀ a k, d.has a k → d.isOwner := by
      intro j hj
      obtain ⟨d,hd,hdlate,hdown⟩ := hw.late j hj
      obtain ⟨d',hd',hdhas,hdkeeps,hdlate',-⟩ := hplace hd
      exact ⟨d',hd',hdlate' hdlate,fun a k hk => hdkeeps (hdown a k ((hdhas a k).mp hk))⟩
    rcases hprovided with hsame | ⟨hcons,-,hnew,howner⟩
    · rw [hsame]
      exact hold
    · rw [hcons]
      intro j hj
      rcases List.mem_cons.mp hj with rfl | hj
      · exact ⟨c',by rw [hcalls,if_pos rfl],hnew,fun a k hk => howner a k ((hhas a k).mp hk)⟩
      · exact hold j hj
  · intro t ht k hk
    rcases hadded t ht with hold | hnew
    · obtain ⟨j,d,hd,hown,hdk,hpersist⟩ := hw.owned t hold k hk
      obtain ⟨d',hd',hdhas,hdkeeps,-,hdpersisted⟩ := hplace hd
      exact ⟨j,d',hd',hdkeeps hown,(hdhas _ k).mpr hdk,hdpersisted hpersist⟩
    · exact ⟨i,c',by rw [hcalls,if_pos rfl],hnew k hk⟩
  · intro a k row m hrow hm
    rcases hresult a k row m hrow hm with hold | ⟨hstatus,horigin,hkeyed,hmem,hck⟩
    · obtain ⟨hstatus,horigin,hkeyed,j,hj,d,hd,hdk⟩ := hw.result a k row m hold hm
      obtain ⟨d',hd',hdhas,-⟩ := hplace hd
      exact ⟨hstatus,hl.origins _ horigin,hkeyed,j,hl.provided j hj,d',hd',(hdhas a k).mpr hdk⟩
    · exact ⟨hstatus,horigin,hkeyed,i,hmem,c',by rw [hcalls,if_pos rfl],(hhas a k).mpr hck⟩

/-- A call that is not over enters a phase, and no claim is written. -/
theorem Sends.moved (phase : CallPhase)
    (hcalls : ∀ j, w'.calls[j]? = if j = i then some { c with phase := phase } else w.calls[j]?)
    (hkeys : w'.keys = w.keys) (hkept : ∀ t ∈ w.origins, t ∈ w'.origins)
    (hadded : ∀ t ∈ w'.origins, t ∈ w.origins ∨ ∀ k, t.2.2 = some k → c.isOwner ∧
      c.has t.2.1 k ∧ phase.persisted)
    (hsingle : ∀ t ∈ w'.origins, ∀ t' ∈ w'.origins, t.2 = t'.2 → t.2.2 ≠ none → t = t')
    (hnumbered : w'.origins.map Prod.fst = List.range w'.origins.length)
    (ha : Advance w w' i c phase) : w'.Sends := by
  have hkey := keyOf_eq hkeys
  have hl : Leaves w c w' := .of_keys hkeys hkept (by
    rcases ha.provided with hsame | ⟨hcons,-⟩
    · exact fun j hj => hsame ▸ hj
    · exact fun j hj => hcons ▸ List.mem_cons_of_mem _ hj)
  have hreq : ({ c with phase := phase } : Call).request = c.request := rfl
  refine hw.changed hi hl hreq hcalls ⟨?_,?_,ha.called,ha.carried,?_⟩ hadded hsingle hnumbered
    ha.provided id .inl ha.late ha.persisted fun a k row m hrow _ => .inl (hkey ▸ hrow)
  · intro a k hown hk
    obtain ⟨row,hrow,hprint,hpending⟩ := hw.own i c a k hi hown hk
    exact ⟨row,by rw [hkey,hrow],hprint,fun _ => hpending ha.opened⟩
  · rw [hkey]
    exact ha.turned
  · rw [hkey]
    exact ha.returned

theorem Sends.entered {phase : CallPhase} (hcalls : w'.calls = (w.enter i phase).calls)
    (hkeys : w'.keys = w.keys) (horigins : w'.origins = w.origins)
    (ha : Advance w w' i c phase) : w'.Sends :=
  hw.moved hi _ (fun j => by rw [hcalls,enter_calls_self hi]) hkeys (fun t ht => horigins ▸ ht)
    (fun t ht => .inl (horigins ▸ ht)) (by rw [horigins]; exact hw.single)
    (by rw [horigins]; exact hw.numbered) ha

theorem Sends.closed {outcome : Outcome} (hopen : c.phase.ended = false)
    (hturned : ∀ a k, c.isOwner = false → c.has a k →
      Turned (w.keyOf a k) c.request (.closed outcome))
    (hreturned : ∀ m a k, outcome = .returned m → c.has a k →
      ∃ row, w.keyOf a k = some row ∧ row.result = some m) :
    (w.enter i (.closed outcome)).Sends := by
  refine hw.entered hi rfl rfl rfl ⟨.inl rfl,hopen,hturned,fun _ => rfl,fun _ => rfl,
    by simp [CallPhase.called],by simp [CallPhase.message],?_⟩
  intro m a k hphase
  exact hreturned m a k (CallPhase.closed.inj hphase)

end

theorem Sends.same (hw : w.Sends) (hcalls : w'.calls = w.calls) (hkeys : w'.keys = w.keys)
    (horigins : w'.origins = w.origins) (hprovided : w'.provided = w.provided) : w'.Sends := by
  constructor <;> simp only [hcalls,keyOf_eq hkeys,horigins,hprovided]
  exacts [hw.own,hw.sole,hw.turned,hw.once,hw.late,hw.called,hw.carried,hw.owned,hw.single,
    hw.numbered,hw.result,hw.returned]

theorem Sends.begun (hw : w.Sends) {d : Call} (hown : d.isOwner = false)
    (hphase : d.phase = .checked ∨ ∃ code, d.phase = .closed (.refused code)) :
    { w with calls := w.calls++[d] }.Sends := by
  have hback : ∀ {j : ℕ} {e : Call}, (w.calls++[d])[j]? = some e → w.calls[j]? = some e ∨ e = d := by
    intro j e he
    rcases Batch.concat_cases he with ⟨-,rfl⟩ | he
    · exact .inr rfl
    · exact .inl he
  have hkeep : ∀ {j : ℕ} {e : Call}, w.calls[j]? = some e → (w.calls++[d])[j]? = some e := by
    intro j e he
    rw [List.getElem?_append_left (List.getElem?_eq_some_iff.mp he).1,he]
  have hall : ∀ j e, (w.calls++[d])[j]? = some e → Fits { w with calls := w.calls++[d] } j e := by
    intro j e he
    rcases hback he with he | rfl
    · exact ⟨fun a k => hw.own j e a k he,fun a k => hw.turned j e a k he,hw.called j e he,
        fun m => hw.carried j e m he,fun m a k => hw.returned j e m a k he⟩
    · rcases hphase with hphase | ⟨_,hphase⟩ <;> constructor <;>
        simp [hphase,hown,Turned,CallPhase.unanswered,CallPhase.called,CallPhase.message]
  refine ⟨fun j e a k he => (hall j e he).own a k,?_,fun j e a k he => (hall j e he).turned a k,
    hw.once,?_,fun j e he => (hall j e he).called,fun j e m he => (hall j e he).carried m,?_,
    hw.single,hw.numbered,?_,fun j e m a k he => (hall j e he).returned m a k⟩
  · intro j l e f a k he hf heown hfown
    rcases hback he with he | rfl
    · rcases hback hf with hf | rfl
      · exact hw.sole j l e f a k he hf heown hfown
      · rw [hown] at hfown
        cases hfown
    · rw [hown] at heown
      cases heown
  · intro j hj
    obtain ⟨e,he,hrest⟩ := hw.late j hj
    exact ⟨e,hkeep he,hrest⟩
  · intro t ht k hk
    obtain ⟨j,e,he,hrest⟩ := hw.owned t ht k hk
    exact ⟨j,e,hkeep he,hrest⟩
  · intro a k row m hrow hm
    obtain ⟨hstatus,horigin,hkeyed,j,hj,e,he,hek⟩ := hw.result a k row m hrow hm
    exact ⟨hstatus,horigin,hkeyed,j,hj,e,hkeep he,hek⟩

theorem Sends.owner (hw : w.Sends) (hi : w.calls[i]? = some c) (hphase : c.phase.early = false)
    (a : ℕ) (k : String) (hk : c.has a k) : c.isOwner := by
  by_contra hown
  rw [(hw.turned i c a k hi (Bool.eq_false_of_not_eq_true hown) hk).early] at hphase
  cases hphase

theorem Sends.queue (hw : w.Sends) {request : SendMessageRequest} {isOwner : Bool}
    (hi : w.calls[i]? = some ⟨request,isOwner,.owner⟩) : (w.persistStep i).Sends := by
  have howner := hw.owner hi rfl
  have hstep : w.persistStep i = { w with
      messages := w.messages++[MessageRow.queued w.messages.length request] }.enter i
        (.queued (MessageRow.queued w.messages.length request)) := by
    simp only [persistStep,hi]
  have horigins : (w.persistStep i).origins =
      w.origins++[(w.messages.length,request.accountId,request.idempotencyKey)] := by
    rw [hstep]
    simp [origins,enter,MessageRow.origin,MessageRow.queued]
  -- a message with the call's key would be this call's own, and it has queued none
  have hfresh : ∀ t ∈ w.origins, t.2 = (request.accountId,request.idempotencyKey) →
      t.2.2 ≠ none → False := by
    intro t ht hsame hkeyed
    obtain ⟨k,hk⟩ := Option.ne_none_iff_exists'.mp hkeyed
    obtain ⟨j,d,hd,hdown,hdk,hpersist⟩ := hw.owned t ht k hk
    have hhas : Call.has ⟨request,isOwner,.owner⟩ t.2.1 k :=
      ⟨by rw [hsame],by rw [← hk,hsame]⟩
    obtain rfl := hw.sole j i d _ t.2.1 k hd hi hdown (howner _ k hhas) hdk hhas
    rw [Option.some.inj (hd.symm.trans hi)] at hpersist
    cases hpersist
  refine hw.moved hi (.queued (MessageRow.queued w.messages.length request)) ?_ ?_ ?_ ?_ ?_ ?_
    ⟨.inl ?_,rfl,?_,?_,fun _ => rfl,?_,?_,?_⟩
  · intro j
    rw [hstep]
    exact enter_calls_self (w := { w with
      messages := w.messages++[MessageRow.queued w.messages.length request] }) hi j
  · rw [hstep]
    rfl
  · intro t ht
    rw [horigins]
    exact List.mem_append_left _ ht
  · intro t ht
    rw [horigins] at ht
    rcases List.mem_append.mp ht with hold | hnew
    · exact .inl hold
    · right
      intro k hk
      rw [List.mem_singleton.mp hnew] at hk ⊢
      exact ⟨howner _ k ⟨rfl,hk⟩,⟨rfl,hk⟩,rfl⟩
  · intro t ht t' ht' hsame hkeyed
    rw [horigins] at ht ht'
    rcases List.mem_append.mp ht with hold | hnew <;> rcases List.mem_append.mp ht' with hold' | hnew'
    · exact hw.single t hold t' hold' hsame hkeyed
    · rw [List.mem_singleton.mp hnew'] at hsame
      exact (hfresh t hold hsame hkeyed).elim
    · rw [List.mem_singleton.mp hnew] at hsame hkeyed
      exact (hfresh t' hold' hsame.symm (by rw [← hsame]; exact hkeyed)).elim
    · rw [List.mem_singleton.mp hnew,List.mem_singleton.mp hnew']
  · have hlength : w.messages.length = w.origins.length := by simp [origins]
    rw [horigins,List.map_append,hw.numbered,List.length_append,List.length_singleton,
      List.range_succ,hlength]
    rfl
  · rw [hstep]
    rfl
  · intro a k hown hk
    rw [howner a k hk] at hown
    cases hown
  · intro h
    cases h
  · intro h
    cases h
  · intro m hm
    obtain rfl := Option.some.inj hm
    rw [horigins]
    exact ⟨List.mem_append_right _ (List.mem_singleton_self _),rfl⟩
  · intro m a k hphase
    cases hphase

end Steps

end World

end NexusAi.Messaging
