import NexusAi.Messaging.Progress

/-!
# Delivery states move forward

A callback folds its status into the row that it has read and writes the result
at its commit, with nothing that holds the row in between. Where no other
callback has changed the row since, the stored state only moves up, its ends stay
as they are, and a reported end is reached.
-/

namespace NexusAi.Messaging

namespace World

/-- A fold that writes finds the message in the state in which it was read. -/
def fresh (w : World) : Action → Bool
  | .fold j _ => (w.requests[j]?).all fun r => match r.phase with
    | .folding seen => r.current.all fun status =>
      !(applyCallback seen.status status.status).advanced ||
        w.messages.all fun row => row.id = seen.id → row.status = seen.status
    | _ => true
  | _ => true

/-- No message is lost or goes back, and none leaves the end of its states. -/
def Forward (w w' : World) : Prop :=
  ∀ r ∈ w.messages, ∃ r' ∈ w'.messages, r'.id = r.id ∧ r.status.rank ≤ r'.status.rank ∧
    (r.status.terminal → r'.status = r.status)

theorem Forward.refl (w : World) : Forward w w :=
  fun r hr => ⟨r,hr,rfl,le_rfl,fun _ => rfl⟩

theorem Forward.trans {u v w : World} (h : Forward u v) (h' : Forward v w) : Forward u w := by
  intro r hr
  obtain ⟨r',hr',hid,hrank,hends⟩ := h r hr
  obtain ⟨r'',hr'',hid',hrank',hends'⟩ := h' r' hr'
  refine ⟨r'',hr'',hid'.trans hid,hrank.trans hrank',fun hterminal => ?_⟩
  have hstatus := hends hterminal
  rw [hends' (hstatus ▸ hterminal),hstatus]

/-- The message is at the end of its states. -/
def Ended (w : World) (id : ℕ) : Prop := ∀ row ∈ w.messages, row.id = id → row.status.terminal

/-- Every fold that reported the end of a message's states has ended them. -/
def Settled (w : World) : Prop := ∀ f ∈ w.folds, f.reported.terminal → w.Ended f.messageId

/-- A message that was read at the end of its states is there. -/
def ReadEnded (w : World) : Prop :=
  ∀ r ∈ w.requests, ∀ seen, r.phase = .folding seen → seen.status.terminal → w.Ended seen.id

section Steps

variable {w w' : World}

theorem forward_of_same (hmessages : w'.messages = w.messages) : Forward w w' :=
  fun r hr => ⟨r,hmessages ▸ hr,rfl,le_rfl,fun _ => rfl⟩

theorem forward_mark (hs : w.Sends) (hw : w.Tracked) {i : ℕ} {c : Call} {m : MessageRow}
    {update : MessageRow → MessageRow} (hi : w.calls[i]? = some c)
    (hm : c.phase.unmarked = some m) (hmarks : Marks w m update)
    (hmessages : w'.messages = Table.edit MessageRow.id [m.id] update w.messages) :
    Forward w w' := by
  intro r hr
  rw [hmessages]
  by_cases hid : r.id ∈ [m.id]
  · obtain ⟨r₀,hr₀,hid₀,-,hqueued,-⟩ := hw.unmarked i c m hi hm
    have hsame : r = r₀ :=
      Table.mem_unique hs.keyed hr hr₀ ((List.mem_singleton.mp hid).trans hid₀.symm)
    have hstatus : r.status = .queued := hsame ▸ hqueued
    refine ⟨update r,Table.mem_edit.mpr (.inl ⟨r,hr,hid,rfl⟩),?_⟩
    rw [hstatus]
    cases hmarks with
    | sent _ _ _ hupdate =>
      subst hupdate
      exact ⟨rfl,by simp [MessageRow.sentAs,MessageStatus.rank],fun h => by cases h⟩
    | failed _ _ hupdate =>
      subst hupdate
      exact ⟨rfl,by simp [MessageRow.failedWith,MessageStatus.rank],fun h => by cases h⟩
  · exact ⟨r,Table.mem_edit.mpr (.inr ⟨hr,hid⟩),rfl,le_rfl,fun _ => rfl⟩

theorem Forward.ended (h : Forward w w') (hs : w'.Sends) {id : ℕ} (hended : w.Ended id)
    {r : MessageRow} (hr : r ∈ w.messages) (hid : r.id = id) : w'.Ended id := by
  intro row hrow hid'
  obtain ⟨r',hr',hsame,-,hends⟩ := h r hr
  have hterminal := hended r hr hid
  rw [Table.mem_unique hs.keyed hrow hr' (hid'.trans (hsame.trans hid).symm),hends hterminal]
  exact hterminal

variable {j : ℕ} {now : ℤ} {r : Request} {seen row : MessageRow} {a : Action}
  {status : NormalizedStatus}

theorem fresh_fold (hfresh : w.fresh (.fold j now)) (hj : w.requests[j]? = some r)
    (hphase : r.phase = .folding seen) (hcurrent : r.current = some status)
    (hadvanced : (applyCallback seen.status status.status).advanced) (hrow : row ∈ w.messages)
    (hid : row.id = seen.id) : row.status = seen.status := by
  simp only [fresh,hj,Option.all_some,hphase,hcurrent,hadvanced,Bool.not_true,Bool.false_or,
    List.all_eq_true,decide_eq_true_eq] at hfresh
  exact hfresh row hrow hid

section

variable (hj : w.requests[j]? = some r) (hphase : r.phase = .folding seen)
  (hmessages : w'.messages = if (applyCallback seen.status status.status).advanced then
    Table.edit MessageRow.id [seen.id] (foldRow status
      (applyCallback seen.status status.status).status now seen) w.messages else w.messages)

include hj hphase hmessages

theorem forward_fold (hfresh : w.fresh (.fold j now)) (hcurrent : r.current = some status) :
    Forward w w' := by
  by_cases hadvanced : (applyCallback seen.status status.status).advanced
  · rw [if_pos hadvanced] at hmessages
    intro row hrow
    rw [hmessages]
    by_cases hid : row.id ∈ [seen.id]
    · have hstatus :=
        fresh_fold hfresh hj hphase hcurrent hadvanced hrow (List.mem_singleton.mp hid)
      refine ⟨_,Table.mem_edit.mpr (.inl ⟨row,hrow,hid,rfl⟩),foldRow_id _ _ _ _ _,?_,?_⟩
      · rw [foldRow_status,hstatus]
        exact applyCallback_rank _ _
      · intro hterminal
        rw [foldRow_status,hstatus]
        exact applyCallback_terminal (hstatus ▸ hterminal) _
    · exact ⟨row,Table.mem_edit.mpr (.inr ⟨hrow,hid⟩),rfl,le_rfl,fun _ => rfl⟩
  · rw [if_neg hadvanced] at hmessages
    exact forward_of_same hmessages

theorem ReadEnded.fold (hread : w.ReadEnded) (hreported : status.status.terminal) :
    w'.Ended seen.id := by
  have hends := applyCallback_ends seen.status hreported
  intro row hrow hid
  rw [hmessages] at hrow
  by_cases hadvanced : (applyCallback seen.status status.status).advanced
  · rw [if_pos hadvanced] at hrow
    rcases Table.mem_edit.mp hrow with ⟨_,-,-,rfl⟩ | ⟨-,hne⟩
    · rwa [foldRow_status]
    · exact absurd (List.mem_singleton.mpr hid) hne
  · rw [applyCallback_kept (eq_false_of_ne_true hadvanced)] at hends
    rw [if_neg hadvanced] at hrow
    exact hread r (List.mem_of_getElem? hj) seen hphase hends row hrow hid

end

theorem forward_moves (hs : w.Sends) (hw : w.Tracked) (hfresh : w.fresh a)
    (h : Moves w a w') : Forward w w' := by
  cases h with
  | quiet hmessages | request _ _ _ _ hmessages | receive _ _ hmessages =>
    exact forward_of_same hmessages
  | queue _ _ hmessages =>
    intro r hr
    exact ⟨r,hmessages ▸ List.mem_append_left _ hr,rfl,le_rfl,fun _ => rfl⟩
  | mark _ _ _ _ hi hm hmarks hmessages => exact forward_mark hs hw hi hm hmarks hmessages
  | fold _ _ _ _ _ ha hj hphase hcurrent _ hmessages =>
    exact forward_fold hj hphase hmessages (ha ▸ hfresh) hcurrent

section

variable (hs' : w'.Sends) (hw : w.Tracked) (hforward : Forward w w') (h : Moves w a w')

include hs' hw hforward h

theorem Settled.moved (hsettled : w.Settled) (hread : w.ReadEnded) : w'.Settled := by
  intro f hf hreported
  have hold : f ∈ w.folds → w'.Ended f.messageId := by
    intro hf
    obtain ⟨-,-,-,r,hr,hid,-⟩ := hw.folded f hf
    exact hforward.ended hs' (hsettled f hf hreported) hr hid
  cases h with
  | quiet _ _ hsame | queue _ _ _ _ hsame | mark _ _ _ _ _ _ _ _ _ hsame =>
    exact hold (hsame.folds ▸ hf)
  | request _ _ _ _ _ _ _ hfolds | receive _ _ _ _ _ hfolds => exact hold (hfolds ▸ hf)
  | fold _ _ _ _ _ _ hj hphase _ _ hmessages _ hfolds =>
    rw [hfolds] at hf
    rcases Table.mem_concat hf with hf | rfl
    · exact hold hf
    · exact ReadEnded.fold hj hphase hmessages hread hreported

theorem ReadEnded.moved (hs : w.Sends) (hread : w.ReadEnded) : w'.ReadEnded := by
  intro r' hr' seen hphase hterminal
  rcases hw.progress hs h r' hr' with ⟨-,hready⟩ | ⟨r,hr,hprogress⟩
  · rw [hready] at hphase
    cases hphase
  · have hold : r.phase = .folding seen → w'.Ended seen.id := by
      intro hfolding
      obtain ⟨_,-,row,hrow,hid,-⟩ := hw.seen r hr seen hfolding
      exact hforward.ended hs' (hread r hr seen hfolding hterminal) hrow hid
    cases hprogress with
    | same hsame => exact hold (hsame ▸ hphase)
    | dropped hdropped =>
      rw [hdropped] at hphase
      unfold Request.dropped at hphase
      split_ifs at hphase
      exact hold hphase
    | ended _ _ _ hended =>
      rw [hended] at hphase
      cases hphase
    | saw _ _ _ _ hsaw _ hseen =>
      subst hsaw
      cases hphase
      intro row hrow hid
      rwa [Table.mem_unique hs'.keyed hrow hseen hid]

end

end Steps

/-- The invariants of a run in which every fold that writes finds what it has read. -/
structure Ordered (w : World) : Prop where
  sends : w.Sends
  tracked : w.Tracked
  settled : w.Settled
  read : w.ReadEnded

theorem Ordered.step {w : World} (hw : w.Ordered) {a : Action} (hfresh : w.fresh a) :
    (w.step a).Ordered := by
  have hmoves := step_moves w a
  have hsends := hw.sends.step a
  have hforward := forward_moves hw.sends hw.tracked hfresh hmoves
  exact ⟨hsends,hw.tracked.moved hw.sends hmoves,
    hw.settled.moved hsends hw.tracked hforward hmoves hw.read,
    hw.read.moved hsends hw.tracked hforward hmoves hw.sends⟩

theorem ordered_initial : initial.Ordered where
  sends := sends_initial
  tracked := tracked_initial
  settled := by simp [Settled,initial]
  read := by simp [ReadEnded,initial]

theorem Tracked.processed {w : World} (hw : w.Tracked) {accountId : ℕ} {status : NormalizedStatus}
    (h : ∃ receipt ∈ w.receipts, receipt.identity = (accountId,statusEventId status)) :
    ∃ f ∈ w.folds, f.accountId = accountId ∧ f.reported = status.status ∧
      w.Named accountId status.providerMessageId f.messageId := by
  obtain ⟨receipt,hreceipt,hid⟩ := h
  obtain ⟨f,hf,haccount,hevent⟩ := hw.receipted receipt hreceipt
  obtain ⟨_,hother,hreported,hnamed⟩ := hw.folded f hf
  have hacc : receipt.accountId = accountId := congrArg Prod.fst hid
  have hev : receipt.eventId = statusEventId status := congrArg Prod.snd hid
  -- a linked message's id is short enough for the event id to name it
  obtain ⟨row,hrow,-,-,hlinked⟩ := id hnamed
  obtain ⟨hname,hsame⟩ := statusEventId_inj (hother.symm.trans (hevent.trans hev))
    (hw.short row hrow _ hlinked)
  rw [hname,haccount,hacc] at hnamed
  exact ⟨f,hf,haccount.trans hacc,hreported.trans hsame,hnamed⟩

theorem Ordered.ended {w : World} (hw : w.Ordered) {j n : ℕ} {r : Request}
    {status : NormalizedStatus} {outcome : FoldOutcome} (hj : w.requests[j]? = some r)
    (hstatus : r.statuses[n]? = some status) (hdone : r.done[n]? = some outcome)
    (hne : outcome ≠ .deferred) (hterminal : status.status.terminal) :
    ∃ row ∈ w.messages, row.accountId = r.accountId ∧
      row.providerMessageId = some status.providerMessageId ∧ row.status.terminal := by
  have hreceipt := hw.tracked.answered r (List.mem_of_getElem? hj) n status outcome hstatus hdone hne
  obtain ⟨f,hf,-,hreported,row,hrow,hid,haccount,hlinked⟩ := hw.tracked.processed hreceipt
  exact ⟨row,hrow,haccount,hlinked,hw.settled f hf (hreported ▸ hterminal) row hrow hid⟩

theorem exec_forward {w : World} (hw : w.Ordered) (as : List Action)
    (h : Run.Conforms step (fun w a => w.fresh a) as w) :
    Forward w (Run.exec step as w) := by
  have hboth := Run.exec_conforming step (fun w a => w.fresh a)
    (fun u => u.Ordered ∧ Forward w u) ?_ as w h ⟨hw,Forward.refl w⟩
  · exact hboth.2
  · intro u a hfresh hu
    exact ⟨hu.1.step hfresh,hu.2.trans
      (forward_moves hu.1.sends hu.1.tracked hfresh (step_moves u a))⟩

end World

/-- In a run in which every fold that writes finds what it has read, no stored state
goes back, READ and FAILED stay, and a message is READ or FAILED once a callback that
names it and reported one of them has been processed. -/
theorem status_forward (before after : List Action)
    (h : Run.Conforms World.step (fun w a => w.fresh a) (before++after) World.initial) :
    (∀ r ∈ (World.reach before).messages, ∃ r' ∈ (World.reach (before++after)).messages,
      r'.id = r.id ∧ r.status.rank ≤ r'.status.rank ∧
        (r.status = .read ∨ r.status = .failed → r'.status = r.status)) ∧
    (∀ (j n : ℕ) (r : Request) (status : NormalizedStatus) (outcome : FoldOutcome),
      (World.reach (before++after)).requests[j]? = some r → r.statuses[n]? = some status →
      r.done[n]? = some outcome → outcome ≠ .deferred →
      status.status = .read ∨ status.status = .failed →
      ∃ row ∈ (World.reach (before++after)).messages, row.accountId = r.accountId ∧
        row.providerMessageId = some status.providerMessageId ∧
        (row.status = .read ∨ row.status = .failed)) := by
  have hterminal : ∀ s : MessageStatus, s.terminal ↔ s = .read ∨ s = .failed := by
    intro s
    cases s <;> decide
  obtain ⟨hbefore,hafter⟩ := (Run.conforms_append _ _ _ _ _).mp h
  have hordered : ∀ as, Run.Conforms World.step (fun w a => w.fresh a) as World.initial →
      (World.reach as).Ordered := fun as hok => Run.exec_conforming World.step _ World.Ordered
    (fun w a hfresh hw => hw.step hfresh) as World.initial hok World.ordered_initial
  constructor
  · intro r hr
    have hforward := World.exec_forward (hordered before hbefore) after hafter
    obtain ⟨r',hr',hid,hrank,hends⟩ := hforward r hr
    refine ⟨r',?_,hid,hrank,fun hend => hends ((hterminal _).mpr hend)⟩
    rw [World.reach,Run.exec_append]
    exact hr'
  · intro j n r status outcome hj hstatus hdone hne hend
    obtain ⟨row,hrow,haccount,hlinked,hended⟩ :=
      (hordered _ h).ended hj hstatus hdone hne ((hterminal _).mpr hend)
    exact ⟨row,hrow,haccount,hlinked,(hterminal _).mp hended⟩

theorem delivered_mapped : ("delivered",MessageStatus.delivered) ∈ statusMap .whatsapp := by
  decide

theorem read_mapped : ("read",MessageStatus.read) ∈ statusMap .whatsapp := by
  decide

def sampleDelivered : NormalizedStatus :=
  ⟨.whatsapp,"p1","delivered",.delivered,some 20,none,delivered_mapped⟩

def sampleRead : NormalizedStatus := ⟨.whatsapp,"p1","read",.read,some 30,none,read_mapped⟩

/-- A message that has been sent, and two callbacks about it. -/
def calledBackRun : List Action :=
  [.send sampleRequest none,.claim 0,.persist 0,.provide 0 (.sent "p1" none),.mark 0 10,
    .finalize 0 true,.receive 1 [sampleDelivered],.receive 1 [sampleRead]]

/-- One after the other, the callbacks leave the message READ. -/
theorem serialRun_forward :
    (∀ r ∈ (World.reach calledBackRun).messages,
      ∃ r' ∈ (World.reach (calledBackRun++[.read 1,.fold 1 40,.read 0,.fold 0 41])).messages,
        r'.id = r.id ∧ r.status.rank ≤ r'.status.rank ∧
          (r.status = .read ∨ r.status = .failed → r'.status = r.status)) ∧
    (World.reach (calledBackRun++[.read 1,.fold 1 40,.read 0,.fold 0 41])).messages.map
      MessageRow.status = [.read] :=
  ⟨(status_forward calledBackRun [.read 1,.fold 1 40,.read 0,.fold 0 41]
    (by decide +kernel)).1,by decide +kernel⟩

/-- Both callbacks read the message as SENT. The one that reports DELIVERED commits
last and takes READ back. -/
theorem crossedRun_back :
    (World.reach (calledBackRun++[.read 0,.read 1,.fold 1 40])).messages.map MessageRow.status =
      [.read] ∧
    (World.reach (calledBackRun++[.read 0,.read 1,.fold 1 40,.fold 0 41])).messages.map
      MessageRow.status = [.delivered] ∧
    ((World.reach (calledBackRun++[.read 0,.read 1,.fold 1 40,.fold 0 41])).requests.map
      Request.answer) = [some (true,1,0),some (true,1,0)] := by
  decide +kernel

end NexusAi.Messaging
