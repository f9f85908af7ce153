import NexusAi.Otp.Commits

/-!
# A code is used once

Every step of every call keeps the rows and the calls in order. So one call at most
verifies a challenge, with the code it was issued with, the attempts stay within their
bound, no challenge leaves a final state, and a destination has one active challenge for
each purpose. A challenge becomes EXPIRED only when someone tries to verify it, so one that
nobody touches again is never purged.
-/

namespace NexusAi.Otp

section

variable {D : Type} [DecidableEq D] {service : Service D} {w : World D} {i : ℕ} {c : Call D}

namespace World

omit [DecidableEq D] in
theorem held_admitCall {request : Request} {p : Phase D} (hlock : p.lock = none) (j : ℕ) :
    (w.admitCall request p).held j = w.held j := by
  unfold held phase admitCall
  rcases Nat.lt_trichotomy j w.calls.length with hlt | rfl | hgt
  · rw [List.getElem?_append_left hlt]
  · rw [List.getElem?_concat_length,List.getElem?_eq_none le_rfl]
    simp [hlock]
  · rw [List.getElem?_eq_none (by simpa using hgt),List.getElem?_eq_none (Nat.le_of_lt hgt)]

theorem Sound.admits (h : w.Sound service) {request : Request} {p : Phase D}
    (hlock : p.lock = none) (hentry : p.entry = none)
    (hfits : Fits service w.rows w.calls.length ⟨request,p⟩)
    (hverified : ∀ id, p ≠ .closed (.verified id)) : (w.admitCall request p).Sound service := by
  constructor
  · exact h.keyed
  · exact h.origins
  · exact h.once
  · refine Batch.forall_concat (fun _ hmem => ?_) h.early
    obtain ⟨d,hd,hid⟩ := List.mem_map.mp hmem
    exact absurd (h.numbered d hd) (by rw [hid]; exact lt_irrefl _)
  · intro d hd
    have hlt := h.numbered d hd
    simp only [admitCall,List.length_append,List.length_singleton]
    omega
  · exact h.tried
  · exact Batch.forall_concat hfits h.fits
  · have hheld : (w.admitCall request p).held = w.held := funext (held_admitCall hlock)
    rw [hheld]
    exact h.sole
  · intro j l q r d e hjl hq hr hd he
    obtain ⟨a,ha,rfl⟩ := call_of_phase hq
    obtain ⟨b,hb,rfl⟩ := call_of_phase hr
    rcases Batch.concat_cases ha with ⟨-,rfl⟩ | ha
    · rw [hentry] at hd
      cases hd
    · rcases Batch.concat_cases hb with ⟨-,rfl⟩ | hb
      · rw [hentry] at he
        cases he
      · exact h.apart j l _ _ d e hjl (phase_of_call ha) (phase_of_call hb) hd he
  · exact h.single
  · intro j b id hb hp
    rcases Batch.concat_cases hb with ⟨-,rfl⟩ | hb
    · exact absurd hp (hverified id)
    · exact h.used j b id hb hp
  · intro j l a b id ha hb hpa hpb
    rcases Batch.concat_cases ha with ⟨-,rfl⟩ | ha
    · exact absurd hpa (hverified id)
    · rcases Batch.concat_cases hb with ⟨-,rfl⟩ | hb
      · exact absurd hpb (hverified id)
      · exact h.alone j l a b id ha hb hpa hpb

omit [DecidableEq D] in
theorem draftPhase_cases (service : Service D) (draft : Draft) :
    (draftPhase service draft).quiet ∧ (draftPhase service draft).count = none ∧
      ∀ d, (draftPhase service draft).draft = some d → d.id = draft.id := by
  unfold draftPhase
  split_ifs
  all_goals
    refine ⟨rfl,rfl,?_⟩
    rintro _ ⟨⟩
  all_goals rfl

theorem Sound.advanceStep (h : w.Sound service) (i : ℕ) (now : ℤ) :
    Moved service w (.advance i now) (w.advanceStep service i now) := by
  cases hi : w.calls[i]? with
  | none =>
    have hphase : w.phase i = none := by simp [phase,hi]
    unfold World.advanceStep
    rw [hphase]
    exact ⟨.idle,h⟩
  | some c =>
    unfold World.advanceStep
    rw [phase_of_call hi]
    cases hp : c.phase with
    | replaying | opened => exact h.replays hi (by rw [hp]; rfl) rfl (.inl rfl) rfl
    | checked => exact h.countStep hi hp
    | counted => exact h.selectStep hi (by rw [hp]; rfl)
    | awaiting _ _ id => exact h.awaitStep hi (by rw [hp]; rfl) id
    | superseding => exact h.revokes hi hp
    | inserting => exact h.insertStep hi hp now
    | inserted draft issued revoked =>
      exact ⟨.issues i c draft issued revoked now hi hp,h.issueStep hi hp now⟩
    | losing _ attempt => exact h.loseStep hi (by rw [hp]; rfl) attempt
    | confirming organizationId id messageId => exact h.confirmStep hi organizationId id messageId now
    | unwinding organizationId id error => exact h.unwindStep hi organizationId id error
    | verifying => exact h.verifyStep hi hp
    | holding => exact h.writes hi hp now
    | written row update outcome =>
      exact ⟨.commits i c row update outcome hi hp,h.commitStep hi hp⟩
    | _ => exact ⟨.idle,h⟩

theorem Sound.reissueStep (h : w.Sound service) (i : ℕ) (now : ℤ) (code : String) :
    Moved service w (.reissue i now code) (w.reissueStep service i now code) := by
  unfold World.reissueStep
  split
  · next organizationId id hphase =>
    obtain ⟨c,hi,hc⟩ := call_of_phase hphase
    split
    · exact h.closes hi rfl rfl
    · next original _ =>
      obtain ⟨hquiet,hcount,hdraft⟩ := draftPhase_cases service ⟨i,organizationId,
        original.destination,original.purpose,original.messagingAccountId,none,code,now⟩
      refine ⟨.enters i c _ hi (.plain (Phase.quiet_entry hquiet) (Phase.quiet_unverified hquiet)
        (.inl hcount)),h.released hi hquiet hdraft fun _ => ?_⟩
      rw [hc]
      rfl
  · exact ⟨.idle,h⟩

/-- Every step of every call keeps everything in order. -/
theorem Sound.moves (h : w.Sound service) (a : Action) :
    Moved service w a (World.step service w a) := by
  cases a with
  | issue organizationId destination purpose account key now code =>
    obtain ⟨hquiet,hcount,hdraft⟩ := draftPhase_cases service
      ⟨w.calls.length,organizationId,destination,purpose,account,key,code,now⟩
    exact ⟨.admits .issue _ hcount (Phase.quiet_unverified hquiet),
      h.admits (Phase.quiet_lock hquiet) (Phase.quiet_entry hquiet) (Fits.of_quiet hquiet hdraft)
        (Phase.quiet_unverified hquiet)⟩
  | resend =>
    exact ⟨.admits .resend _ rfl (by simp),
      h.admits rfl rfl (Fits.of_quiet rfl (by simp [Phase.draft])) (by simp)⟩
  | reissue i now code => exact h.reissueStep i now code
  | verify _ _ code =>
    simp only [World.step]
    split_ifs
    · refine ⟨.admits (.verify code) _ rfl (by simp),h.admits rfl rfl ⟨by simp [Phase.draft],
        by simp [Phase.draft],by simp,by simp,by simp [Phase.entry],?_⟩ (by simp)⟩
      rintro _ _ _ _ ⟨⟩
      rfl
    · exact ⟨.admits (.verify code) _ rfl (by simp),
        h.admits rfl rfl (Fits.of_quiet rfl (by simp [Phase.draft])) (by simp)⟩
  | advance i now => exact h.advanceStep i now
  | deliver i delivery =>
    simp only [World.step,deliverStep]
    split
    · next hphase =>
      obtain ⟨c,hi,-⟩ := call_of_phase hphase
      cases delivery with
      | sent | ambiguous | failed => exact h.closes hi rfl rfl
    · exact ⟨.idle,h⟩
  | abort i =>
    simp only [World.step,abortStep]
    cases hphase : w.phase i with
    | none => exact ⟨.idle,h⟩
    | some p =>
      obtain ⟨c,hi,-⟩ := call_of_phase hphase
      cases p with
      | closed => exact ⟨.idle,h⟩
      | _ => exact h.closes hi rfl rfl
  | purge organizationId now olderThan =>
    refine ⟨?_,h.purgeStep organizationId now olderThan⟩
    simp only [World.step,World.purgeStep]
    split_ifs
    · exact .idle
    · exact .drops _ fun r hr => List.mem_of_mem_filter hr

theorem Sound.step (h : w.Sound service) (a : Action) : (World.step service w a).Sound service :=
  (h.moves a).sound

theorem sound_initial : (initial : World D).Sound service := by
  constructor
  case sole => exact Custody.sole_empty
  all_goals simp [initial,phase,Table.Keyed]

theorem sound_reach (service : Service D) (as : List Action) : (reach service as).Sound service :=
  Run.exec_invariant _ (Sound service) (fun _ a h => h.step a) as _ sound_initial

/-- What became of the challenges between two states. A challenge that was not active stays
as it was or is gone. -/
structure Later (w w' : World D) : Prop where
  issued : ∀ d ∈ w.issued, d ∈ w'.issued
  rows : ∀ s ∈ w'.rows, s.id ∈ w.issued.map Draft.id → ∃ r ∈ w.rows, r.id = s.id ∧
    (r.status = .active ∨ s.status = r.status)

omit [DecidableEq D] in
theorem later_refl (w : World D) : Later w w :=
  ⟨fun _ hd => hd,fun s hs _ => ⟨s,hs,rfl,.inr rfl⟩⟩

omit [DecidableEq D] in
theorem Later.trans {u v w : World D} (h : Later u v) (h' : Later v w) : Later u w := by
  constructor
  · exact fun d hd => h'.issued d (h.issued d hd)
  · intro s hs hid
    have hid' : s.id ∈ v.issued.map Draft.id := by
      obtain ⟨d,hd,hs⟩ := List.mem_map.mp hid
      exact hs ▸ List.mem_map_of_mem (h.issued d hd)
    obtain ⟨r,hr,hrs,hstatus⟩ := h'.rows s hs hid'
    obtain ⟨q,hq,hqr,hstatus'⟩ := h.rows r hr (hrs ▸ hid)
    refine ⟨q,hq,hqr.trans hrs,?_⟩
    rcases hstatus' with hactive | hsame
    · exact .inl hactive
    · rcases hstatus with hactive | hsame'
      · exact .inl (hsame.symm.trans hactive)
      · exact .inr (hsame'.trans hsame)

theorem Sound.later (h : w.Sound service) {w' : World D} {a : Action}
    (hturn : Turn service w a w') :
    Later w w' := by
  cases hturn with
  | idle => exact later_refl w
  | admits | enters => exact ⟨(later_refl w).issued,(later_refl w).rows⟩
  | drops _ hrows => exact ⟨fun _ hd => hd,fun s hs _ => ⟨s,hrows s hs,rfl,.inr rfl⟩⟩
  | commits i c row update outcome hi hphase =>
    obtain ⟨hrow,hupdates⟩ := (h.fits i c hi).updates row update outcome (.inr hphase)
    refine ⟨fun _ hd => hd,fun s hs _ => ?_⟩
    rcases Table.mem_edit.mp hs with ⟨_,_,_,rfl⟩ | ⟨hs,-⟩
    · exact ⟨row,hrow,(id_of_origin hupdates.origin).symm,hupdates.status⟩
    · exact ⟨s,hs,rfl,.inr rfl⟩
  | issues i c draft _ _ now hi hphase =>
    have hdraft : c.phase.draft = some draft := by rw [hphase]; rfl
    refine ⟨fun _ hd => List.mem_append_left _ hd,fun s hs hid => ?_⟩
    rcases Table.mem_concat hs with hs | rfl
    · rcases Table.mem_edit.mp hs with ⟨r,_,hrid,rfl⟩ | ⟨hs,-⟩
      · obtain ⟨q,hq,hqr,hactive,-⟩ := (h.fits i c hi).superseded draft r.id hdraft (by
          rw [hphase]
          exact Option.mem_toList.mp hrid)
        exact ⟨q,hq,hqr,.inl hactive⟩
      · exact ⟨s,hs,rfl,.inr rfl⟩
    · refine absurd hid ?_
      rw [show (service.stored draft now).id = i from (h.fits i c hi).drawn draft hdraft]
      exact h.early i c hi (by simp [Phase.early,hdraft])

theorem later_reach (service : Service D) (as bs : List Action) :
    Later (reach service as) (reach service (as++bs)) := by
  unfold reach
  rw [Run.exec_append]
  exact Run.exec_related _ (Sound service) Later (fun _ a h => h.step a) later_refl
    (fun _ _ _ => Later.trans) (fun _ a h => h.later (h.moves a).turn) bs _ (sound_reach service as)

theorem Sound.fingerprinted (h : w.Sound service) {r : Challenge D} (hr : r ∈ w.rows) :
    r.subject = (r.organizationId,service.destinationFingerprint r.destination,r.purpose) := by
  obtain ⟨d,-,horigin⟩ := h.origins r hr
  have hsubject : r.subject = (service.stored d 0).subject := subject_of_origin horigin
  have horganization : r.organizationId = (service.stored d 0).organizationId :=
    of_origin Challenge.organizationId (fun _ => rfl) horigin
  have hdestination : r.destination = (service.stored d 0).destination :=
    of_origin Challenge.destination (fun _ => rfl) horigin
  have hpurpose : r.purpose = (service.stored d 0).purpose :=
    of_origin Challenge.purpose (fun _ => rfl) horigin
  rw [hsubject,horganization,hdestination,hpurpose]
  rfl

def Verified (w : World D) (i id : ℕ) : Prop := w.phase i = some (.closed (.verified id))

theorem Sound.verified_active (h : w.Sound service) {w' : World D} {a : Action}
    (hturn : Turn service w a w')
    {i id : ℕ} (hnew : w'.Verified i id) (hold : ¬w.Verified i id) :
    ∃ r ∈ w.rows, r.id = id ∧ r.status = .active := by
  obtain ⟨b,hb,hp⟩ := call_of_phase hnew
  have hbefore : w.calls[i]? ≠ some b := fun hb' => hold ((phase_of_call hb').trans (by rw [hp]))
  cases hturn with
  | idle | drops => exact absurd hb hbefore
  | admits _ _ _ hverified =>
    rcases Batch.concat_cases hb with ⟨-,rfl⟩ | hb
    · exact absurd hp (hverified id)
    · exact absurd hb hbefore
  | enters _ _ _ hj hgoes =>
    rcases Batch.modified hj hb with ⟨-,rfl⟩ | ⟨-,hb⟩
    · exact absurd hp (hgoes.unverified id)
    · exact absurd hb hbefore
  | commits j c row update _ hj hphase =>
    rcases Batch.modified hj hb with ⟨-,rfl⟩ | ⟨-,hb⟩
    · cases hp
      have hfits := h.fits j c hj
      obtain ⟨hid,hactive,-⟩ := hfits.verdict row update id (.inr hphase)
      exact ⟨row,(hfits.updates row update _ (.inr hphase)).1,hid,hactive⟩
    · exact absurd hb hbefore
  | issues _ _ _ _ _ _ hj =>
    rcases Batch.modified hj hb with ⟨-,rfl⟩ | ⟨-,hb⟩
    · cases hp
    · exact absurd hb hbefore

end World

theorem Service.accepted (hhash : Function.Injective service.hmac) {d : Draft} {request : Request}
    (h : service.Accepts d request) : request = .verify d.code := by
  obtain ⟨_,rfl,hmatch⟩ := h
  rw [Service.verifyCode,decide_eq_true_eq] at hmatch
  rw [(String.append_right_inj _).mp (hhash hmatch)]

/-- The life of the one-time codes: single use, with the right code only and while the
challenge is active, within the attempts; final states are final; one active challenge. -/
theorem codes_single_use (service : Service D) (hhash : Function.Injective service.hmac)
    (as : List Action) :
    (∀ i j id, (World.reach service as).Verified i id → (World.reach service as).Verified j id →
      i = j) ∧
    (∀ (i : ℕ) c id, (World.reach service as).calls[i]? = some c →
      c.phase = .closed (.verified id) →
        ∃ d, (World.reach service as).issued.filter (fun d => d.id = id) = [d] ∧
          c.request = .verify d.code) ∧
    (∀ a i id, (World.step service (World.reach service as) a).Verified i id →
      ¬(World.reach service as).Verified i id →
        ∃ r ∈ (World.reach service as).rows, r.id = id ∧ r.status = .active) ∧
    (∀ r ∈ (World.reach service as).rows, r.attempts ≤ r.maxAttempts) ∧
    (∀ bs, ∀ r ∈ (World.reach service as).rows, r.status ≠ .active →
      ∀ s ∈ (World.reach service (as++bs)).rows, s.id = r.id → s.status = r.status) ∧
    (∀ r ∈ (World.reach service as).rows, ∀ s ∈ (World.reach service as).rows,
      r.status = .active → s.status = .active → r.organizationId = s.organizationId →
      r.destination = s.destination → r.purpose = s.purpose → r = s) := by
  have h := World.sound_reach service as
  refine ⟨?_,?_,?_,fun r hr => (h.tried r hr).1,?_,?_⟩
  · intro i j id hi hj
    obtain ⟨b,hb,hpb⟩ := World.call_of_phase hi
    obtain ⟨c,hc,hpc⟩ := World.call_of_phase hj
    exact h.alone i j b c id hb hc hpb hpc
  · intro i c id hc hp
    obtain ⟨⟨d,hd,rfl,haccepts⟩,-⟩ := h.used i c id hc hp
    exact ⟨d,Table.filter_key h.once hd,Service.accepted hhash haccepts⟩
  · intro a i id hnew hold
    exact h.verified_active (h.moves a).turn hnew hold
  · intro bs r hr hfinal s hs hid
    have hissued : s.id ∈ (World.reach service as).issued.map Draft.id := by
      obtain ⟨d,hd,horigin⟩ := h.origins r hr
      have hdrawn : r.id = (service.stored d 0).id := id_of_origin horigin
      rw [hid,hdrawn]
      exact List.mem_map_of_mem hd
    obtain ⟨q,hq,hqs,hstatus⟩ := (World.later_reach service as bs).rows s hs hissued
    obtain rfl : q = r := Table.mem_unique h.keyed hq hr (hqs.trans hid)
    exact hstatus.resolve_left hfinal
  · intro r hr s hs hractive hsactive horganization hdestination hpurpose
    apply h.single r hr s hs hractive hsactive
    rw [h.fingerprinted hr,h.fingerprinted hs,horganization,hdestination,hpurpose]

def sampleSettings : OtpSettings where
  enabled := true
  ttlSeconds := 300
  maxAttempts := 5
  resendCooldownSeconds := 60
  maxIssuesPerWindow := 5
  issueWindowSeconds := 3600
  ttl_bounds := by decide
  attempts_bounds := by decide
  cooldown_bounds := by decide
  issues_bounds := by decide
  window_bounds := by decide

def sampleService : Service String := ⟨sampleSettings,id⟩

def samplePhone : Destination := ⟨.sms,"+4930"⟩

/-- Two verify calls with the right code, statement by statement. -/
def verifiedTwice : List Action :=
  [.issue 7 samplePhone .genericVerification 1 none 0 "123456",.advance 0 0,.advance 0 0,
    .advance 0 0,.advance 0 0,.advance 0 0,.deliver 0 .ambiguous,.verify 7 0 "123456" 5,
    .verify 7 0 "123456" 5,.advance 1 6,.advance 2 6,.advance 1 6,.advance 1 6,.advance 2 6]

theorem verifiedTwice_once : (World.reach sampleService verifiedTwice).Verified 1 0 ∧
    ∀ i, (World.reach sampleService verifiedTwice).Verified i 0 → i = 1 := by
  have hfirst : (World.reach sampleService verifiedTwice).Verified 1 0 := by
    unfold World.Verified
    decide +kernel
  refine ⟨hfirst,fun i hi => ?_⟩
  exact (codes_single_use sampleService Function.injective_id verifiedTwice).1 i 1 0 hi hfirst

end

variable {D : Type}

def Challenge.Overdue (row : Challenge D) (organizationId : ℕ) (cutoff : ℤ) : Prop :=
  row.organizationId = organizationId ∧ row.expiresAt < cutoff ∧ row.updatedAt < cutoff

instance (row : Challenge D) (organizationId : ℕ) (cutoff : ℤ) :
    Decidable (row.Overdue organizationId cutoff) :=
  inferInstanceAs (Decidable (_ ∧ _ ∧ _))

def Challenge.Verifiable (row : Challenge D) (now : ℤ) : Prop :=
  terminalFailure row.status = none ∧ now < row.expiresAt

theorem mem_purgeTerminalBefore {organizationId : ℕ} {cutoff : ℤ} {rows : List (Challenge D)}
    {row : Challenge D} : row ∈ purgeTerminalBefore organizationId cutoff rows ↔
      row ∈ rows ∧ ¬ (row.organizationId = organizationId ∧ row.status ≠ .active ∧
        row.updatedAt < cutoff) := by
  simp only [purgeTerminalBefore,List.mem_filter,Bool.not_eq_true',decide_eq_false_iff_not]

variable [DecidableEq D]

/-- A purge whose delete has gone through leaves nothing overdue, and everything that can be
verified, exactly if all that is overdue has come to an end before. -/
theorem purge_complete_iff (service : Service D) (as : List Action) (organizationId : ℕ) (now : ℤ)
    (olderThan : ℕ) (holder : 3600 ≤ olderThan)
    (hruns : ((World.reach service as).step service (.purge organizationId now olderThan)).rows =
      purgeTerminalBefore organizationId (now-max olderThan 3600) (World.reach service as).rows) :
    ((∀ row ∈ ((World.reach service as).step service (.purge organizationId now olderThan)).rows,
          ¬ row.Overdue organizationId (now-olderThan)) ∧
        ∀ row ∈ (World.reach service as).rows, row.Verifiable now →
          row ∈ ((World.reach service as).step service (.purge organizationId now olderThan)).rows) ↔
      ∀ row ∈ (World.reach service as).rows, row.Overdue organizationId (now-olderThan) →
        row.status ≠ .active := by
  rw [Nat.cast_max,max_eq_left (by exact_mod_cast holder)] at hruns
  rw [hruns]
  constructor
  · rintro ⟨hgone,-⟩ row hrow hdue hactive
    apply hgone row _ hdue
    exact mem_purgeTerminalBefore.mpr ⟨hrow,fun h => h.2.1 hactive⟩
  · intro hended
    constructor
    · intro row hrow hdue
      obtain ⟨hmem,hkept⟩ := mem_purgeTerminalBefore.mp hrow
      exact hkept ⟨hdue.1,hended row hmem hdue,hdue.2.2⟩
    · intro row hrow hopen
      refine mem_purgeTerminalBefore.mpr ⟨hrow,fun h => h.2.1 ?_⟩
      exact World.terminalFailure_none hopen.1

def issuedOnce : List Action :=
  [.issue 7 samplePhone .genericVerification 1 none 0 "123456",.advance 0 0,.advance 0 0,
    .advance 0 0,.advance 0 0,.advance 0 0,.deliver 0 .ambiguous]

def verifiedOnce : List Action :=
  issuedOnce++[.verify 7 0 "123456" 60,.advance 1 60,.advance 1 60,.advance 1 60]

theorem verifiedOnce_purged :
    (World.reach sampleService verifiedOnce).rows.map Challenge.status = [.verified] ∧
    ∀ row ∈ ((World.reach sampleService verifiedOnce).step sampleService (.purge 7 86400 3600)).rows,
      ¬ row.Overdue 7 (86400-3600) := by
  refine ⟨by decide +kernel,?_⟩
  refine ((purge_complete_iff sampleService verifiedOnce 7 86400 3600 (by decide) ?_).mpr ?_).1
  · decide +kernel
  · decide +kernel

/-- A code that nobody enters is still there the next day. -/
theorem unverified_stays :
    (World.reach sampleService (issuedOnce++[.purge 7 86400 3600])).rows.map
      (fun row => (row.status,row.organizationId,row.expiresAt,row.updatedAt)) =
        [(.active,7,300,0)] := by
  decide +kernel

end NexusAi.Otp
