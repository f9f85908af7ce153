import NexusAi.Lib.Checked
import NexusAi.Lib.Run

/-!
# Results of a SIP dialog

An inbound route and an egress permit each keep the history of one dialog, in a state and
a binding. A report locks their row, decides on what it finds there, and commits or rolls
back. The states differ and the law of the histories is one.
-/

namespace NexusAi.SipEdge
open NexusAi.Checked

inductive DialogState
  | established | ended | failed | ambiguous
  deriving DecidableEq

structure DialogResult where
  state : DialogState
  (callId fromTag : String)
  toTag : Option String

abbrev Dialog := String × String × Option String

def DialogResult.dialog (r : DialogResult) : Dialog := (r.callId,r.fromTag,r.toTag)

inductive RouteState
  | authorized | issued | established | ended | failed | ambiguous | expired
  deriving DecidableEq

inductive PermitState
  | authorized | consumed | ended | ambiguous | expired | revoked
  deriving DecidableEq

/-- The edge, its boot and the transaction. A permit has none before it is consumed. -/
structure Relay where
  (edgeId bootId : ℕ)
  transactionDigest : String
  deriving DecidableEq

structure Row (S D : Type) where
  state : S
  relay : Option Relay
  binding : Option D

inductive SipError
  | routeDenied | conflict

/-- How a row tells the results: the state that each leaves, the state in which a dialog
may be bound, the results that a row can take, and what the edge is told. -/
structure Encoding (S D : Type) where
  of : DialogState → S
  ready : S
  fits : Row S D → DialogState → Bool
  answer : DialogState → DialogState

variable {S D : Type}

def RouteState.of : DialogState → RouteState
  | .established => .established
  | .ended => .ended
  | .failed => .failed
  | .ambiguous => .ambiguous

def RouteState.allowed : RouteState → List DialogState
  | .issued => [.established,.failed,.ambiguous]
  | .established => [.ended,.ambiguous]
  | _ => []

def route : Encoding RouteState D :=
  ⟨.of,.issued,fun row d => row.state = .of d ∨ d ∈ row.state.allowed,id⟩

/-- An established call keeps its permit in `consumed`, and a failed one ends it. -/
def PermitState.of : DialogState → PermitState
  | .established => .consumed
  | .ended | .failed => .ended
  | .ambiguous => .ambiguous

def permit : Encoding PermitState D :=
  ⟨.of,.consumed,fun row d => (d = .failed → row.binding = none) ∧
    (row.state = .of d ∨ row.state = .consumed),fun d => if d = .failed then .ended else d⟩

def RouteState.terminal (s : RouteState) : Prop := s ∈ [ended,failed,ambiguous,expired]

def PermitState.terminal (s : PermitState) : Prop := s ∈ [ended,ambiguous,expired,revoked]

/-- What an encoding owes to the law. The rows in its `free` states are not bound. -/
structure Encoding.Lawful (e : Encoding S D) (terminal free : S → Prop) : Prop where
  failed : ∀ row, (free row.state → row.binding = none) → e.fits row .failed →
    row.binding = none
  again : ∀ d relay b, (d = .failed → b = none) → e.fits ⟨e.of d,relay,b⟩ d
  final : ∀ row d, terminal row.state → e.fits row d → row.state = e.of d
  ready : ¬terminal e.ready
  free : ∀ d, free (e.of d) → d = .failed

theorem route_lawful : (route (D := D)).Lawful RouteState.terminal
    fun s => s = .issued ∨ s = .failed := by
  constructor
  case failed =>
    rintro ⟨s,relay,b⟩ hfree hfits
    cases s <;> simp_all [route,RouteState.of,RouteState.allowed]
  case again => simp [route]
  case final =>
    rintro ⟨s,relay,b⟩ d hs hfits
    cases s <;> simp_all [route,RouteState.allowed,RouteState.terminal]
  case ready => simp [route,RouteState.terminal]
  case free =>
    rintro (_ | _ | _ | _) <;> simp [route,RouteState.of]

theorem permit_lawful : (permit (D := D)).Lawful PermitState.terminal fun _ => False := by
  constructor
  case failed =>
    intro row _ hfits
    exact (of_decide_eq_true hfits).1 rfl
  case again =>
    intro d relay b hfailed
    exact decide_eq_true ⟨hfailed,.inl rfl⟩
  case final =>
    intro row d hs hfits
    rcases (of_decide_eq_true hfits).2 with hsame | hready
    · exact hsame
    · simp [PermitState.terminal,hready] at hs
  case ready => simp [permit,PermitState.terminal]
  case free => simp

section Reports

variable [DecidableEq S] [DecidableEq D] (fingerprint : Dialog → D)

def DialogResult.pinned (r : DialogResult) : Prop := r.state = .established ∨ r.state = .ended

instance (r : DialogResult) : Decidable r.pinned := inferInstanceAs (Decidable (_ ∨ _))

abbrev Record (S D : Type) :=
  Option (Row S D) → Relay → DialogResult → Except SipError (Row S D × DialogState)

def Encoding.record (e : Encoding S D) : Record S D := fun row relay r => do
  require (r.pinned → r.toTag.isSome) .routeDenied
  let row ← present row .routeDenied
  require (row.relay = some relay) .routeDenied
  require (r.pinned → row.binding = some (fingerprint r.dialog) ∨
    row.binding = none ∧ r.state = .established ∧ row.state = e.ready) .conflict
  require (e.fits row r.state) .conflict
  let binding := if r.pinned then some (fingerprint r.dialog) else row.binding
  pure (⟨e.of r.state,row.relay,binding⟩,e.answer r.state)

def recordDialogResult := route.record fingerprint

def recordResult := permit.record fingerprint

structure World (S D : Type) where
  row : Row S D
  held : Option (DialogResult × Except SipError (Row S D × DialogState))
  accepted : List DialogResult

inductive Action
  | lock (relay : Relay) (r : DialogResult)
  | commit
  | rollback

def World.step (record : Record S D) (w : World S D) : Action → World S D
  | .lock relay r =>
    match w.held with
    | some _ => w
    | none => { w with held := some (r,record (some w.row) relay r) }
  | .commit =>
    match w.held with
    | some (r,.ok (row,_)) => ⟨row,none,r::w.accepted⟩
    | _ => { w with held := none }
  | .rollback => { w with held := none }

/-- What is so of an accepted report and the rows before and after it. -/
structure Accepted (terminal : S → Prop) (r : DialogResult) (row row' : Row S D) :
    Prop where
  kept : ∀ d, row.binding = some d → row'.binding = some d
  ended : r.state = .ended → row.binding = some (fingerprint r.dialog)
  failed : r.state = .failed → row.binding = none
  final : terminal row.state → row' = row

/-- The rows in the `free` states are not bound, and the holder of the lock decides on the
row as it is. -/
structure Consistent (record : Record S D) (free : S → Prop) (w : World S D) : Prop where
  free : free w.row.state → w.row.binding = none
  held : ∀ r o, w.held = some (r,o) → ∃ relay, o = record (some w.row) relay r
  binding : ∀ d, w.row.binding = some d ↔
    ∃ r ∈ w.accepted, r.state = .established ∧ fingerprint r.dialog = d
  latest : ∀ r ∈ w.accepted.head?, ∃ relay answer,
    record (some w.row) relay r = .ok (w.row,answer)

def Moves (terminal : S → Prop) (w w' : World S D) : Prop :=
  w'.row = w.row ∧ w'.accepted = w.accepted ∨
    ∃ r, w'.accepted = r::w.accepted ∧ Accepted fingerprint terminal r w.row w'.row

/-- Every run from a row that is not bound stays consistent, and so does its next step. -/
def Histories (record : Record S D) (terminal free : S → Prop) : Prop :=
  ∀ s relay as, let w := Run.exec (World.step record) as ⟨⟨s,relay,none⟩,none,[]⟩
    Consistent fingerprint record free w ∧ ∀ a, Moves fingerprint terminal w (w.step record a)

variable {fingerprint} {e : Encoding S D} {terminal free : S → Prop}

theorem Encoding.record_ok {row row' : Row S D} {relay : Relay} {r : DialogResult}
    {answer : DialogState} : e.record fingerprint (some row) relay r = .ok (row',answer) ↔
      (r.pinned → r.toTag.isSome) ∧ row.relay = some relay ∧
      (r.pinned → row.binding = some (fingerprint r.dialog) ∨
        row.binding = none ∧ r.state = .established ∧ row.state = e.ready) ∧
      e.fits row r.state ∧ e.answer r.state = answer ∧
      row' = ⟨e.of r.state,row.relay,
        if r.pinned then some (fingerprint r.dialog) else row.binding⟩ := by
  simp only [Encoding.record,bind_ok,require_ok,present_ok,pure_ok]
  constructor
  · rintro ⟨-,htag,_,⟨⟩,-,hrelay,-,hbound,-,hfits,⟨⟩⟩
    exact ⟨htag,hrelay,hbound,hfits,rfl,rfl⟩
  · rintro ⟨htag,hrelay,hbound,hfits,rfl,rfl⟩
    exact ⟨(),htag,row,rfl,(),hrelay,(),hbound,(),hfits,rfl⟩

theorem Encoding.Lawful.accepted (he : e.Lawful terminal free) {row row' : Row S D}
    {relay : Relay} {r : DialogResult} {answer : DialogState}
    (hrow : free row.state → row.binding = none)
    (h : e.record fingerprint (some row) relay r = .ok (row',answer)) :
    Accepted fingerprint terminal r row row' ∧ (free row'.state → row'.binding = none) ∧
      e.record fingerprint (some row') relay r = .ok (row',answer) ∧
      if r.state = .established then row'.binding = some (fingerprint r.dialog)
      else row'.binding = row.binding := by
  obtain ⟨htag,hrelay,hbound,hfits,hanswer,rfl⟩ := Encoding.record_ok.mp h
  have hfailed (hr : r.state = .failed) : row.binding = none := he.failed row hrow (hr ▸ hfits)
  have hstate (hs : terminal row.state) : row.state = e.of r.state ∧ row.state ≠ e.ready :=
    ⟨he.final row r.state hs hfits,fun h => he.ready (h ▸ hs)⟩
  have hfree := he.free r.state
  have hagain := he.again r.state row.relay
  refine ⟨⟨?_,?_,hfailed,?_⟩,?_,Encoding.record_ok.mpr ⟨htag,hrelay,?_,?_,hanswer,?_⟩,?_⟩
  case refine_3 =>
    obtain ⟨s,_,b⟩ := row
    grind [DialogResult.pinned]
  all_goals grind [DialogResult.pinned]

theorem Consistent.moves (he : e.Lawful terminal free) {w : World S D}
    (hw : Consistent fingerprint (e.record fingerprint) free w) (a : Action) :
    Consistent fingerprint (e.record fingerprint) free (w.step (e.record fingerprint) a) ∧
      Moves fingerprint terminal w (w.step (e.record fingerprint) a) := by
  have rests (held) (h : ∀ r o, held = some (r,o) → ∃ relay,
      o = e.record fingerprint (some w.row) relay r) :
      Consistent fingerprint (e.record fingerprint) free { w with held := held } :=
    ⟨hw.free,h,hw.binding,hw.latest⟩
  cases a with
  | lock relay r =>
    simp only [World.step]
    split
    · exact ⟨hw,.inl ⟨rfl,rfl⟩⟩
    · refine ⟨rests _ ?_,.inl ⟨rfl,rfl⟩⟩
      rintro r o ⟨⟩
      exact ⟨relay,rfl⟩
  | rollback => exact ⟨rests none (by simp),.inl ⟨rfl,rfl⟩⟩
  | commit =>
    simp only [World.step]
    split
    · rename_i r row answer hheld
      obtain ⟨relay,ho⟩ := hw.held _ _ hheld
      obtain ⟨haccepted,hfree,hagain,hbinding⟩ := he.accepted hw.free ho.symm
      refine ⟨⟨hfree,by simp,?_,?_⟩,.inr ⟨r,rfl,haccepted⟩⟩
      · intro d
        have hkept := haccepted.kept d
        have hold := hw.binding d
        simp only [List.mem_cons,exists_eq_or_imp]
        grind
      · rintro _ ⟨⟩
        exact ⟨relay,answer,hagain⟩
    · exact ⟨rests none (by simp),.inl ⟨rfl,rfl⟩⟩

theorem Encoding.Lawful.histories (he : e.Lawful terminal free) :
    Histories fingerprint (e.record fingerprint) terminal free := by
  intro s relay as
  have hw := Run.exec_invariant (World.step (e.record fingerprint))
    (Consistent fingerprint (e.record fingerprint) free)
    (fun w a hw => (hw.moves he a).1) as ⟨⟨s,relay,none⟩,none,[]⟩
    ⟨fun _ => rfl,by simp,by simp,by simp⟩
  exact ⟨hw,fun a => (hw.moves he a).2⟩

/-- The histories of routes and of permits are consistent. -/
theorem dialog_histories (fingerprint : Dialog → D) :
    Histories fingerprint (recordDialogResult fingerprint) RouteState.terminal
        (fun s => s = .issued ∨ s = .failed) ∧
      Histories fingerprint (recordResult fingerprint) PermitState.terminal fun _ => False :=
  ⟨route_lawful.histories,permit_lawful.histories⟩

end Reports
end NexusAi.SipEdge
