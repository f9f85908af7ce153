import NexusAi.Lib.Checked
import NexusAi.Lib.Text

/-!
# Subjects of events

A subject is built from its segments and read back from its text. Building strips the
segments and reading goes through building, so a text with blanks next to its dots or
at its ends is read as the subject without them.
-/

namespace NexusAi.Events.Subjects
open NexusAi.Texts

inductive SubjectScope where
  | tenant | global
  deriving DecidableEq

def SubjectScope.value : SubjectScope → Text
  | .tenant => "tenant".toList
  | .global => "global".toList

def scopeOf (text : Text) : Option SubjectScope :=
  [SubjectScope.tenant,.global].find? fun scope => scope.value = text

structure Subject where
  (subjectPrefix environment : Text)
  scope : SubjectScope
  (domain event : Text)
  deriving DecidableEq

/-- `str` of a subject. -/
def Subject.render (s : Subject) : Text :=
  ['.'].intercalate [s.subjectPrefix,s.environment,s.scope.value,s.domain,s.event]

inductive SubjectError where
  | unsafeSegment (label : String) (value : Text)
  | scopeValue (scope : Text)
  | subjectLength
  | wildcardOrSpace
  | emptyOrTooLong
  | notCanonical (raw : Text)
  | unknownScope (scope : Text)
  deriving DecidableEq

/-- The rest of a token, `fresh` after an underscore. -/
def tokenFrom : Bool → Text → Bool
  | fresh, [] => !fresh
  | fresh, c::cs =>
    if c = '_' then !fresh && tokenFrom true cs
    else (c.isLower || c.isDigit) && tokenFrom false cs

/-- `[a-z][a-z0-9]*(?:_[a-z0-9]+)*` -/
def isToken (text : Text) : Bool := text.head?.any Char.isLower && tokenFrom true text

/-- A token and up to four more behind dots. -/
def isEvent (text : Text) : Bool :=
  (text.splitOn '.').all isToken && (text.splitOn '.').length ≤ 5

def segment (label : String) (limit : ℕ) (grammar : Text → Bool) (value : Text) :
    Except SubjectError Text :=
  if strip value = [] ∨ limit < (strip value).length ∨ grammar (strip value) = false then
    .error (.unsafeSegment label value)
  else .ok (strip value)

def token (value : Text) (label : String) : Except SubjectError Text :=
  segment label 48 isToken value

def eventToken (value : Text) : Except SubjectError Text := segment "event" (48*3) isEvent value

def resolveScope : SubjectScope ⊕ Text → Except SubjectError SubjectScope
  | .inl scope => .ok scope
  | .inr text => match scopeOf text with
    | some scope => .ok scope
    | none => .error (.scopeValue text)

def buildSubject (subjectPrefix environment : Text) (scope : SubjectScope ⊕ Text)
    (domain event : Text) : Except SubjectError Subject := do
  let scope ← resolveScope scope
  let subject : Subject := ⟨← token subjectPrefix "prefix",← token environment "environment",scope,
    ← token domain "domain",← eventToken event⟩
  if 240 < subject.render.length then .error .subjectLength
  else if '*' ∈ subject.render ∨ '>' ∈ subject.render ∨ ' ' ∈ subject.render then
    .error .wildcardOrSpace
  else .ok subject

def parseSubject (raw : Text) : Except SubjectError Subject :=
  if raw = [] ∨ 240 < raw.length then .error .emptyOrTooLong
  else match raw.splitOn '.' with
    | subjectPrefix::environment::scope::domain::part::parts => match scopeOf scope with
      | some scope => buildSubject subjectPrefix environment (.inl scope) domain
          (['.'].intercalate (part::parts))
      | none => .error (.unknownScope scope)
    | _ => .error (.notCanonical raw)

/-- No wildcard, no space and no empty segment. -/
def Subject.Concrete (s : Subject) : Prop :=
  '*' ∉ s.render ∧ '>' ∉ s.render ∧ ' ' ∉ s.render ∧ [] ∉ s.render.splitOn '.'

structure Subject.Valid (s : Subject) : Prop where
  tokens : ∀ t ∈ [s.subjectPrefix,s.environment,s.domain], isToken t ∧ t.length ≤ 48
  event : isEvent s.event ∧ s.event.length ≤ 48*3
  length : s.render.length ≤ 240

variable {s : Subject} {t : Text} {c : Char}

/-- The characters of subjects, dots apart. -/
def wordChar (c : Char) : Bool := c.isLower || c.isDigit || c = '_'

theorem wordChar_range (h : wordChar c) :
    isSpace c = false ∧ c ≠ '.' ∧ c ≠ '*' ∧ c ≠ '>' := by
  have hrange : c.toNat = 95 ∨ 97 ≤ c.toNat ∧ c.toNat ≤ 122 ∨ 48 ≤ c.toNat ∧ c.toNat ≤ 57 := by
    have hlower : c.isLower = (c.val ≥ 'a'.val && c.val ≤ 'z'.val) := rfl
    simp only [wordChar,Bool.or_eq_true,decide_eq_true_eq,hlower,Char.isDigit,
      Bool.and_eq_true,UInt32.le_iff_toNat_le,ge_iff_le] at h
    rcases h with (h | h) | rfl
    · exact .inr (.inl h)
    · exact .inr (.inr h)
    · exact .inl rfl
  refine ⟨?_,?_,?_,?_⟩
  · rw [isSpace,decide_eq_false_iff_not]
    simp only [List.mem_cons,List.not_mem_nil,or_false]
    omega
  all_goals
    rintro rfl
    revert hrange
    decide

theorem tokenFrom_chars {fresh : Bool} (h : tokenFrom fresh t) (hc : c ∈ t) :
    wordChar c := by
  induction t generalizing fresh with
  | nil => cases hc
  | cons _ _ ih =>
    rw [tokenFrom] at h
    split_ifs at h with hd <;> rw [Bool.and_eq_true] at h <;>
      rcases List.mem_cons.mp hc with rfl | hc
    · simp [wordChar,hd]
    · exact ih h.2 hc
    · rw [wordChar,h.1]
      rfl
    · exact ih h.2 hc

theorem isToken_chars (h : isToken t) : t ≠ [] ∧ ∀ c ∈ t, wordChar c := by
  refine ⟨?_,fun c => tokenFrom_chars (Bool.and_eq_true_iff.mp h).2⟩
  rintro rfl
  cases h

theorem mem_dotted {parts : List Text} (h : c ∈ ['.'].intercalate parts) :
    c = '.' ∨ ∃ p ∈ parts, c ∈ p := by
  induction parts with
  | nil => simp at h
  | cons p parts ih =>
    cases parts with
    | nil => exact .inr ⟨p,by simp,by simpa using h⟩
    | cons =>
      rw [List.intercalate_cons_cons,List.append_assoc,List.mem_append] at h
      rcases h with h | h
      · exact .inr ⟨p,by simp,h⟩
      · rcases List.mem_cons.mp h with h | h
        · exact .inl h
        · exact (ih h).imp_right fun ⟨r,hr,hc⟩ => ⟨r,List.mem_cons_of_mem _ hr,hc⟩

theorem isEvent_parts (h : isEvent t) : ∀ p ∈ t.splitOn '.', isToken p :=
  List.all_eq_true.mp (Bool.and_eq_true_iff.mp h).1

theorem scope_token (scope : SubjectScope) : isToken scope.value := by
  cases scope <;> decide

namespace Subject

theorem render_eq (s : Subject) : s.render = s.subjectPrefix++ '.'::(s.environment++
    '.'::(s.scope.value++ '.'::(s.domain++ '.'::s.event))) := by
  simp [render,List.intercalate_cons_cons]

theorem Valid.segments (h : s.Valid) : s.render.splitOn '.' =
    s.subjectPrefix::s.environment::s.scope.value::s.domain::s.event.splitOn '.' := by
  have hdot : ∀ t, isToken t → '.' ∉ t := fun t ht hc =>
    (wordChar_range ((isToken_chars ht).2 _ hc)).2.1 rfl
  have hword : ∀ t ∈ [s.subjectPrefix,s.environment,s.domain], '.' ∉ t := fun t ht =>
    hdot t (h.tokens t ht).1
  rw [render_eq,List.splitOn_append_cons_self_of_not_mem (hword _ (by simp)),
    List.splitOn_append_cons_self_of_not_mem (hword _ (by simp)),
    List.splitOn_append_cons_self_of_not_mem (hdot _ (scope_token _)),
    List.splitOn_append_cons_self_of_not_mem (hword _ (by simp))]

theorem Valid.parts (h : s.Valid) : ∀ p ∈ s.render.splitOn '.', isToken p := by
  intro p hp
  rw [h.segments] at hp
  simp only [List.mem_cons] at hp
  rcases hp with rfl | rfl | rfl | rfl | hp
  · exact (h.tokens _ (by simp)).1
  · exact (h.tokens _ (by simp)).1
  · exact scope_token _
  · exact (h.tokens _ (by simp)).1
  · exact isEvent_parts h.event.1 p hp

theorem Valid.chars (h : s.Valid) (hc : c ∈ s.render) : c = '.' ∨ wordChar c := by
  rw [← @List.intercalate_splitOn _ s.render _ _ '.'] at hc
  exact (mem_dotted hc).imp_right fun ⟨p,hp,hc⟩ => (isToken_chars (h.parts p hp)).2 c hc

theorem Valid.unblank (h : s.Valid) : ∀ c ∈ s.render, isSpace c = false := by
  intro c hc
  rcases h.chars hc with rfl | hword
  · decide
  · exact (wordChar_range hword).1

theorem Valid.concrete (h : s.Valid) : s.Concrete := by
  refine ⟨fun hc => ?_,fun hc => ?_,fun hc => ?_,fun hp => (isToken_chars (h.parts _ hp)).1 rfl⟩ <;>
    rcases h.chars hc with hdot | hword
  · exact absurd hdot (by decide)
  · exact (wordChar_range hword).2.2.1 rfl
  · exact absurd hdot (by decide)
  · exact (wordChar_range hword).2.2.2 rfl
  · exact absurd hdot (by decide)
  · exact absurd (wordChar_range hword).1 (by decide)

end Subject

theorem segment_ok {label : String} {limit : ℕ} {grammar : Text → Bool} {value : Text}
    (hgrammar : grammar [] = false) : segment label limit grammar value = .ok t ↔
      strip value = t ∧ grammar t ∧ t.length ≤ limit := by
  unfold segment
  split_ifs with h
  · rw [false_iff]
    rintro ⟨rfl,hg,_⟩
    rcases h with h | h | h
    · rw [h,hgrammar] at hg
      cases hg
    · omega
    · rw [hg] at h
      cases h
  · rw [Except.ok.injEq]
    simp only [not_or,not_lt,Bool.not_eq_false] at h
    exact ⟨fun heq => ⟨heq,heq ▸ h.2.2,heq ▸ h.2.1⟩,fun heq => heq.1⟩

theorem build_ok {p e d ev : Text} {scope : SubjectScope ⊕ Text} :
    buildSubject p e scope d ev = .ok s ↔ resolveScope scope = .ok s.scope ∧
      strip p = s.subjectPrefix ∧ strip e = s.environment ∧ strip d = s.domain ∧
        strip ev = s.event ∧ s.Valid := by
  have htoken (label : String) (value t : Text) : token value label = .ok t ↔
      strip value = t ∧ isToken t ∧ t.length ≤ 48 := segment_ok rfl
  have hevent (value t : Text) : eventToken value = .ok t ↔
      strip value = t ∧ isEvent t ∧ t.length ≤ 48*3 := segment_ok rfl
  simp only [buildSubject,Checked.bind_ok,htoken,hevent]
  constructor
  · rintro ⟨_,hsc,_,⟨hp,htp⟩,_,⟨he,hte⟩,_,⟨hd,htd⟩,_,⟨hv,htv⟩,h⟩
    split_ifs at h with hlength hwild
    obtain rfl := Except.ok.inj h
    refine ⟨hsc,hp,he,hd,hv,?_,htv,not_lt.mp hlength⟩
    intro t ht
    simp only [List.mem_cons,List.not_mem_nil,or_false] at ht
    rcases ht with rfl | rfl | rfl
    · exact htp
    · exact hte
    · exact htd
  · rintro ⟨hsc,hp,he,hd,hv,hs⟩
    obtain ⟨hstar,harrow,hspace,-⟩ := hs.concrete
    refine ⟨s.scope,hsc,_,⟨hp,hs.tokens _ (by simp)⟩,_,⟨he,hs.tokens _ (by simp)⟩,_,
      ⟨hd,hs.tokens _ (by simp)⟩,_,⟨hv,hs.event⟩,?_⟩
    rw [if_neg (not_lt.mpr hs.length), if_neg (by simp [hstar,harrow,hspace])]

theorem parse_render (h : s.Valid) : parseSubject s.render = .ok s := by
  have hscope : scopeOf s.scope.value = some s.scope := by
    cases s.scope <;> decide
  have hclean : ∀ t, isToken t → strip t = t := fun t ht =>
    strip_eq fun c hc => (wordChar_range ((isToken_chars ht).2 c hc)).1
  have hevent : strip s.event = s.event := by
    refine strip_eq fun c hc => h.unblank c ?_
    simp [Subject.render_eq,hc]
  have hnonempty : ¬ (s.render = [] ∨ 240 < s.render.length) := by
    rw [not_or,not_lt]
    exact ⟨by simp [Subject.render_eq],h.length⟩
  obtain ⟨_,_,hparts⟩ := List.exists_cons_of_ne_nil (List.splitOn_ne_nil '.' s.event)
  unfold parseSubject
  rw [if_neg hnonempty,h.segments,hparts]
  simp only [hscope]
  rw [← hparts,List.intercalate_splitOn]
  refine build_ok.mpr ⟨rfl,hclean _ ?_,hclean _ ?_,hclean _ ?_,hevent,h⟩
  all_goals exact (h.tokens _ (by simp)).1

/-- The segments of a text that is read, before they are stripped. -/
theorem parse_ok {r : Text} (h : parseSubject r = .ok s) : s.Valid ∧ ∃ p e d ev,
    r = p++ '.'::(e++ '.'::(s.scope.value++ '.'::(d++ '.'::ev))) ∧ strip p = s.subjectPrefix ∧
      strip e = s.environment ∧ strip d = s.domain ∧ strip ev = s.event := by
  unfold parseSubject at h
  split_ifs at h
  split at h
  · rename_i p e sc d part parts hr
    split at h
    · rename_i scope hscope
      obtain ⟨hsc,hp,he,hd,hv,hs⟩ := build_ok.mp h
      refine ⟨hs,p,e,d,['.'].intercalate (part::parts),?_,hp,he,hd,hv⟩
      have hvalue : scope.value = sc := by simpa using List.find?_some hscope
      rw [← Except.ok.inj hsc,hvalue,← @List.intercalate_splitOn _ r _ _ '.',hr]
      simp [List.intercalate_cons_cons]
    · cases h
  · cases h

/-- What is built is read back, and what is read is rendered as it was exactly if it has
no blanks. -/
theorem subjects_round_trip_iff (s : Subject) (r : Text) :
    (∀ p e scope d ev, buildSubject p e scope d ev = .ok s →
      parseSubject s.render = .ok s ∧ s.Concrete) ∧
    (parseSubject r = .ok s →
      s.Concrete ∧ (s.render = r ↔ ∀ c ∈ r, isSpace c = false)) := by
  refine ⟨fun p e scope d ev h => ?_,fun h => ?_⟩
  · have hs := (build_ok.mp h).2.2.2.2.2
    exact ⟨parse_render hs,hs.concrete⟩
  · obtain ⟨hs,p,e,d,ev,hr,hp,he,hd,hv⟩ := parse_ok h
    refine ⟨hs.concrete,fun hsame => hsame ▸ hs.unblank,fun hblank => ?_⟩
    have hstrip : ∀ t, (∀ c ∈ t, c ∈ r) → strip t = t := fun t ht =>
      strip_eq fun c hc => hblank c (ht c hc)
    rw [hstrip p fun c hc => by simp [hr,hc]] at hp
    rw [hstrip e fun c hc => by simp [hr,hc]] at he
    rw [hstrip d fun c hc => by simp [hr,hc]] at hd
    rw [hstrip ev fun c hc => by simp [hr,hc]] at hv
    rw [Subject.render_eq,hr,hp,he,hd,hv]

def profileUpdated : Subject :=
  ⟨"nxs".toList,"test".toList,.tenant,"auth".toList,"profile.updated".toList⟩

theorem profileUpdated_reads :
    parseSubject "nxs.test.tenant.auth.profile.updated".toList = .ok profileUpdated ∧
      profileUpdated.render = "nxs.test.tenant.auth.profile.updated".toList := by
  have h : parseSubject "nxs.test.tenant.auth.profile.updated".toList = .ok profileUpdated := by
    decide +kernel
  have hplain : "nxs.test.tenant.auth.profile.updated".toList.all (fun c => !isSpace c) := by
    decide +kernel
  exact ⟨h,((subjects_round_trip_iff _ _).2 h).2.mpr fun c hc => by
    simpa using List.all_eq_true.mp hplain c hc⟩

/-- The domain of the subject is not the one of the text. -/
theorem blanks_dropped : parseSubject "nxs.test.tenant. auth.profile.updated".toList =
      .ok profileUpdated ∧
    profileUpdated.render ≠ "nxs.test.tenant. auth.profile.updated".toList := by
  decide +kernel

end NexusAi.Events.Subjects
