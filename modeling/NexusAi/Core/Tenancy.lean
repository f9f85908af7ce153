import NexusAi.Lib.Checked
import NexusAi.Lib.Text

/-!
# Names of tenant resources

A name is the organization and the segments behind colons, and a segment may hold colons
itself. Another call has the same name when a segment can be cut at a colon, or two
neighbours can be taken for one segment.
-/

namespace NexusAi.Core
open NexusAi.Checked NexusAi.Texts

/-- The organization as its text of 36 characters. -/
structure Uuid where
  text : Text
  canonical : text.length = 36

/-- `[A-Za-z0-9]` -/
def isWord (c : Char) : Bool :=
  65 ≤ c.toNat ∧ c.toNat ≤ 90 ∨ 97 ≤ c.toNat ∧ c.toNat ≤ 122 ∨ 48 ≤ c.toNat ∧ c.toNat ≤ 57

/-- `[A-Za-z0-9][A-Za-z0-9_.:-]{0,127}` -/
def isSegment (t : Text) : Bool :=
  t.head?.any isWord && t.length ≤ 128 &&
    t.all fun c => isWord c || c ∈ ['_','.',':','-']

inductive NamespaceError
  | noSegment
  | unsafeSegment (segment : Text)

def tenantNamespace (organizationId : Uuid) (segments : List Text) :
    Except NamespaceError Text := do
  require (segments ≠ []) .noSegment
  each (fun s => require (isSegment (strip s)) (.unsafeSegment s)) segments
  pure ([':'].intercalate ("nxs".toList::organizationId.text::segments.map strip))

/-- No colon in the segment stands before a letter or a digit. -/
def Whole (s : Text) : Prop := ∀ a b, s = a++ ':'::b → b.head?.any isWord = false

/-- The segments, each behind a colon. -/
def behind (ts : List Text) : Text := ts.flatMap fun t => ':'::t

theorem intercalate_behind (t : Text) (ts : List Text) : [':'].intercalate (t::ts) = t++behind ts := by
  induction ts generalizing t with
  | nil => simp [behind]
  | cons u ts ih =>
    rw [List.intercalate_cons_cons,ih]
    simp [behind]

theorem tenantNamespace_ok {o : Uuid} {ss : List Text} {name : Text} :
    tenantNamespace o ss = .ok name ↔ ss ≠ [] ∧ (∀ s ∈ ss, isSegment (strip s)) ∧
      name = "nxs".toList++ ':'::(o.text++behind (ss.map strip)) := by
  simp only [tenantNamespace,bind_ok,require_ok,each_ok,pure_ok,intercalate_behind]
  constructor
  · rintro ⟨-,hne,-,hsegments,rfl⟩
    exact ⟨hne,hsegments,rfl⟩
  · rintro ⟨hne,hsegments,rfl⟩
    exact ⟨(),hne,(),hsegments,rfl⟩

theorem isSegment_cut {a b : Text} : isSegment (a++ ':'::b) ∧ b.head?.any isWord ↔
    isSegment a ∧ isSegment b ∧ a.length+1+b.length ≤ 128 := by
  cases a with
  | nil => simp [isSegment,show isWord ':' = false from rfl]
  | cons =>
    simp only [isSegment,List.cons_append,List.head?_cons,List.all_cons,List.all_append,
      List.length_append,List.length_cons,Bool.and_eq_true,decide_eq_true_eq]
    grind

theorem isSegment_strip {t : Text} (h : isSegment t) : strip t = t := by
  refine strip_eq fun c hc => ?_
  simp only [isSegment,Bool.and_eq_true,List.all_eq_true,Bool.or_eq_true,decide_eq_true_eq] at h
  rcases h.2 c hc with hword | hmark
  · simp only [isWord,decide_eq_true_eq] at hword
    simp only [isSpace,decide_eq_false_iff_not,List.mem_cons,List.not_mem_nil,or_false]
    omega
  · simp only [List.mem_cons,List.not_mem_nil,or_false] at hmark
    rcases hmark with rfl | rfl | rfl | rfl <;> decide

theorem isSegment_head {t : Text} (h : isSegment t) :
    ∃ c cs, t = c::cs ∧ isWord c := by
  cases t with
  | nil => simp [isSegment] at h
  | cons c cs =>
    simp only [isSegment,List.head?_cons,Option.any_some,Bool.and_eq_true] at h
    exact ⟨c,cs,rfl,h.1.1⟩

theorem longer {s u : Text} {r q : List Text} (h : s++behind r = u++behind q)
    (hlt : u.length < s.length) :
    ∃ b t y, q = t::y ∧ s = u++ ':'::b ∧ t++behind y = b++behind r := by
  rcases List.append_eq_append_iff.mp h with ⟨x,rfl,-⟩ | ⟨x,rfl,hq⟩
  · simp at hlt
  · cases x with
    | nil => simp at hlt
    | cons d x =>
      cases q with
      | nil => simp [behind] at hq
      | cons t q =>
        simp only [behind,List.flatMap_cons,List.cons_append,List.cons.injEq] at hq
        obtain ⟨rfl,hq⟩ := hq
        exact ⟨x,t,q,rfl,rfl,hq⟩

/-- No name goes on inside of a whole segment. -/
theorem Whole.length_le {s u : Text} (hs : Whole s) {r q : List Text}
    (hq : ∀ t ∈ q, isSegment t) (h : s++behind r = u++behind q) : s.length ≤ u.length := by
  by_contra hlt
  obtain ⟨b,t,y,rfl,hsu,hb⟩ := longer h (not_le.mp hlt)
  obtain ⟨c,cs,rfl,hc⟩ := isSegment_head (hq t List.mem_cons_self)
  have hcut := hs u b hsu
  cases b with
  | nil =>
    cases r with
    | nil => cases hb
    | cons =>
      obtain ⟨rfl,-⟩ := List.cons.inj hb
      cases hc
  | cons =>
    obtain ⟨rfl,-⟩ := List.cons.inj hb
    rw [List.head?_cons,Option.any_some,hc] at hcut
    cases hcut

theorem behind_injective {cs ds : List Text} (hwhole : ∀ s ∈ cs, Whole s)
    (hlong : ∀ a b, [a,b] <:+: cs → 128 < a.length+1+b.length)
    (hds : ∀ t ∈ ds, isSegment t) (h : behind ds = behind cs) : ds = cs := by
  induction cs generalizing ds with
  | nil =>
    cases ds with
    | nil => rfl
    | cons => cases h
  | cons s cs ih =>
    cases ds with
    | nil => cases h
    | cons t ds =>
      have h' : s++behind cs = t++behind ds := (List.cons.inj h).2.symm
      have hst := (hwhole s List.mem_cons_self).length_le (fun u hu => hds u (.tail t hu)) h'
      have hts : t.length ≤ s.length := by
        by_contra hlt
        obtain ⟨b,u,y,rfl,rfl,hb⟩ := longer h'.symm (not_le.mp hlt)
        have hu := (hwhole u (by simp)).length_le (fun u hu => hds u (.tail _ hu)) hb
        have hpair := hlong s u ⟨[],y,rfl⟩
        have hlen := hds _ List.mem_cons_self
        simp only [isSegment,Bool.and_eq_true,decide_eq_true_eq,List.length_append,
          List.length_cons] at hlen
        omega
      obtain ⟨rfl,hrest⟩ := List.append_inj h' (le_antisymm hst hts)
      rw [ih (fun u hu => hwhole u (.tail s hu)) ?_ (fun u hu => hds u (.tail s hu)) hrest.symm]
      intro a b hab
      exact hlong a b (hab.trans (List.suffix_cons s cs).isInfix)

/-- No other call has the name of this one just when its segments are whole and no two
neighbours fit into one segment. -/
theorem name_unique_iff (o : Uuid) (ss : List Text) (name : Text)
    (h : tenantNamespace o ss = .ok name) :
    (∀ o' ss', tenantNamespace o' ss' = .ok name → o' = o ∧ ss'.map strip = ss.map strip) ↔
      (∀ s ∈ ss.map strip, Whole s) ∧
        ∀ a b, [a,b] <:+: ss.map strip → 128 < a.length+1+b.length := by
  obtain ⟨hne,hsegments,rfl⟩ := tenantNamespace_ok.mp h
  have hclean : ∀ s ∈ ss.map strip, isSegment s := by simpa using hsegments
  generalize ss.map strip = cs at *
  constructor
  · intro hunique
    have hother (ds) (hds : ∀ t ∈ ds, isSegment t) (hb : behind ds = behind cs) :
        ds ≠ [] → ds = cs := by
      intro hne
      have hstrip : ds.map strip = ds := by
        conv_rhs => rw [← List.map_id ds]
        exact List.map_congr_left fun t ht => isSegment_strip (hds t ht)
      rw [← hstrip]
      refine (hunique o ds (tenantNamespace_ok.mpr ⟨hne,?_,?_⟩)).2
      · intro t ht
        rw [isSegment_strip (hds t ht)]
        exact hds t ht
      · rw [hstrip,hb]
    have hcut (p a b q) : behind (p++a::b::q) = behind (p++(a++ ':'::b)::q) := by simp [behind]
    constructor
    · intro s hs a b hab
      subst hab
      obtain ⟨p,q,rfl⟩ := List.append_of_mem hs
      rw [← Bool.not_eq_true]
      intro hword
      obtain ⟨ha,hb,-⟩ := isSegment_cut.mp ⟨hclean _ hs,hword⟩
      have := hother (p++a::b::q) (by grind) (hcut p a b q) (by simp)
      simp at this
    · rintro a b ⟨p,q,rfl⟩
      by_contra hshort
      have hjoin := isSegment_cut.mpr ⟨hclean a (by simp),hclean b (by simp),not_lt.mp hshort⟩
      have := hother (p++(a++ ':'::b)::q) (by grind) (by simp [hcut]) (by simp)
      simp at this
  · rintro ⟨hwhole,hlong⟩ o' ss' h'
    obtain ⟨-,hss,hname⟩ := tenantNamespace_ok.mp h'
    have hrest := (List.cons.inj (List.append_cancel_left hname)).2
    obtain ⟨htext,hbehind⟩ := List.append_inj hrest (o.canonical.trans o'.canonical.symm)
    constructor
    · cases o
      cases o'
      cases htext
      rfl
    · exact behind_injective hwhole hlong (by simpa using hss) hbehind.symm

def sampleId : Uuid := ⟨"00000000-0000-0000-0000-000000000001".toList,rfl⟩

/-- With the colon the two fill a segment and one character more. -/
def lockPath : List Text := ["locks".toList,List.replicate 123 'a']

theorem locks_unique : ∃ name, tenantNamespace sampleId lockPath = .ok name ∧
    ∀ o ss, tenantNamespace o ss = .ok name → o = sampleId ∧ ss.map strip = lockPath := by
  have hstrip : lockPath.map strip = lockPath := by decide +kernel
  have hok := (@tenantNamespace_ok sampleId lockPath _).mpr ⟨by decide,by decide +kernel,rfl⟩
  have hiff := name_unique_iff sampleId lockPath _ hok
  rw [hstrip] at hok hiff
  refine ⟨_,hok,hiff.mpr ⟨?_,?_⟩⟩
  · rintro s hs a b rfl
    have hplain : ∀ t ∈ lockPath, ':' ∉ t := by decide +kernel
    exact absurd (by simp) (hplain _ hs)
  · intro a b hab
    cases hab.eq_of_length rfl
    decide +kernel

/-- Two segments have the name of the one segment that joins them. -/
theorem segments_collide :
    tenantNamespace sampleId ["a".toList,"b".toList] = tenantNamespace sampleId ["a:b".toList] ∧
      (tenantNamespace sampleId ["a:b".toList]).isOk ∧
      ["a".toList,"b".toList].map strip ≠ ["a:b".toList].map strip :=
  ⟨rfl,rfl,by decide⟩

end NexusAi.Core
