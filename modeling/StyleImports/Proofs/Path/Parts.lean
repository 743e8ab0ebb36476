import Mathlib.Data.List.Induction
import StyleImports.Path.Spelling

/-!
# Paths and their parts

A path has its leading part, if any, and then the parts of its segments (`parts_eq`), so joining a
relative path appends parts (`parts_join`). A list of parts that a path can have (`Spelled`) is what
the path built from it has (`parts_ofParts`). A path that is spelled as its parts are
(`IsCanonical`) is therefore known by them. Cleaned paths are canonical, and what cleaning leaves is
a root or some `..` in front of names (`Cleaned`).
-/

set_option autoImplicit false

namespace StyleImports

namespace Text

theorem exists_splitOn_cons (sep : Char) (t : Text) :
    ∃ part parts, splitOn sep t = part :: parts :=
  List.exists_cons_of_ne_nil (splitOn_ne_nil sep t)

theorem splitOn_cons_of_ne {sep c : Char} {t part : Text} {parts : List Text} (hc : c ≠ sep)
    (ht : splitOn sep t = part :: parts) : splitOn sep (c :: t) = (c :: part) :: parts := by
  simp [splitOn, hc, ht]

theorem splitOn_cons_self (sep : Char) (t : Text) :
    splitOn sep (sep :: t) = [] :: splitOn sep t := by
  simp [splitOn]

theorem length_splitOn (sep : Char) (t : Text) : (splitOn sep t).length = t.count sep + 1 := by
  induction t with
  | nil => rfl
  | cons c t ih =>
    by_cases hc : c = sep
    · rw [hc, splitOn_cons_self, List.length_cons, ih, List.count_cons_self]
    · obtain ⟨part, parts, ht⟩ := exists_splitOn_cons sep t
      rw [splitOn_cons_of_ne hc ht, List.count_cons_of_ne hc, ← ih, ht]
      rfl

theorem splitOn_append_sep (sep : Char) (a b : Text) :
    splitOn sep (a ++ sep :: b) = splitOn sep a ++ splitOn sep b := by
  induction a with
  | nil => simp [splitOn]
  | cons c rest ih =>
    simp only [List.cons_append, splitOn, ih]
    split
    · rfl
    · cases hs : splitOn sep rest with
      | nil => exact absurd hs (splitOn_ne_nil sep rest)
      | cons part parts => simp

theorem splitOn_of_not_mem {sep : Char} {t : Text} (h : sep ∉ t) : splitOn sep t = [t] := by
  induction t with
  | nil => rfl
  | cons c rest ih =>
    rw [List.mem_cons, not_or] at h
    simp [splitOn, ih h.2, Ne.symm h.1]

theorem mem_of_mem_splitOn {sep c : Char} {t part : Text} (hpart : part ∈ splitOn sep t)
    (hc : c ∈ part) : c ∈ t := by
  induction t generalizing part with
  | nil =>
    rw [splitOn, List.mem_singleton] at hpart
    exact hpart ▸ hc
  | cons d rest ih =>
    rw [splitOn] at hpart
    split at hpart
    · rcases List.mem_cons.1 hpart with rfl | hpart
      · cases hc
      · exact List.mem_cons_of_mem _ (ih hpart hc)
    · cases hs : splitOn sep rest with
      | nil => exact absurd hs (splitOn_ne_nil sep rest)
      | cons first parts =>
        simp only [hs, List.mem_cons] at hpart ih
        rcases hpart with rfl | hpart
        · exact (List.mem_cons.1 hc).elim (fun h => h ▸ List.mem_cons_self)
            fun h => List.mem_cons_of_mem _ (ih (.inl rfl) h)
        · exact List.mem_cons_of_mem _ (ih (.inr hpart) hc)

end Text

/-- A part that can follow another: `..` or the name of an entry. -/
def Part.IsSegment : Part → Prop
  | .up => True
  | .name n => Path.isIdle n = false ∧ n ≠ ['.', '.'] ∧ '/' ∉ n
  | _ => False

namespace Path

/-! ## Segments -/

/-- The parts that the segments of a text stand for. -/
def body (t : Text) : List Part := ((Text.splitOn '/' t).filter (!isIdle ·)).map partOf

theorem body_append_slash (a b : Text) : body (a ++ '/' :: b) = body a ++ body b := by
  simp [body, Text.splitOn_append_sep]

theorem isSegment_partOf {segment : Text} (hidle : isIdle segment = false)
    (hslash : '/' ∉ segment) : (partOf segment).IsSegment := by
  rw [partOf]
  split
  case isTrue => exact True.intro
  case isFalse hup => exact ⟨hidle, hup, hslash⟩

theorem isSegment_of_mem_body {t : Text} {part : Part} (h : part ∈ body t) : part.IsSegment := by
  obtain ⟨segment, hsegment, rfl⟩ := List.mem_map.1 h
  obtain ⟨hmem, hidle⟩ := List.mem_filter.1 hsegment
  exact isSegment_partOf (by simpa using hidle) (Text.not_mem_of_mem_splitOn hmem)

theorem cutHead_of_not_mem {t : Text} (hidle : isIdle t = false) (hslash : '/' ∉ t) :
    cutHead t = ([], t) := by
  unfold cutHead
  split
  · simp at hslash
  · simp [isIdle] at hidle
  · simp at hslash
  · rfl

theorem body_text {part : Part} (h : part.IsSegment) : body part.text = [part] := by
  cases part with
  | root => cases h
  | here => cases h
  | up => rfl
  | name n => simp [body, Part.text, Text.splitOn_of_not_mem h.2.2, h.1, partOf, h.2.1]

theorem not_mem_text {part : Part} (h : part.IsSegment) : '/' ∉ part.text := by
  cases part with
  | root => cases h
  | here => cases h
  | up => decide
  | name n => exact h.2.2

theorem isIdle_text {part : Part} (h : part.IsSegment) : isIdle part.text = false := by
  cases part with
  | root => cases h
  | here => cases h
  | up => decide
  | name n => exact h.1

theorem text_partOf (segment : Text) : (partOf segment).text = segment := by
  rw [partOf]
  split
  case isTrue hup => rw [hup]; rfl
  case isFalse => rfl

theorem body_of_segment {segment : Text} (hidle : isIdle segment = false) (hslash : '/' ∉ segment) :
    body segment = [partOf segment] := by
  have hbody := body_text (isSegment_partOf hidle hslash)
  rwa [text_partOf] at hbody

/-! ## Heads -/

theorem parts_eq (p : Path) : p.parts = headParts (cutHead p.text).1 ++ body p.text := by
  obtain ⟨t⟩ := p
  simp only [parts, segments, body]
  unfold cutHead
  split <;> simp [Text.splitOn, isIdle, headParts]

theorem body_eq_parts {p : Path} (h : ∀ part ∈ p.parts, part.IsSegment) :
    body p.text = p.parts := by
  rw [parts_eq] at h ⊢
  unfold headParts at h ⊢
  split at h
  · exact (h .root List.mem_cons_self).elim
  · exact (h .here List.mem_cons_self).elim
  · rfl

theorem isAbsolute_iff {p : Path} : p.isAbsolute = true ↔ ∃ t, p.text = '/' :: t := by
  obtain ⟨t⟩ := p
  cases t <;> simp [isAbsolute]

theorem cutHead_append_slash {a : Text} (h : a ≠ []) (b : Text) :
    (cutHead (a ++ '/' :: b)).1 = (cutHead a).1 := by
  match a with
  | [c] => by_cases hc : c = '/' <;> by_cases hd : c = '.' <;> simp_all [cutHead]
  | c :: d :: rest =>
    by_cases hc : c = '/' <;> by_cases hd : c = '.' <;> by_cases he : d = '/' <;>
      simp_all [cutHead]

/-- A relative path adds its segments to the parts of the base. -/
theorem parts_join {base p : Path} (hbase : base.text ≠ []) (hp : p.isAbsolute = false) :
    (base.join p).parts = base.parts ++ body p.text := by
  rw [join, hp, if_neg Bool.false_ne_true]
  by_cases hend : base.text.getLast? = some '/'
  · obtain ⟨a, ha⟩ := List.getLast?_eq_some_iff.1 hend
    have hhead : ∀ t, (cutHead (a ++ '/' :: t)).1 = (cutHead base.text).1 := fun t => by
      rw [ha]
      by_cases hne : a = []
      · simp [hne, cutHead]
      · rw [cutHead_append_slash hne, cutHead_append_slash hne]
    have hnil : body ([] : Text) = [] := rfl
    simp only [hend, decide_true, Bool.or_true, if_true, parts_eq]
    rw [ha, List.append_assoc, List.singleton_append, hhead, ← ha, body_append_slash, ha,
      body_append_slash, hnil, List.append_nil, List.append_assoc]
  · simp only [hbase, hend, decide_false, Bool.or_self, Bool.false_eq_true, if_false, parts_eq,
      cutHead_append_slash hbase, body_append_slash, List.append_assoc]

theorem join_nil (p : Path) : (⟨[]⟩ : Path).join p = p := by
  simp [join]

/-- Only the empty path has no parts. -/
theorem parts_eq_nil_iff {p : Path} : p.parts = [] ↔ p.text = [] := by
  refine ⟨fun h => ?_, fun h => by rw [show p = ⟨[]⟩ from congrArg Path.mk h]; rfl⟩
  rw [parts_eq, List.append_eq_nil_iff] at h
  obtain ⟨hhead, hbody⟩ := h
  obtain ⟨t⟩ := p
  unfold cutHead at hhead
  split at hhead
  case h_1 => cases hhead
  case h_2 => cases hhead
  case h_3 => cases hhead
  case h_4 hroot hhere hdot =>
    -- Without a head the first segment is not idle, so it is a part.
    by_cases hslash : '/' ∈ t
    · obtain ⟨a, b, rfl, ha⟩ := List.eq_append_cons_of_mem hslash
      have hidle : isIdle a = false := by
        simp only [isIdle, Bool.or_eq_false_iff, decide_eq_false_iff_not]
        exact ⟨fun hnil => hroot b (by rw [hnil]; rfl), fun hdot' => hdot b (by rw [hdot']; rfl)⟩
      rw [body_append_slash, body_of_segment hidle ha] at hbody
      cases hbody
    · by_contra hne
      have hidle : isIdle t = false := by
        simp only [isIdle, Bool.or_eq_false_iff, decide_eq_false_iff_not]
        exact ⟨hne, hhere⟩
      rw [body_of_segment hidle hslash] at hbody
      cases hbody

theorem text_ne_nil_of_parts {p : Path} (h : p.parts ≠ []) : p.text ≠ [] := fun hnil =>
  h (parts_eq_nil_iff.2 hnil)

/-! ## Lists of parts -/

/-- Parts that a path can have: any part that has a text may come first, segments after it. -/
def Spelled : List Part → Prop
  | [] => True
  | first :: rest =>
    (first = .root ∨ first = .here ∨ first.IsSegment) ∧ ∀ part ∈ rest, part.IsSegment

theorem spelled_of_isSegment {ps : List Part} (h : ∀ part ∈ ps, part.IsSegment) : Spelled ps := by
  cases ps with
  | nil => exact True.intro
  | cons first rest => exact ⟨.inr (.inr (h first List.mem_cons_self)), fun part hpart =>
      h part (List.mem_cons_of_mem _ hpart)⟩

theorem spelled_parts (p : Path) : Spelled p.parts := by
  have hbody : ∀ part ∈ body p.text, part.IsSegment := fun part => isSegment_of_mem_body
  rw [parts_eq]
  unfold headParts
  split
  · exact ⟨.inl rfl, hbody⟩
  · exact ⟨.inr (.inl rfl), hbody⟩
  · exact spelled_of_isSegment hbody

theorem ofParts_append_singleton (ps : List Part) (part : Part) :
    ofParts (ps ++ [part]) = (ofParts ps).join ⟨part.text⟩ := by
  simp [ofParts]

theorem ofParts_singleton (part : Part) : ofParts [part] = ⟨part.text⟩ := join_nil _

theorem isAbsolute_of_isSegment {part : Part} (h : part.IsSegment) :
    (⟨part.text⟩ : Path).isAbsolute = false := by
  rw [Bool.eq_false_iff]
  intro habs
  obtain ⟨t, ht⟩ := isAbsolute_iff.1 habs
  have hslash := not_mem_text h
  rw [show part.text = '/' :: t from ht] at hslash
  exact hslash List.mem_cons_self

theorem Spelled.of_append_singleton {ps : List Part} {part : Part} (h : Spelled (ps ++ [part]))
    (hne : ps ≠ []) : Spelled ps ∧ part.IsSegment := by
  cases ps with
  | nil => exact absurd rfl hne
  | cons first rest =>
    exact ⟨⟨h.1, fun q hq => h.2 q (List.mem_append_left _ hq)⟩,
      h.2 part (List.mem_append_right _ List.mem_cons_self)⟩

theorem Spelled.append {ps qs : List Part} (hps : Spelled ps) (hqs : ∀ part ∈ qs, part.IsSegment) :
    Spelled (ps ++ qs) := by
  cases ps with
  | nil => exact spelled_of_isSegment hqs
  | cons first rest =>
    exact ⟨hps.1, fun q hq => (List.mem_append.1 hq).elim (hps.2 q) (hqs q)⟩

/-- A path has the parts that it is built from. -/
theorem parts_ofParts {ps : List Part} (h : Spelled ps) : (ofParts ps).parts = ps := by
  induction ps using List.reverseRecOn with
  | nil => rfl
  | append_singleton ps part ih =>
    by_cases hne : ps = []
    · rw [hne, List.nil_append, ofParts_singleton]
      rw [hne, List.nil_append] at h
      rcases h.1 with rfl | rfl | hsegment
      · rfl
      · rfl
      · rw [parts_eq, cutHead_of_not_mem (isIdle_text hsegment) (not_mem_text hsegment),
          body_text hsegment]
        rfl
    · obtain ⟨hps, hpart⟩ := h.of_append_singleton hne
      have hparts := ih hps
      have htext := text_ne_nil_of_parts (by rw [hparts]; exact hne)
      rw [ofParts_append_singleton, parts_join htext (isAbsolute_of_isSegment hpart), hparts,
        body_text hpart]

/-! ## Canonical paths -/

/-- A path that is spelled as its parts are. -/
def IsCanonical (p : Path) : Prop := ofParts p.parts = p

theorem isCanonical_ofParts {ps : List Part} (h : Spelled ps) : (ofParts ps).IsCanonical := by
  rw [IsCanonical, parts_ofParts h]

/-- A canonical path is known by its parts. -/
theorem IsCanonical.eq_of_same {p q : Path} (hp : p.IsCanonical) (hq : q.IsCanonical)
    (h : p.same q = true) : p = q := by
  rw [← hp, ← hq, same_iff.1 h]

theorem IsCanonical.join {p : Path} (hp : p.IsCanonical) {n : Text}
    (hidle : isIdle n = false) (hslash : '/' ∉ n) :
    (p.join ⟨n⟩).IsCanonical ∧ (p.join ⟨n⟩).parts = p.parts ++ [partOf n] := by
  have hsegment := isSegment_partOf hidle hslash
  have hspelled : Spelled (p.parts ++ [partOf n]) :=
    p.spelled_parts.append fun part hpart => by rwa [List.mem_singleton.1 hpart]
  have hjoin : p.join ⟨n⟩ = ofParts (p.parts ++ [partOf n]) := by
    rw [ofParts_append_singleton, hp, text_partOf]
  rw [hjoin]
  exact ⟨isCanonical_ofParts hspelled, parts_ofParts hspelled⟩

end Path

end StyleImports
