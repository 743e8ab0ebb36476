import StyleImports.Proofs.Path.Climb
import StyleImports.Proofs.Path.Parent

/-!
# Paths below a directory

A path lies below a directory if, both cleaned, it is the directory with names added
(`Path.IsBelow`). Segments that are names once they are cleaned by themselves add these names to
whatever stands before them (`cleanParts_append_of_names`), so a path that goes on by them from a
directory lies below it.

A clean path is written as the texts of its parts with a slash between neighbours, an empty text
for the root (`text_ofParts`).
-/

set_option autoImplicit false

namespace StyleImports.Path

variable {p q dir : Path} {names segments : List Part}

/-! ## Cleaning segments -/

theorem cleanStep_append_name {n : Text} (done more : List Part) :
    cleanStep (done ++ more) (.name n) = cleanStep done (.name n) ++ more := by
  rw [cleanStep_name, cleanStep_name, List.cons_append]

/-- Segments that are cleaned without a `..` left go back over none but their own names. -/
theorem foldl_cleanStep_of_not_mem (hsegments : ∀ part ∈ segments, part.IsSegment)
    (hup : Part.up ∉ segments.foldl cleanStep []) (done : List Part) :
    segments.foldl cleanStep done = segments.foldl cleanStep [] ++ done := by
  induction segments using List.reverseRecOn with
  | nil => rfl
  | append_singleton segments part ih =>
    have hrest : ∀ q ∈ segments, q.IsSegment := fun q hq => hsegments q (List.mem_append_left _ hq)
    have hpart := hsegments part (List.mem_append_right _ List.mem_cons_self)
    rw [List.foldl_append, List.foldl_cons, List.foldl_nil] at hup ⊢
    rw [List.foldl_append, List.foldl_cons, List.foldl_nil]
    -- What was cleaned before ends in a name or is empty.
    have hkept : ∀ q ∈ segments.foldl cleanStep [], q.IsSegment := fun q hq =>
      hrest q ((mem_of_mem_foldl_cleanStep hq).resolve_left List.not_mem_nil)
    cases part with
    | root => cases hpart
    | here => cases hpart
    | name n =>
      rw [cleanStep_name, List.mem_cons, not_or] at hup
      rw [ih hrest hup.2, cleanStep_append_name]
    | up =>
      cases hcleaned : segments.foldl cleanStep [] with
      | nil =>
        rw [hcleaned] at hup
        exact absurd List.mem_cons_self hup
      | cons last cleaned =>
        rw [hcleaned] at hup ih hkept
        cases last with
        | root => exact (hkept _ List.mem_cons_self).elim
        | here => exact (hkept _ List.mem_cons_self).elim
        | up => exact absurd (List.mem_cons_of_mem _ List.mem_cons_self) hup
        | name n =>
          have hnone : Part.up ∉ Part.name n :: cleaned := by
            rw [List.mem_cons, not_or]
            exact ⟨nofun, hup⟩
          rw [ih hrest hnone]
          rfl

/-- Segments that are names once they are cleaned add these names to whatever stands before. -/
theorem cleanParts_append_of_names (hsegments : ∀ part ∈ segments, part.IsSegment)
    (hnames : ∀ part ∈ cleanParts segments, part.IsName) (ps : List Part) :
    cleanParts (ps ++ segments) = cleanParts ps ++ cleanParts segments := by
  have hup : Part.up ∉ segments.foldl cleanStep [] := fun h =>
    hnames .up (List.mem_reverse.2 h)
  rw [cleanParts, List.foldl_append, foldl_cleanStep_of_not_mem hsegments hup, List.reverse_append]
  rfl

theorem cleanParts_of_names (hnames : ∀ part ∈ names, part.IsName) : cleanParts names = names := by
  rw [← List.nil_append names, cleanParts_append_names hnames]
  rfl

theorem append_names_ne_root (hnames : ∀ part ∈ names, part.IsName) (hne : names ≠ [])
    (ps : List Part) : ps ++ names ≠ [.root] := by
  intro hroot
  obtain ⟨last, hlast⟩ := List.exists_mem_of_ne_nil names hne
  have hmem : last ∈ [Part.root] := hroot ▸ List.mem_append_right ps hlast
  have hname := hnames last hlast
  rw [List.mem_singleton.1 hmem] at hname
  exact hname

theorem cleanParts_clean (p : Path) : cleanParts p.clean.parts = cleanParts p.parts := by
  rw [parts_clean]
  split
  case isTrue hnil =>
    rw [hnil]
    rfl
  case isFalse => exact cleanParts_of_cleaned (cleaned_cleanParts p.spelled_parts)

/-- Of a relative path, only the segments count once it is cleaned. -/
theorem cleanParts_of_relative (h : p.isAbsolute = false) :
    cleanParts p.parts = cleanParts (body p.text) := by
  rw [parts_eq]
  unfold headParts
  split
  case h_1 hhead =>
    have hroot : Part.root ∈ p.parts := by
      rw [parts_eq, hhead]
      exact List.mem_cons_self
    rw [isAbsolute_iff_parts.2 hroot] at h
    cases h
  · rfl
  · rfl

theorem clean_eq_ofParts (h : cleanParts p.parts ≠ []) :
    p.clean = ofParts (cleanParts p.parts) := by
  rw [clean]
  split
  · contradiction
  · rfl

theorem clean_of_cleanParts (h : cleanParts p.parts = cleanParts q.parts) : p.clean = q.clean := by
  rw [clean, clean, h]

theorem text_join_ne_nil (hp : p.text ≠ []) : (p.join q).text ≠ [] := by
  rw [join]
  split
  case isTrue habsolute =>
    obtain ⟨t, ht⟩ := isAbsolute_iff.1 habsolute
    rw [ht]
    exact List.cons_ne_nil _ _
  case isFalse => split <;> simp [hp]

/-- Joined and cleaned, it does not matter whether a path was cleaned before. -/
theorem clean_join_clean (p q : Path) : (p.clean.join q).clean = (p.join q).clean := by
  by_cases hq : q.isAbsolute = true
  · rw [join, join, if_pos hq, if_pos hq]
  rw [Bool.not_eq_true] at hq
  refine clean_of_cleanParts ?_
  rw [parts_join (text_ne_nil_of_parts (parts_clean_ne_nil p)) hq]
  by_cases hp : p = ⟨[]⟩
  · rw [hp, join_nil, cleanParts_of_relative hq]
    rfl
  · have htext : p.text ≠ [] := fun hnil => hp (congrArg Path.mk hnil)
    have hfold := List.reverse_injective (cleanParts_clean p)
    rw [parts_join htext hq, cleanParts, cleanParts, List.foldl_append, List.foldl_append, hfold]

theorem parts_append_slash {a : Text} (h : a ≠ []) (b : Text) :
    (⟨a ++ '/' :: b⟩ : Path).parts = (⟨a⟩ : Path).parts ++ body b := by
  rw [parts_eq, parts_eq, cutHead_append_slash h, body_append_slash, List.append_assoc]

theorem parts_join_append_slash (hp : p.text ≠ []) {a : Text} (h : a ≠ []) (b : Text) :
    (p.join ⟨a ++ '/' :: b⟩).parts = (p.join ⟨a⟩).parts ++ body b := by
  have habsolute : (⟨a ++ '/' :: b⟩ : Path).isAbsolute = (⟨a⟩ : Path).isAbsolute := by
    obtain ⟨c, a, rfl⟩ := List.exists_cons_of_ne_nil h
    rfl
  by_cases hrelative : (⟨a⟩ : Path).isAbsolute = false
  · rw [parts_join hp (habsolute.trans hrelative), parts_join hp hrelative, body_append_slash,
      List.append_assoc]
  · rw [Bool.not_eq_false] at hrelative
    rw [join, if_pos (habsolute.trans hrelative), join, if_pos hrelative, parts_append_slash h]

/-! ## Below a directory -/

/-- Cleaned, a path is a directory with names added. -/
def IsBelow (p dir : Path) : Prop :=
  ∃ names, names ≠ [] ∧ (∀ part ∈ names, part.IsName) ∧
    cleanParts p.parts = cleanParts dir.parts ++ names

theorem isBelow_of_parts (hne : names ≠ []) (hnames : ∀ part ∈ names, part.IsName)
    (h : p.parts = dir.parts ++ names) : p.IsBelow dir :=
  ⟨names, hne, hnames, by rw [h, cleanParts_append_names hnames]⟩

/-- What lies below a directory that goes on by names lies below the directory it goes on from. -/
theorem IsBelow.of_append (h : p.IsBelow q) (hnames : ∀ part ∈ names, part.IsName)
    (hq : cleanParts q.parts = cleanParts dir.parts ++ names) : p.IsBelow dir := by
  obtain ⟨more, hne, hmore, hp⟩ := h
  refine ⟨names ++ more, List.append_ne_nil_of_right_ne_nil _ hne, fun part hpart => ?_, ?_⟩
  · exact (List.mem_append.1 hpart).elim (hnames part) (hmore part)
  · rw [hp, hq, List.append_assoc]

theorem IsBelow.isPrefix (h : p.IsBelow dir) : cleanParts dir.parts <+: cleanParts p.parts := by
  obtain ⟨names, -, -, hp⟩ := h
  rw [hp]
  exact List.prefix_append _ _

/-! ## Texts -/

/-- How a part is written between slashes: the root is what stands before the first slash. -/
def segmentText : Part → Text
  | .root => []
  | part => part.text

theorem segmentText_of_isSegment {part : Part} (h : part.IsSegment) :
    segmentText part = part.text := by
  cases part with
  | root => cases h
  | _ => rfl

/-- A path of parts, other than the root, is written with a slash between its parts. -/
theorem text_ofParts {ps : List Part} (h : Spelled ps) (hroot : ps ≠ [.root]) :
    (ofParts ps).text = Text.joinWith '/' (ps.map segmentText) := by
  induction ps using List.reverseRecOn with
  | nil => rfl
  | append_singleton ps part ih =>
    by_cases hne : ps = []
    · rw [hne, List.nil_append] at h hroot ⊢
      rw [ofParts_singleton]
      cases part with
      | root => exact absurd rfl hroot
      | _ => rfl
    · obtain ⟨hps, hpart⟩ := h.of_append_singleton hne
      have hlast : ps.map segmentText ++ [part.text] = (ps ++ [part]).map segmentText := by
        rw [List.map_append, List.map_singleton, segmentText_of_isSegment hpart]
      rw [ofParts_append_singleton, ← hlast]
      by_cases hrootOnly : ps = [.root]
      · rw [hrootOnly, ofParts_singleton, join, isAbsolute_of_isSegment hpart]
        rfl
      · have htext : (ofParts ps).text ≠ [] :=
          text_ne_nil_of_parts (by rw [parts_ofParts hps]; exact hne)
        have hslash : (ofParts ps).text.getLast? ≠ some '/' := by
          intro hend
          have hwhole := (neat_ofParts hps).1 hend
          refine hrootOnly ?_
          rw [← parts_ofParts hps, show ofParts ps = ⟨['/']⟩ from congrArg Path.mk hwhole]
          rfl
        rw [join, isAbsolute_of_isSegment hpart, if_neg Bool.false_ne_true,
          if_neg (by simp [htext, hslash]), ih hps hrootOnly,
          Text.joinWith_append (by simpa using hne) (List.cons_ne_nil _ _)]
        rfl

theorem splitOn_ofParts {ps : List Part} (h : Spelled ps) (hne : ps ≠ []) (hroot : ps ≠ [.root]) :
    Text.splitOn '/' (ofParts ps).text = ps.map segmentText := by
  have hslash : ∀ t ∈ ps.map segmentText, '/' ∉ t := by
    intro t ht
    obtain ⟨part, hpart, rfl⟩ := List.mem_map.1 ht
    have hsegment : part = .root ∨ part = .here ∨ part.IsSegment := by
      cases ps with
      | nil => cases hpart
      | cons first rest =>
        rcases List.mem_cons.1 hpart with rfl | hpart
        · exact h.1
        · exact .inr (.inr (h.2 part hpart))
    rcases hsegment with rfl | rfl | hsegment
    · exact List.not_mem_nil
    · decide
    · rw [segmentText_of_isSegment hsegment]
      exact not_mem_text hsegment
  rw [text_ofParts h hroot, Text.splitOn_joinWith hslash (by simpa using hne)]

end StyleImports.Path
