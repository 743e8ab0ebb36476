import Mathlib.Data.List.Basic
import StyleImports.Proofs.Path.Parts

/-!
# Cleaned paths

Cleaning leaves a root or some `..` in front of names (`Cleaned`), and cleaning again changes
nothing. Cleaned paths are canonical. Names at the end of a path survive whatever stands before
them (`cleanParts_append_names`), so a relative path that is cleaned again below a base keeps its
names.

A canonical path without backslashes is reported under its own spelling
(`IsCanonical.asDependency_eq`).
-/

set_option autoImplicit false

namespace StyleImports

/-- A part that is the name of an entry. -/
def Part.IsName : Part → Prop
  | .name n => Path.isIdle n = false ∧ n ≠ ['.', '.'] ∧ '/' ∉ n
  | _ => False

instance : DecidablePred Part.IsName
  | .name n => inferInstanceAs (Decidable (Path.isIdle n = false ∧ n ≠ ['.', '.'] ∧ '/' ∉ n))
  | .root | .here | .up => inferInstanceAs (Decidable False)

theorem Part.IsName.isSegment {part : Part} (h : part.IsName) : part.IsSegment := by
  cases part with
  | name n => exact h
  | _ => cases h

theorem Part.isSegment_of_mem_ups {count : Nat} {names : List Part}
    (h : ∀ part ∈ names, part.IsName) :
    ∀ part ∈ List.replicate count .up ++ names, part.IsSegment := by
  intro part hpart
  rcases List.mem_append.1 hpart with hpart | hpart
  · rw [List.eq_of_mem_replicate hpart]
    exact True.intro
  · exact (h part hpart).isSegment

namespace Path

/-! ## Cleaning -/

/-- What cleaning leaves of a path, the last part first: names down to a root or to some `..`. -/
inductive Cleaned : List Part → Prop where
  | root : Cleaned [.root]
  | ups (count : Nat) : Cleaned (List.replicate count .up)
  | name {done : List Part} {n : Text} : Cleaned done → (Part.name n).IsName →
      Cleaned (.name n :: done)

theorem cleanStep_name (done : List Part) (n : Text) :
    cleanStep done (.name n) = .name n :: done := by
  unfold cleanStep
  split <;> simp_all

theorem Cleaned.step {done : List Part} {part : Part} (h : Cleaned done) (hpart : part.IsSegment) :
    Cleaned (cleanStep done part) := by
  cases part with
  | root => cases hpart
  | here => cases hpart
  | up =>
    cases h with
    | root => exact .root
    | ups count =>
      cases count with
      | zero => exact .ups 1
      | succ count => exact .ups (count + 2)
    | name hdone _ => exact hdone
  | name n =>
    rw [cleanStep_name]
    exact .name h hpart

theorem Cleaned.foldl {ps done : List Part} (h : Cleaned done)
    (hps : ∀ part ∈ ps, part.IsSegment) : Cleaned (ps.foldl cleanStep done) := by
  induction ps generalizing done with
  | nil => exact h
  | cons part ps ih =>
    exact ih (h.step (hps part List.mem_cons_self)) fun q hq => hps q (List.mem_cons_of_mem _ hq)

theorem cleaned_cleanParts {ps : List Part} (h : Spelled ps) : Cleaned (cleanParts ps).reverse := by
  rw [cleanParts, List.reverse_reverse]
  cases ps with
  | nil => exact .ups 0
  | cons first rest =>
    rw [List.foldl_cons]
    refine Cleaned.foldl ?_ h.2
    rcases h.1 with rfl | rfl | hfirst
    · exact .root
    · exact .ups 0
    · exact (Cleaned.ups 0).step hfirst

theorem foldl_cleanStep_ups (count : Nat) :
    (List.replicate count Part.up).foldl cleanStep [] = List.replicate count .up := by
  induction count with
  | zero => rfl
  | succ count ih =>
    rw [List.replicate_succ', List.foldl_append, ih, List.foldl_cons, List.foldl_nil,
      ← List.replicate_succ', List.replicate_succ]
    cases count <;> rfl

theorem Cleaned.foldl_reverse {done : List Part} (h : Cleaned done) :
    done.reverse.foldl cleanStep [] = done := by
  induction h with
  | root => rfl
  | ups count => rw [List.reverse_replicate, foldl_cleanStep_ups]
  | name _ _ ih =>
    rw [List.reverse_cons, List.foldl_append, ih, List.foldl_cons, List.foldl_nil, cleanStep_name]

theorem cleanParts_of_cleaned {ps : List Part} (h : Cleaned ps.reverse) : cleanParts ps = ps := by
  have hfold := h.foldl_reverse
  rw [List.reverse_reverse] at hfold
  rw [cleanParts, hfold, List.reverse_reverse]

theorem cleanParts_append_names {names : List Part} (h : ∀ part ∈ names, part.IsName)
    (ps : List Part) : cleanParts (ps ++ names) = cleanParts ps ++ names := by
  induction names using List.reverseRecOn with
  | nil => simp
  | append_singleton names part ih =>
    have hpart := h part (List.mem_append_right _ List.mem_cons_self)
    have hnames := ih fun q hq => h q (List.mem_append_left _ hq)
    cases part with
    | name n =>
      rw [← List.append_assoc, ← List.append_assoc, ← hnames, cleanParts, List.foldl_append,
        List.foldl_cons, List.foldl_nil, cleanStep_name, List.reverse_cons]
      rfl
    | _ => cases hpart

/-- What is left after cleaning: the root or some `..`, and then names. -/
theorem Cleaned.exists_names {done : List Part} (h : Cleaned done) :
    ∃ stem names, done.reverse = stem ++ names ∧ (∀ part ∈ names, part.IsName) ∧
      (stem = [.root] ∨ ∃ count, stem = List.replicate count .up) := by
  induction h with
  | root => exact ⟨[.root], [], rfl, fun _ h => (nomatch h), .inl rfl⟩
  | ups count =>
    exact ⟨List.replicate count .up, [], by simp, fun _ h => (nomatch h), .inr ⟨count, rfl⟩⟩
  | @name done n _ hname ih =>
    obtain ⟨stem, names, hdone, hnames, hstem⟩ := ih
    refine ⟨stem, names ++ [.name n], by simp [hdone], fun part hpart => ?_, hstem⟩
    rcases List.mem_append.1 hpart with hpart | hpart
    · exact hnames part hpart
    · rw [List.mem_singleton.1 hpart]
      exact hname

/-! ## Clean paths -/

theorem spelled_of_cleaned {ps : List Part} (h : Cleaned ps.reverse) : Spelled ps := by
  obtain ⟨stem, names, hps, hnames, hstem⟩ := h.exists_names
  rw [List.reverse_reverse] at hps
  rw [hps]
  rcases hstem with rfl | ⟨count, rfl⟩
  · exact ⟨.inl rfl, fun part hpart => (hnames part hpart).isSegment⟩
  · exact spelled_of_isSegment (Part.isSegment_of_mem_ups hnames)

/-- The parts of a clean path, a single `.` when nothing is left. -/
theorem parts_clean (p : Path) :
    p.clean.parts = if cleanParts p.parts = [] then [.here] else cleanParts p.parts := by
  have hcleaned := cleaned_cleanParts p.spelled_parts
  rw [clean]
  split
  case h_1 hnil => rw [hnil]; rfl
  case h_2 hne =>
    rw [parts_ofParts (spelled_of_cleaned hcleaned), if_neg hne]

theorem parts_clean_ne_nil (p : Path) : p.clean.parts ≠ [] := by
  rw [parts_clean]
  split
  · simp
  · assumption

theorem isCanonical_clean (p : Path) : p.clean.IsCanonical := by
  rw [clean]
  split
  · rfl
  · exact isCanonical_ofParts (spelled_of_cleaned (cleaned_cleanParts p.spelled_parts))

/-- A clean path is `.` or has cleaned parts. -/
theorem clean_eq_or_cleaned (p : Path) : p.clean = ⟨['.']⟩ ∨ Cleaned p.clean.parts.reverse := by
  by_cases hnil : cleanParts p.parts = []
  · refine .inl ?_
    rw [clean, hnil]
  · refine .inr ?_
    rw [parts_clean, if_neg hnil]
    exact cleaned_cleanParts p.spelled_parts

theorem clean_of_cleaned {p : Path} (hp : p.IsCanonical) (hne : p.parts ≠ [])
    (h : Cleaned p.parts.reverse) : p.clean = p := by
  rw [clean, cleanParts_of_cleaned h]
  split
  · contradiction
  · exact hp

theorem clean_clean (p : Path) : p.clean.clean = p.clean := by
  rcases p.clean_eq_or_cleaned with hdot | hcleaned
  · rw [hdot]
    rfl
  · exact clean_of_cleaned p.isCanonical_clean p.parts_clean_ne_nil hcleaned

/-! ## Characters of a path -/

section
variable {c : Char}

theorem not_mem_of_mem_body {t n : Text} (h : c ∉ t) (hn : Part.name n ∈ body t) : c ∉ n := by
  obtain ⟨segment, hsegment, heq⟩ := List.mem_map.1 hn
  have htext : segment = n := by rw [← text_partOf segment, heq]; rfl
  rw [← htext]
  exact fun hc => h (Text.mem_of_mem_splitOn (List.mem_filter.1 hsegment).1 hc)

theorem not_mem_of_mem_parts {p : Path} (h : c ∉ p.text) {n : Text}
    (hn : Part.name n ∈ p.parts) : c ∉ n := by
  rw [parts_eq, List.mem_append] at hn
  rcases hn with hn | hn
  · unfold headParts at hn
    split at hn <;> simp at hn
  · exact not_mem_of_mem_body h hn

theorem not_mem_join {base p : Path} (hslash : c ≠ '/') (hbase : c ∉ base.text) (hp : c ∉ p.text) :
    c ∉ (base.join p).text := by
  rw [Path.join]
  split
  · exact hp
  · split
    · exact fun hc => (List.mem_append.1 hc).elim hbase hp
    · intro hc
      rcases List.mem_append.1 hc with hc | hc
      · exact hbase hc
      · exact (List.mem_cons.1 hc).elim hslash hp

theorem not_mem_text_of_names {part : Part} (hslash : c ≠ '/') (hdot : c ≠ '.')
    (h : ∀ n, part = .name n → c ∉ n) : c ∉ part.text := by
  cases part with
  | name n => exact h n rfl
  | _ => simp [Part.text, hslash, hdot]

theorem not_mem_ofParts {ps : List Part} (hslash : c ≠ '/') (hdot : c ≠ '.')
    (h : ∀ n, Part.name n ∈ ps → c ∉ n) : c ∉ (ofParts ps).text := by
  induction ps using List.reverseRecOn with
  | nil => exact List.not_mem_nil
  | append_singleton ps part ih =>
    rw [ofParts_append_singleton]
    refine not_mem_join hslash (ih fun n hn => h n (List.mem_append_left _ hn))
      (not_mem_text_of_names hslash hdot fun n hn => ?_)
    exact h n (List.mem_append_right _ (hn ▸ List.mem_cons_self))

/-- A canonical path holds none but the characters of its names, slashes and dots. -/
theorem IsCanonical.not_mem {p : Path} (hp : p.IsCanonical) (hslash : c ≠ '/') (hdot : c ≠ '.')
    (h : ∀ n, Part.name n ∈ p.parts → c ∉ n) : c ∉ p.text := by
  rw [← hp]
  exact not_mem_ofParts hslash hdot h

end

/-! ## Backslashes -/

/-- A path without backslashes. -/
def IsPlain (p : Path) : Prop := '\\' ∉ p.text

instance (p : Path) : Decidable p.IsPlain := inferInstanceAs (Decidable ('\\' ∉ p.text))

theorem IsPlain.of_mem_parts {p : Path} (h : p.IsPlain) {n : Text} (hn : Part.name n ∈ p.parts) :
    '\\' ∉ n :=
  not_mem_of_mem_parts h hn

theorem IsPlain.join {base p : Path} (hbase : base.IsPlain) (hp : p.IsPlain) :
    (base.join p).IsPlain :=
  not_mem_join (by decide) hbase hp

theorem isPlain_text {part : Part} (h : ∀ n, part = .name n → '\\' ∉ n) :
    (⟨part.text⟩ : Path).IsPlain :=
  not_mem_text_of_names (by decide) (by decide) h

theorem IsCanonical.isPlain {p : Path} (hp : p.IsCanonical)
    (h : ∀ n, Part.name n ∈ p.parts → '\\' ∉ n) : p.IsPlain :=
  hp.not_mem (by decide) (by decide) h

theorem mem_of_mem_foldl_cleanStep {ps done : List Part} {part : Part}
    (h : part ∈ ps.foldl cleanStep done) : part ∈ done ∨ part ∈ ps := by
  induction ps generalizing done with
  | nil => exact .inl h
  | cons next ps ih =>
    rcases ih h with h | h
    · have hstep : part ∈ done ∨ part = next := by
        unfold cleanStep at h
        split at h <;> simp_all
        tauto
      rcases hstep with h | rfl
      · exact .inl h
      · exact .inr List.mem_cons_self
    · exact .inr (List.mem_cons_of_mem _ h)

theorem IsPlain.clean {p : Path} (h : p.IsPlain) : p.clean.IsPlain := by
  refine p.isCanonical_clean.isPlain fun n hn => h.of_mem_parts ?_
  rw [parts_clean] at hn
  split at hn
  · simp at hn
  · exact (mem_of_mem_foldl_cleanStep (List.mem_reverse.1 hn)).resolve_left List.not_mem_nil

/-! ## Reported spellings -/

theorem isPlain_asDependency (p : Path) : p.asDependency.IsPlain := by
  have hslashed : '\\' ∉ p.forwardSlashes.text := by
    intro hc
    obtain ⟨c, _, heq⟩ := List.mem_map.1 hc
    split at heq
    · cases heq
    · exact absurd heq ‹_›
  rw [IsPlain, asDependency]
  cases hmark : verbatimMark.isPrefixOf? p.forwardSlashes.text with
  | none => exact hslashed
  | some rest =>
    have happend := List.append_eq_of_isPrefixOf?_eq_some hmark
    rw [← happend] at hslashed
    exact fun hc => hslashed (List.mem_append_right _ hc)

/-- A text that neither starts with two slashes nor ends in one, unless it is the root. -/
def Neat (t : Text) : Prop := (t.getLast? = some '/' → t = ['/']) ∧ ∀ rest, t ≠ '/' :: '/' :: rest

theorem Neat.join {base : Path} {part : Part} (hbase : Neat base.text) (hpart : part.IsSegment) :
    Neat (base.join ⟨part.text⟩).text := by
  have hslash := not_mem_text hpart
  have hne : part.text ≠ [] := fun hnil => by
    have hidle := isIdle_text hpart
    rw [hnil] at hidle
    cases hidle
  -- The path ends as the part does, and no part ends in a slash.
  have hend : ∀ t : Text, (t ++ part.text).getLast? ≠ some '/' := fun t hlast => by
    rw [List.getLast?_append, List.getLast?_eq_some_getLast hne, Option.some_or,
      Option.some.injEq] at hlast
    exact hslash (hlast ▸ List.getLast_mem hne)
  rw [Path.join, isAbsolute_of_isSegment hpart, if_neg Bool.false_ne_true]
  split
  case isTrue h =>
    refine ⟨fun hlast => absurd hlast (hend base.text), fun rest heq => ?_⟩
    have hmem : ∀ t, part.text ≠ '/' :: t := fun t ht => hslash (ht ▸ List.mem_cons_self)
    by_cases hnil : base.text = []
    · simp only [hnil, List.nil_append] at heq
      exact hmem _ heq
    · have hroot : base.text = ['/'] := hbase.1 (by simpa [hnil] using h)
      simp only [hroot, List.singleton_append, List.cons.injEq, true_and] at heq
      exact hmem _ heq
  case isFalse h =>
    simp only [Bool.or_eq_true, decide_eq_true_eq, not_or] at h
    refine ⟨fun hlast => ?_, fun rest heq => ?_⟩
    · have happend : base.text ++ '/' :: part.text = (base.text ++ ['/']) ++ part.text := by simp
      rw [happend] at hlast
      exact absurd hlast (hend _)
    · cases hb : base.text with
      | nil => exact h.1 hb
      | cons c more =>
        cases more with
        | nil =>
          simp only [hb, List.cons_append, List.nil_append, List.cons.injEq] at heq
          exact h.2 (by rw [hb, heq.1]; rfl)
        | cons d more =>
          simp only [hb, List.cons_append, List.cons.injEq] at heq
          exact hbase.2 more (by rw [hb, heq.1, heq.2.1])

theorem neat_ofParts {ps : List Part} (h : Spelled ps) : Neat (ofParts ps).text := by
  induction ps using List.reverseRecOn with
  | nil => exact ⟨by decide, by simp [ofParts]⟩
  | append_singleton ps part ih =>
    by_cases hne : ps = []
    · rw [hne, List.nil_append] at h ⊢
      rcases h.1 with rfl | rfl | hpart
      · exact ⟨by decide, by simp [ofParts_singleton, Part.text]⟩
      · exact ⟨by decide, by simp [ofParts_singleton, Part.text]⟩
      · have hempty : Neat (⟨[]⟩ : Path).text := ⟨by decide, by simp⟩
        exact hempty.join hpart
    · obtain ⟨hps, hpart⟩ := h.of_append_singleton hne
      rw [ofParts_append_singleton]
      exact (ih hps).join hpart

theorem forwardSlashes_of_isPlain {p : Path} (h : p.IsPlain) : p.forwardSlashes = p := by
  obtain ⟨t⟩ := p
  have hkept : ∀ c ∈ t, (if c = '\\' then '/' else c) = c := fun c hc =>
    if_neg fun (heq : c = '\\') => h (heq ▸ hc)
  have hmap : t.map (fun c => if c = '\\' then '/' else c) = t :=
    (List.map_congr_left hkept).trans (List.map_id' t)
  rw [forwardSlashes, hmap]

/-- A path without backslashes and without the verbatim mark is reported under its own spelling. -/
theorem IsPlain.asDependency_eq {p : Path} (h : p.IsPlain) (hmark : ¬ verbatimMark <+: p.text) :
    p.asDependency = p := by
  have hnone : verbatimMark.isPrefixOf? p.text = none := by
    rw [Option.eq_none_iff_forall_ne_some]
    exact fun rest hrest => hmark ⟨rest, List.append_eq_of_isPrefixOf?_eq_some hrest⟩
  rw [asDependency, forwardSlashes_of_isPlain h, hnone]
  rfl

theorem IsCanonical.not_marked {p : Path} (hp : p.IsCanonical) : ¬ verbatimMark <+: p.text := by
  have hneat : Neat p.text := by
    rw [← hp]
    exact neat_ofParts p.spelled_parts
  rintro ⟨rest, hrest⟩
  exact hneat.2 ("?/" ++ rest) hrest.symm

/-- A canonical path without backslashes is reported under its own spelling. -/
theorem IsCanonical.asDependency_eq {p : Path} (hp : p.IsCanonical) (h : p.IsPlain) :
    p.asDependency = p :=
  h.asDependency_eq hp.not_marked

end Path

end StyleImports
