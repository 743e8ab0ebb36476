import StyleImports.Proofs.Files.Plain
import StyleImports.Proofs.Lookup.Manifest

/-!
# Lookups without patterns

A lookup is static if none of the specifiers that it asks for is dynamic (`Lookup.IsStatic`). It
then only asks whether files are there. A static specifier can still be looked up by a pattern: the
name of the file that is called like its directory repeats the last part of the specifier, and a
brace that closes nothing there can close one that opens before it (`DerivesPattern`). Without such
a specifier, and without pattern signs in the paths of stored files, lookups of static specifiers
are static (`isStatic_of_memory`).
-/

set_option autoImplicit false

namespace StyleImports

/-! ## Dynamic texts -/

namespace Glob

variable {t s : Text}

/-- The characters that a text may be dynamic by. -/
def signs : Text := ['*', '{', '}', '[', ']']

theorem forall_signs {P : Char → Prop} :
    (∀ c ∈ signs, P c) ↔ P '*' ∧ P '{' ∧ P '}' ∧ P '[' ∧ P ']' := by
  simp [signs]

theorem hasGroup_eq_false {opening : Char} (closing : Char) (h : opening ∉ t) :
    hasGroup opening closing t = false := by
  induction t with
  | nil => rfl
  | cons c t ih =>
    rw [List.mem_cons, not_or] at h
    rw [← ih h.2, hasGroup, hasGroup]
    simp [Ne.symm h.1]

theorem hasGroup_prepend {opening : Char} (closing : Char) (h : opening ∉ s) (t : Text) :
    hasGroup opening closing (s ++ t) = hasGroup opening closing t := by
  induction s with
  | nil => rfl
  | cons c s ih =>
    rw [List.mem_cons, not_or] at h
    rw [← ih h.2, hasGroup, hasGroup]
    simp [Ne.symm h.1]

theorem hasGroup_append {opening closing : Char} (hopening : opening ∉ s) (hclosing : closing ∉ s)
    (t : Text) : hasGroup opening closing (t ++ s) = hasGroup opening closing t := by
  induction t with
  | nil => exact hasGroup_eq_false closing hopening
  | cons c t ih =>
    rw [hasGroup, hasGroup] at ih ⊢
    by_cases hc : c = opening
    · simp [hc, hclosing]
    · simp only [List.cons_append, List.dropWhile_cons, hc, ne_eq, not_false_eq_true, decide_true,
        if_true]
      exact ih

theorem isDynamic_append (h : ∀ c ∈ signs, c ∉ s) (t : Text) :
    isDynamic (t ++ s) = isDynamic t := by
  obtain ⟨hstar, hbrace, hclose, hbracket, hend⟩ := forall_signs.1 h
  rw [isDynamic, isDynamic, hasGroup_append hbrace hclose, hasGroup_append hbracket hend]
  simp [hstar]

theorem isDynamic_prepend (h : ∀ c ∈ signs, c ∉ s) (t : Text) :
    isDynamic (s ++ t) = isDynamic t := by
  obtain ⟨hstar, hbrace, _, hbracket, _⟩ := forall_signs.1 h
  rw [isDynamic, isDynamic, hasGroup_prepend '}' hbrace, hasGroup_prepend ']' hbracket]
  simp [hstar]

/-- The signs that open a pattern. -/
def openings : Text := ['*', '{', '[']

theorem forall_openings {P : Char → Prop} :
    (∀ c ∈ openings, P c) ↔ P '*' ∧ P '{' ∧ P '[' := by
  simp [openings]

theorem not_isDynamic (h : ∀ c ∈ openings, c ∉ t) : isDynamic t = false := by
  obtain ⟨hstar, hbrace, hbracket⟩ := forall_openings.1 h
  rw [isDynamic, hasGroup_eq_false '}' hbrace, hasGroup_eq_false ']' hbracket]
  simp [hstar]

end Glob

/-! ## Static lookups -/

namespace Path

variable {c : Char} {p dir : Path}

theorem mem_of_mem_joinWith {sep : Char} {parts : List Text}
    (h : c ∈ Text.joinWith sep parts) : c = sep ∨ ∃ part ∈ parts, c ∈ part := by
  induction parts with
  | nil => cases h
  | cons part parts ih =>
    cases parts with
    | nil => exact .inr ⟨part, List.mem_cons_self, h⟩
    | cons next parts =>
      rcases List.mem_append.1 h with h | h
      · exact .inr ⟨part, List.mem_cons_self, h⟩
      · rcases List.mem_cons.1 h with rfl | h
        · exact .inl rfl
        · obtain h | ⟨other, hother, hc⟩ := ih h
          · exact .inl h
          · exact .inr ⟨other, List.mem_cons_of_mem _ hother, hc⟩

theorem not_mem_parent? (hslash : c ≠ '/') (h : c ∉ p.text) (hdir : p.parent? = some dir) :
    c ∉ dir.text := by
  rw [← cutHead_append p.text, List.mem_append, not_or] at h
  obtain ⟨hhead, hrest⟩ := h
  simp only [parent?] at hdir
  split at hdir
  case h_1 =>
    split at hdir <;> cases hdir
    exact List.not_mem_nil
  case h_2 last kept hkept =>
    cases hdir
    have hstart : ∀ segment ∈ Text.dropEndWhile isIdle kept.reverse, segment ∈ p.segments := by
      intro segment hsegment
      have hkeptMem := (Text.dropEndWhile_isPrefix _).subset hsegment
      refine (Text.dropEndWhile_isPrefix (p := isIdle) p.segments).subset ?_
      rw [List.reverse_eq_cons_iff.1 hkept]
      exact List.mem_append_left _ hkeptMem
    intro hc
    rcases List.mem_append.1 hc with hc | hc
    · exact hhead hc
    · obtain heq | ⟨segment, hsegment, hc⟩ := mem_of_mem_joinWith hc
      · exact hslash heq
      · exact hrest (Text.mem_of_mem_splitOn (hstart segment hsegment) hc)

end Path

namespace Lookup

variable {l : Lookup} {file : Path} {specifier : Text}

/-- A lookup asks for no pattern. -/
def IsStatic (l : Lookup) (specifier : Text) (file : Path) : Prop :=
  ∀ asked, l.Asked specifier file asked → Glob.isDynamic asked = false

/-- A static specifier derives a pattern: the name of the file that is called like its directory. -/
def DerivesPattern (specifier : Text) : Prop :=
  ∃ last, (Path.mk specifier).fileName? = some last ∧
    Glob.isDynamic (specifier ++ '/' :: stem last ++ ".styl") = true

instance (specifier : Text) : Decidable (DerivesPattern specifier) :=
  decidable_of_iff ((Path.mk specifier).fileName?.any fun last =>
    Glob.isDynamic (specifier ++ '/' :: stem last ++ ".styl")) (Option.any_eq_true _ _)

/-- The manifest of the package is asked for without a pattern. -/
theorem IsStatic.manifest (h : l.IsStatic specifier file) :
    Glob.isDynamic ("node_modules/" ++ specifier ++ "/package.json") = false := by
  have hindex := h _ (.index .package)
  rw [Glob.isDynamic_append (Glob.forall_signs.2 (by decide))] at hindex ⊢
  exact hindex

/-- A static specifier names a file, if one is there. -/
theorem fileAt_of_static (h : Glob.isDynamic specifier = false) (path : Path) :
    l.fileAt path specifier = if l.fs.isFile path.clean then some [path.clean] else none := by
  simp [fileAt, Glob.isRequest, h]

theorem find_of_static (h : Glob.isDynamic specifier = false) {found : List Path}
    (hfind : l.find specifier file = some found) :
    ∃ path, found = [Path.clean path] ∧ l.fs.isFile path.clean = true := by
  have hfileAt : ∀ path, l.fileAt path specifier = some found →
      found = [path.clean] ∧ l.fs.isFile path.clean = true := by
    intro path hpath
    rw [fileAt_of_static h] at hpath
    split at hpath
    case isTrue hfile =>
      cases hpath
      exact ⟨rfl, hfile⟩
    · cases hpath
  rw [find] at hfind
  split at hfind
  · exact ⟨_, hfileAt _ hfind⟩
  · obtain ⟨dir, _, hdir⟩ := List.exists_of_findSome?_eq_some hfind
    exact ⟨_, hfileAt _ hdir⟩

theorem not_isDynamic_named {name last : Text} (hname : ∀ c ∈ Glob.openings, c ∉ name)
    (hlast : (Path.mk name).fileName? = some last) :
    Glob.isDynamic (name ++ '/' :: stem last ++ ".styl") = false := by
  have hending : ∀ c ∈ Glob.openings, c ∉ ".styl".toList ∧ c ≠ '/' :=
    Glob.forall_openings.2 (by decide)
  refine Glob.not_isDynamic fun c hc hmem => ?_
  have hstem : c ∉ stem last := by
    have hnot : c ∉ last := by
      refine Path.not_mem_of_mem_parts (hname c hc) ?_
      exact List.mem_of_getLast? (Path.fileName?_eq_some.1 hlast)
    rw [stem]
    split
    · exact fun hmem => hnot (List.mem_of_mem_take hmem)
    · exact hnot
  obtain ⟨hstyl, hslash⟩ := hending c hc
  rcases List.mem_append.1 hmem with hmem | hmem
  · rcases List.mem_append.1 hmem with hmem | hmem
    · exact hname c hc hmem
    · exact (List.mem_cons.1 hmem).elim hslash hstem
  · exact hstyl hmem

/-- A specifier that derives no pattern derives none below `node_modules`. -/
theorem not_isDynamic_package {last : Text} (hstatic : Glob.isDynamic specifier = false)
    (hderived : ¬ DerivesPattern specifier)
    (hlast : (Path.mk ("node_modules/" ++ specifier)).fileName? = some last) :
    Glob.isDynamic ("node_modules/" ++ specifier ++ '/' :: stem last ++ ".styl") = false := by
  have hderivedText : Glob.isDynamic (specifier ++ '/' :: stem last ++ ".styl") = false := by
    obtain ⟨front, hbody⟩ := Path.exists_body_of_fileName? hlast
    rw [show "node_modules/" ++ specifier = "node_modules".toList ++ '/' :: specifier from rfl,
      Path.body_append_slash] at hbody
    rcases List.eq_nil_or_concat (Path.body specifier) with hnil | ⟨stem', part, hconcat⟩
    · -- The name is `node_modules` itself.
      rw [hnil, List.append_nil] at hbody
      have hname : Part.name last = .name "node_modules" := by
        have hends := congrArg List.getLast? hbody
        rw [List.getLast?_concat] at hends
        exact (Option.some.inj hends).symm
      cases hname
      rw [List.append_assoc]
      exact (Glob.isDynamic_append (Glob.forall_signs.2 (by decide)) specifier).trans hstatic
    · rw [List.concat_eq_append] at hconcat
      have hown : (Path.mk specifier).fileName? = some last := by
        have hends := congrArg List.getLast? hbody
        rw [hconcat, ← List.append_assoc, List.getLast?_concat, List.getLast?_concat] at hends
        rw [Path.fileName?_eq_some, Path.parts_eq, hconcat, ← List.append_assoc,
          List.getLast?_concat, hends]
      simpa using fun h => hderived ⟨last, hown, h⟩
  rw [List.append_assoc] at hderivedText
  rw [List.append_assoc, List.append_assoc]
  exact (Glob.isDynamic_prepend (Glob.forall_signs.2 (by decide)) _).trans hderivedText

/-- Lookups of static specifiers are static, if no stored path holds an opening sign. -/
theorem isStatic_of_memory {m : Memory} {paths : List Path}
    (hsigns : ∀ c ∈ Glob.openings, ∀ key ∈ m.files.keys, c ∉ key.text)
    (hstatic : Glob.isDynamic specifier = false) (hderived : ¬ DerivesPattern specifier)
    (file : Path) : IsStatic ⟨m.fileSystem, paths⟩ specifier file := by
  have hpackage : Glob.isDynamic ("node_modules/" ++ specifier) = false :=
    (Glob.isDynamic_prepend (Glob.forall_signs.2 (by decide)) specifier).trans hstatic
  have hname : ∀ name, Named ⟨m.fileSystem, paths⟩ specifier file name →
      Glob.isDynamic name = false ∧ ∀ last, (Path.mk name).fileName? = some last →
        Glob.isDynamic (name ++ '/' :: stem last ++ ".styl") = false := by
    intro name hname
    cases hname with
    | itself => exact ⟨hstatic, fun last hlast => by simpa using fun h => hderived ⟨last, hlast, h⟩⟩
    | package => exact ⟨hpackage, fun last => not_isDynamic_package hstatic hderived⟩
    | @home found manifest home hfind hmanifest hhome =>
      have hmanifestStatic : Glob.isDynamic ("node_modules/" ++ specifier ++ "/package.json") =
          false := (Glob.isDynamic_append (Glob.forall_signs.2 (by decide)) _).trans hpackage
      obtain ⟨path, rfl, hfile⟩ := find_of_static hmanifestStatic hfind
      rw [List.mem_singleton.1 hmanifest] at hhome
      have hopenings : ∀ c ∈ Glob.openings, c ≠ '/' ∧ c ≠ '.' :=
        Glob.forall_openings.2 (by decide)
      have hhomeSigns : ∀ c ∈ Glob.openings, c ∉ home.text := fun c hc =>
        Path.not_mem_parent? (hopenings c hc).1 (Memory.not_mem_of_exists (hopenings c hc).1
          (hopenings c hc).2 (hsigns c hc) (FileSystem.exists_of_isFile hfile)) hhome
      exact ⟨Glob.not_isDynamic hhomeSigns, fun last => not_isDynamic_named hhomeSigns⟩
  intro asked hasked
  cases hasked with
  | itself =>
    rw [withExtension]
    split
    · exact hstatic
    · exact (Glob.isDynamic_append (Glob.forall_signs.2 (by decide)) specifier).trans hstatic
  | index h => exact (Glob.isDynamic_append (Glob.forall_signs.2 (by decide)) _).trans (hname _ h).1
  | named h hlast => exact (hname _ h).2 _ hlast

end Lookup

end StyleImports
