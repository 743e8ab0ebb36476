import StyleImports.Files.Memory
import StyleImports.Package.Resolver
import StyleImports.Proofs.Lookup.Confined
import StyleImports.Proofs.Lookup.Twins

/-!
# What lookups answer with

Every name that a lookup asks for has the ending of a stylesheet (`Lookup.Asked.hasEnding`), and so
has what is found there; what a pattern matches is a stylesheet anyway. So a lookup answers with
stylesheets that are there (`Lookup.isStylesheet_of_resolve`), except that a name may consist of the
ending alone and that the main file which a manifest names is not asked for its ending
(`Lookup.not_isStylesheet_of_main`).
-/

set_option autoImplicit false

namespace StyleImports

/-! ## Endings -/

namespace Text

theorem exists_splitOn_append {sep : Char} {rest : Text} (h : sep ∉ rest) (t : Text) :
    ∃ parts last, splitOn sep (t ++ rest) = parts ++ [last ++ rest] := by
  induction t with
  | nil => exact ⟨[], [], splitOn_of_not_mem h⟩
  | cons c t ih =>
    obtain ⟨parts, last, hsplit⟩ := ih
    by_cases hc : c = sep
    · rw [hc, List.cons_append, splitOn_cons_self, hsplit]
      exact ⟨[] :: parts, last, rfl⟩
    · cases parts with
      | nil => exact ⟨[], c :: last, splitOn_cons_of_ne hc hsplit⟩
      | cons part parts => exact ⟨(c :: part) :: parts, last, splitOn_cons_of_ne hc hsplit⟩

/-- An ending of a stylesheet, ASCII case aside. -/
def IsEnding (t : Text) : Prop := lowerAscii t ∈ Packages.stylesheetEndings

instance (t : Text) : Decidable (IsEnding t) :=
  inferInstanceAs (Decidable (lowerAscii t ∈ Packages.stylesheetEndings))

theorem IsEnding.not_mem {t : Text} (h : IsEnding t) {c : Char}
    (hc : ∀ ending ∈ Packages.stylesheetEndings, c.toLower ∉ ending) : c ∉ t :=
  fun hmem => hc _ h (List.mem_map_of_mem hmem)

theorem IsEnding.ne_nil {t : Text} (h : IsEnding t) : t ≠ [] := by
  rintro rfl
  exact absurd h (by decide)

/-- A text that ends in a dot and the ending of a stylesheet. -/
def HasEnding (t : Text) : Prop := ∃ front ending, t = front ++ '.' :: ending ∧ IsEnding ending

theorem hasEnding_of_endsWithAscii {ending t : Text} (hending : ending ∈ Packages.stylesheetEndings)
    (h : endsWithAscii ('.' :: ending) t = true) : HasEnding t := by
  rw [endsWithAscii, List.isSuffixOf_iff_suffix] at h
  obtain ⟨front, hfront⟩ := h
  obtain ⟨first, tail, rfl, -, htail⟩ := List.map_eq_append_iff.1 hfront.symm
  obtain ⟨c, rest, rfl, hc, hrest⟩ := List.map_eq_cons_iff.1 htail
  refine ⟨first, rest, by rw [eq_of_toLower hc (by decide)], ?_⟩
  rw [IsEnding, lowerAscii, hrest]
  exact hending

end Text

namespace Path

variable {p q : Path} {n : Text} {endings more : List Text}

theorem hasExtension_congr (h : p.fileName? = q.fileName?) :
    p.hasExtension endings = q.hasExtension endings := by
  rw [hasExtension, hasExtension, extension?, extension?, h]

theorem hasExtension_mono (hsub : endings ⊆ more) (h : p.hasExtension endings = true) :
    p.hasExtension more = true := by
  rw [hasExtension] at h ⊢
  split at h
  · rw [decide_eq_true_eq] at h ⊢
    exact hsub h
  · cases h

theorem exists_fileName?_of_hasExtension (h : p.hasExtension endings = true) :
    ∃ n, p.fileName? = some n := by
  rw [hasExtension, extension?] at h
  cases hname : p.fileName? with
  | some n => exact ⟨n, rfl⟩
  | none =>
    rw [hname] at h
    cases h

/-- The whole name of a path is a dot and the ending of a stylesheet. -/
def IsBareEnding (p : Path) : Prop :=
  ∃ ending, p.fileName? = some ('.' :: ending) ∧ Text.IsEnding ending

/-- A file name that ends as a stylesheet does has its extension, or nothing before it. -/
theorem hasExtension_or_isBareEnding {front ending : Text} (hending : Text.IsEnding ending)
    (h : p.fileName? = some (front ++ '.' :: ending)) :
    p.hasExtension Packages.stylesheetEndings = true ∨ p.IsBareEnding := by
  cases front with
  | nil => exact .inr ⟨ending, h, hending⟩
  | cons c front =>
    refine .inl ?_
    have hcut := Text.splitLast_append_sep (hending.not_mem (c := '.') (by decide)) (c :: front)
    rw [hasExtension, extension?, h, Option.bind_some, hcut]
    exact decide_eq_true hending

/-- A text with an ending is a path to a name with that ending. -/
theorem exists_body_of_hasEnding {t : Text} (h : Text.HasEnding t) :
    ∃ stem front ending, Text.IsEnding ending ∧
      body t = stem ++ [.name (front ++ '.' :: ending)] := by
  obtain ⟨front, ending, rfl, hending⟩ := h
  have hslash : '/' ∉ '.' :: ending := by
    rw [List.mem_cons, not_or]
    exact ⟨by decide, hending.not_mem (by decide)⟩
  obtain ⟨parts, last, hsplit⟩ := Text.exists_splitOn_append hslash front
  -- The last segment does not end in a dot.
  have hdots : ∀ dots : Text, dots.getLast? = some '.' → last ++ '.' :: ending ≠ dots := by
    rintro dots hlast rfl
    rw [List.append_cons, List.getLast?_append_of_ne_nil _ hending.ne_nil] at hlast
    exact hending.not_mem (by decide) (List.mem_of_getLast? hlast)
  have hidle : isIdle (last ++ '.' :: ending) = false := by
    rw [isIdle, Bool.or_eq_false_iff, decide_eq_false_iff_not, decide_eq_false_iff_not]
    exact ⟨by simp, hdots _ rfl⟩
  refine ⟨(parts.filter (!isIdle ·)).map partOf, last, ending, hending, ?_⟩
  rw [body, hsplit, List.filter_append, List.filter_cons_of_pos (by simp [hidle]),
    List.filter_nil, List.map_append, List.map_singleton, partOf, if_neg (hdots _ rfl)]

theorem exists_fileName?_of_hasEnding {stem : List Part} {t : Text} (h : Text.HasEnding t)
    (hparts : p.parts = stem ++ body t) :
    ∃ front ending, Text.IsEnding ending ∧ p.fileName? = some (front ++ '.' :: ending) := by
  obtain ⟨above, front, ending, hending, hbody⟩ := exists_body_of_hasEnding h
  refine ⟨front, ending, hending, fileName?_eq_some.2 ?_⟩
  rw [hparts, hbody, ← List.append_assoc, List.getLast?_concat]

end Path

/-! ## Lookups -/

namespace Lookup

variable {l : Lookup} {specifier asked : Text} {file path p : Path} {found : List Path}

/-- Every name that is asked for has the ending of a stylesheet. -/
theorem Asked.hasEnding (h : l.Asked specifier file asked) : Text.HasEnding asked := by
  have hstyl : ∀ front : Text, Text.HasEnding (front ++ ".styl") := fun front =>
    ⟨front, "styl".toList, rfl, by decide⟩
  cases h with
  | itself =>
    rw [withExtension]
    split
    case isTrue hending =>
      rw [Bool.or_eq_true] at hending
      exact hending.elim (Text.hasEnding_of_endsWithAscii (by decide))
        (Text.hasEnding_of_endsWithAscii (by decide))
    case isFalse => exact hstyl specifier
  | @index name _ =>
    have hindex : name ++ "/index.styl" = (name ++ "/index") ++ ".styl" := by
      rw [List.append_assoc]
      rfl
    rw [hindex]
    exact hstyl _
  | named => exact hstyl _

theorem Candidate.hasExtension_or_isBareEnding (hpath : l.Candidate asked file path)
    (h : Text.HasEnding asked) :
    path.clean.hasExtension Packages.stylesheetEndings = true ∨ path.clean.IsBareEnding := by
  have hparts : ∃ stem, path.parts = stem ++ Path.body asked := by
    cases hpath with
    | absolute => exact ⟨_, Path.parts_eq _⟩
    | @joined dir => exact Path.exists_parts_join dir ⟨asked⟩
  obtain ⟨stem, hparts⟩ := hparts
  obtain ⟨front, ending, hending, hname⟩ := Path.exists_fileName?_of_hasEnding h hparts
  exact Path.hasExtension_or_isBareEnding hending
    (Path.fileName?_clean (Path.isName_of_fileName? hname) hname)

/-- What a pattern matches has the extension of a stylesheet. -/
theorem hasExtension_of_findsMatch {fs : FileSystem} {base : Path} {pattern : Text}
    (h : Glob.FindsMatch fs base pattern p) :
    p.hasExtension Packages.stylesheetEndings = true := by
  obtain ⟨n, rel, hfinds, -⟩ := h
  cases hfinds with
  | @entry dir above names name size _ _ _ _ hsheet =>
    have hsheet : Path.hasExtension ["styl".toList] ⟨name⟩ = true := hsheet
    obtain ⟨last, hlast⟩ := Path.exists_fileName?_of_hasExtension hsheet
    have hjoin : (dir.join ⟨name⟩).fileName? = some last := by
      obtain ⟨stem, hparts⟩ := Path.exists_parts_join dir ⟨name⟩
      obtain ⟨above, hbody⟩ := Path.exists_body_of_fileName? hlast
      rw [Path.fileName?_eq_some, hparts, hbody, ← List.append_assoc, List.getLast?_concat]
    have hsub : ["styl".toList] ⊆ Packages.stylesheetEndings := by decide
    refine Path.hasExtension_mono hsub ?_
    rw [Path.hasExtension_congr (hjoin.trans hlast.symm)]
    exact hsheet

/-- The main file that the manifest of the package of a specifier names. -/
inductive IsMain (l : Lookup) (specifier : Text) (file : Path) : Path → Prop where
  | named {found : List Path} {manifest home : Path} {text main : Text} :
      l.find ("node_modules/" ++ specifier ++ "/package.json") file = some found →
      manifest ∈ found → manifest.parent? = some home → l.fs.readText manifest = .ok text →
      mainOf text = some main → IsMain l specifier file (home.join ⟨main⟩).clean

/-- A lookup answers with files that are there, one at least. They have the extension of a
stylesheet, unless it is the main file that a manifest names or the whole name is an ending. -/
theorem isStylesheet_of_resolve (h : l.resolve specifier file = some found) :
    found ≠ [] ∧ ∀ p ∈ found, l.fs.isFile p = true ∧
      (p.hasExtension Packages.stylesheetEndings = true ∨ p.IsBareEnding ∨
        l.IsMain specifier file p) := by
  cases answer_of_resolve h with
  | @found asked path _ hasked hpath hfound =>
    refine ⟨?_, fun p hp => ⟨(mem_fileAt hfound hp).isFile, ?_⟩⟩
    · rcases fileAt_eq_some hfound with ⟨rfl, -⟩ | hglob
      · exact List.cons_ne_nil _ _
      · exact (expand_of_globAt hglob).2.1
    · rcases mem_fileAt_matches hfound hp with rfl | ⟨-, hmatch⟩
      · exact (hpath.hasExtension_or_isBareEnding hasked.hasEnding).imp_right .inl
      · exact .inl (hasExtension_of_findsMatch hmatch)
  | main hfind hmanifest hhome htext hmain hfile =>
    refine ⟨List.cons_ne_nil _ _, fun p hp => ?_⟩
    rw [List.mem_singleton.1 hp]
    exact ⟨hfile, .inr (.inr (.named hfind hmanifest hhome htext hmain))⟩

/-! ## Main files -/

def kitFiles : Memory :=
  [("/p/a.styl", ""), ("/p/node_modules/kit/main.js", ""),
    ("/p/node_modules/kit/package.json", "\x7b\x22main\x22:\x22main.js\x22\x7d")].foldl
    (fun m file => m.add ⟨file.1.toList⟩ (Text.utf8 file.2)) (.empty ⟨"/p".toList⟩)

def kitLookup : Lookup := ⟨kitFiles.fileSystem, []⟩

def kitEntry : Path := ⟨"/p/main.styl".toList⟩

theorem isStylesheet_of_resolve_beside :
    kitLookup.resolve "a".toList kitEntry = some [⟨"/p/a.styl".toList⟩] ∧
    ∀ p ∈ [(⟨"/p/a.styl".toList⟩ : Path)], kitLookup.fs.isFile p = true ∧
      (p.hasExtension Packages.stylesheetEndings = true ∨ p.IsBareEnding ∨
        kitLookup.IsMain "a".toList kitEntry p) := by
  have hresolve : kitLookup.resolve "a".toList kitEntry = some [⟨"/p/a.styl".toList⟩] := by
    decide +kernel
  exact ⟨hresolve, (isStylesheet_of_resolve hresolve).2⟩

/-- A package is looked up as its main file, whatever that is. -/
theorem not_isStylesheet_of_main :
    kitLookup.resolve "kit".toList kitEntry = some [⟨"/p/node_modules/kit/main.js".toList⟩] ∧
    (⟨"/p/node_modules/kit/main.js".toList⟩ : Path).hasExtension Packages.stylesheetEndings =
      false := by
  decide +kernel

end Lookup

end StyleImports
