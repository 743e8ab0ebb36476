import StyleImports.Proofs.Glob.Ending
import StyleImports.Proofs.Lookup.Origins
import StyleImports.Proofs.Path.Parent
import StyleImports.Proofs.Path.Place

/-!
# The manifests that a lookup reads

Of the files that it asks about, a lookup reads only the manifests of packages. What is found for a
specifier that ends in the name of a manifest has that name itself (`fileName?_of_find`): it stands
at a candidate, because a pattern that ends in this name matches no stylesheet.
-/

set_option autoImplicit false

namespace StyleImports

/-! ## Last characters -/

namespace Text

theorem splitLast_append {sep : Char} {t : Text} {cut : Text × Text}
    (h : splitLast sep t = some cut) : t = cut.1 ++ sep :: cut.2 := by
  induction t generalizing cut with
  | nil => cases h
  | cons c rest ih =>
    rw [splitLast] at h
    split at h
    case h_1 inner hinner =>
      cases h
      rw [List.cons_append, ← ih hinner]
    case h_2 =>
      split at h
      case isTrue hc =>
        cases h
        rw [hc, List.nil_append]
      · cases h

theorem exists_lastSegment {t : Text} {b : Char} (hslash : b ≠ '/') (ht : t.getLast? = some b) :
    ∃ front last, splitOn '/' t = front ++ [last] ∧ last.getLast? = some b := by
  obtain ⟨front, last, hsplit⟩ :=
    (List.eq_nil_or_concat (splitOn '/' t)).resolve_left (splitOn_ne_nil '/' t)
  rw [List.concat_eq_append] at hsplit
  refine ⟨front, last, hsplit, ?_⟩
  rw [← joinWith_splitOn '/' t, hsplit] at ht
  by_cases hfront : front = []
  · rw [hfront] at ht
    exact ht
  · rw [joinWith_append hfront (List.cons_ne_nil last [])] at ht
    exact Glob.getLast?_of_append hslash.symm ht

end Text

namespace Path

variable {b : Char} {n t : Text}

theorem getLast?_of_fileName? (hslash : b ≠ '/') (hdot : b ≠ '.') (ht : t.getLast? = some b)
    (hn : (⟨t⟩ : Path).fileName? = some n) : n.getLast? = some b := by
  obtain ⟨front, last, hsplit, hlast⟩ := Text.exists_lastSegment hslash ht
  have hidle : isIdle last = false := by
    rw [isIdle, Bool.or_eq_false_iff, decide_eq_false_iff_not, decide_eq_false_iff_not]
    constructor <;> rintro rfl
    · cases hlast
    · exact hdot (Option.some.inj hlast).symm
  have hparts : (⟨t⟩ : Path).parts.getLast? = some (partOf last) := by
    rw [parts_eq, body, hsplit, List.filter_append, List.filter_cons_of_pos (by simp [hidle]),
      List.filter_nil, List.map_append, List.map_singleton, ← List.append_assoc,
      List.getLast?_concat]
  rw [fileName?, hparts] at hn
  split at hn
  case h_1 m hm =>
    cases hn
    rw [← text_partOf last, Option.some.inj hm] at hlast
    exact hlast
  · cases hn

theorem hasExtension_getLast? {endings : List Text} (hslash : b ≠ '/') (hdot : b ≠ '.')
    (ht : t.getLast? = some b) (h : hasExtension endings ⟨t⟩ = true) :
    ∃ ending ∈ endings, ending.getLast? = some b.toLower := by
  rw [hasExtension] at h
  split at h
  case h_1 ending hending =>
    refine ⟨Text.lowerAscii ending, by simpa using h, ?_⟩
    rw [extension?] at hending
    split at hending
    case h_1 first front ending' hcut =>
      cases hending
      obtain ⟨n, hn, hsplit⟩ := Option.bind_eq_some_iff.1 hcut
      have hlast := getLast?_of_fileName? hslash hdot ht hn
      rw [Text.splitLast_append hsplit] at hlast
      rw [Text.lowerAscii, List.getLast?_map, Glob.getLast?_of_append hdot.symm hlast]
      rfl
    · cases hending
  · cases h

end Path

theorem Glob.not_isStylesheetName {b : Char} {t : Text} (hslash : b ≠ '/') (hdot : b ≠ '.')
    (hb : b.toLower ≠ 'l') (ht : t.getLast? = some b) : isStylesheetName t = false := by
  rw [← Bool.not_eq_true]
  intro h
  obtain ⟨ending, hending, hlast⟩ := Path.hasExtension_getLast? hslash hdot ht h
  rw [List.mem_singleton.1 hending] at hlast
  exact hb (Option.some.inj hlast).symm

/-! ## Names of found files -/

namespace Path

variable {p q : Path} {n : Text}

theorem fileName?_eq_some : p.fileName? = some n ↔ p.parts.getLast? = some (.name n) := by
  rw [fileName?]
  split <;> simp_all

theorem fileName?_congr (h : p.same q = true) : p.fileName? = q.fileName? := by
  rw [fileName?, fileName?, same_iff.1 h]

theorem exists_parts_join (dir p : Path) : ∃ stem, (dir.join p).parts = stem ++ body p.text := by
  by_cases hp : p.isAbsolute = true
  · rw [join, if_pos hp]
    exact ⟨_, parts_eq p⟩
  · by_cases hdir : dir.text = []
    · rw [show dir = ⟨[]⟩ from congrArg Path.mk hdir, join_nil]
      exact ⟨_, parts_eq p⟩
    · exact ⟨_, parts_join hdir (by simpa using hp)⟩

theorem exists_body_of_fileName? (h : p.fileName? = some n) :
    ∃ stem, body p.text = stem ++ [.name n] := by
  rw [fileName?_eq_some, parts_eq] at h
  rcases List.eq_nil_or_concat (body p.text) with hnil | ⟨stem, last, hbody⟩
  · -- The head of a path holds no name.
    rw [hnil, List.append_nil] at h
    unfold headParts at h
    split at h <;> cases h
  · rw [List.concat_eq_append] at hbody
    rw [hbody, ← List.append_assoc, List.getLast?_concat, Option.some.injEq] at h
    exact ⟨stem, by rw [hbody, h]⟩

theorem fileName?_clean (hn : (Part.name n).IsName) (h : p.fileName? = some n) :
    p.clean.fileName? = some n := by
  obtain ⟨stem, hstem⟩ := List.getLast?_eq_some_iff.1 (fileName?_eq_some.1 h)
  obtain ⟨stem', hclean⟩ := exists_stem_clean hstem (by simpa using hn)
  rw [fileName?_eq_some, hclean, List.getLast?_concat]

theorem fileName?_cleanFrom {cwd : Path} (hn : (Part.name n).IsName)
    (h : p.fileName? = some n) : (cleanFrom cwd p).fileName? = some n := by
  rw [cleanFrom]
  split
  case isTrue => exact fileName?_clean hn h
  case isFalse =>
    obtain ⟨stem, hbody⟩ := exists_body_of_fileName? h
    obtain ⟨above, hjoin⟩ := exists_parts_join cwd p
    refine fileName?_clean hn ?_
    rw [fileName?_eq_some, hjoin, hbody, ← List.append_assoc, List.getLast?_concat]

theorem getLast?_of_clean {b : Char} (hn : (Part.name n).IsName) (hb : n.getLast? = some b)
    (h : p.clean.fileName? = some n) : p.clean.text.getLast? = some b := by
  obtain ⟨stem, hstem⟩ := List.getLast?_eq_some_iff.1 (fileName?_eq_some.1 h)
  have hcanonical := p.isCanonical_clean
  rw [IsCanonical, hstem, ofParts_append_singleton] at hcanonical
  rw [← hcanonical, ← hb]
  exact getLast?_join hn

end Path

namespace Glob

theorem getLast?_pattern {b : Char} {t : Text} (hslash : b ≠ '/') (ht : t.getLast? = some b) :
    (ofSpecifier t).pattern.getLast? = some b := by
  have hcount : ∀ {xs : List Text} {p : Text → Bool}, xs ≠ [] →
      xs.drop (xs.dropLast.takeWhile p).length ≠ [] := by
    intro xs p hxs hnil
    have hle := (List.takeWhile_sublist (l := xs.dropLast) p).length_le
    have hpos := List.length_pos_iff.2 hxs
    rw [List.drop_eq_nil_iff] at hnil
    simp only [List.length_dropLast] at hle
    omega
  rw [ofSpecifier]
  dsimp only
  generalize hpoint : ((Text.splitOn '/' t).dropLast.takeWhile (!isDynamic ·)).length = count
  have hrest : (Text.splitOn '/' t).drop count ≠ [] := by
    rw [← hpoint]
    exact hcount (Text.splitOn_ne_nil '/' t)
  have hjoin := Text.joinWith_splitOn '/' t
  rw [← List.take_append_drop count (Text.splitOn '/' t)] at hjoin
  by_cases hbase : (Text.splitOn '/' t).take count = []
  · rw [hbase, List.nil_append] at hjoin
    rw [hjoin]
    exact ht
  · rw [Text.joinWith_append hbase hrest] at hjoin
    rw [← hjoin] at ht
    exact getLast?_of_append hslash.symm ht

end Glob

namespace Lookup

variable {l : Lookup} {file p path : Path} {dir : Text} {found : List Path}

/-- The name of the manifest of a package. -/
def manifestName : Text := "package.json"

theorem isName_manifestName : (Part.name manifestName).IsName := by decide

/-- What is found at a path with the name of a manifest stands there: a pattern that ends in this
name matches no stylesheet. -/
theorem eq_clean_of_fileAt {specifier : Text} (hpath : path.fileName? = some manifestName)
    (h : l.fileAt path specifier = some found) (hp : p ∈ found) : p = path.clean := by
  have hname := Path.fileName?_clean isName_manifestName hpath
  rcases fileAt_eq_some h with ⟨rfl, -⟩ | hglob
  · exact List.mem_singleton.1 hp
  · exfalso
    obtain ⟨-, -, hexpand⟩ := expand_of_globAt hglob
    obtain ⟨_, _, patterns, hpatterns, _, above, name, _, hsheet, hmatch⟩ :=
      Glob.mem_expand hexpand hp
    have hlast := Path.getLast?_of_clean (b := 'n') isName_manifestName (by decide) hname
    have hends := Glob.ends_of_readPatterns (by decide)
      (Glob.getLast?_pattern (by decide) hlast) hpatterns hmatch
    have hne : name ≠ [] := by
      rintro rfl
      cases hsheet
    rw [List.getLast?_append_of_ne_nil _ hne] at hends
    rw [Glob.not_isStylesheetName (by decide) (by decide) (by decide) hends] at hsheet
    cases hsheet

theorem Candidate.fileName?_of_manifest (h : l.Candidate (dir ++ "/package.json") file path) :
    path.fileName? = some manifestName := by
  have hbody : Path.body (dir ++ "/package.json") = Path.body dir ++ [.name manifestName] :=
    Path.body_append_slash dir manifestName
  cases h with
  | absolute =>
    rw [Path.fileName?_eq_some, Path.parts_eq, hbody, ← List.append_assoc, List.getLast?_concat]
  | @joined base _ _ =>
    obtain ⟨above, hjoin⟩ := Path.exists_parts_join base ⟨dir ++ "/package.json"⟩
    rw [Path.fileName?_eq_some, hjoin, hbody, ← List.append_assoc, List.getLast?_concat]

/-- What is found for the manifest of a directory stands at a candidate. -/
theorem exists_candidate_of_find (h : l.find (dir ++ "/package.json") file = some found)
    (hp : p ∈ found) : ∃ path, l.Candidate (dir ++ "/package.json") file path ∧
      path.fileName? = some manifestName ∧ p = path.clean := by
  obtain ⟨path, hpath, hfound⟩ := exists_fileAt_of_find h
  have hname := hpath.fileName?_of_manifest
  exact ⟨path, hpath, hname, eq_clean_of_fileAt hname hfound hp⟩

/-- What is found for the manifest of a directory has the name of a manifest. -/
theorem fileName?_of_find (h : l.find (dir ++ "/package.json") file = some found)
    (hp : p ∈ found) : p.fileName? = some manifestName := by
  obtain ⟨path, -, hname, rfl⟩ := exists_candidate_of_find h hp
  exact Path.fileName?_clean isName_manifestName hname

end Lookup

end StyleImports
