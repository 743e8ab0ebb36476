import StyleImports.Proofs.Lookup.Manifest
import StyleImports.Proofs.Lookup.Spelling
import StyleImports.Proofs.Lookup.Within

/-!
# Paths of one stored file

A relative path that climbs leaves many paths for a stored file. What a lookup finds is a path from
the root or ends in the name of a file (`Lookup.Origin.finds`). So of two paths that are found for
one stored file, either both are the same path or imports are looked up in the same directories from
both (`Memory.Finds.directories_eq`).
-/

set_option autoImplicit false

namespace StyleImports

/-! ## File names -/

namespace Path

variable {cwd p dir : Path} {n t : Text} {b : Char}

theorem isName_of_fileName? (h : p.fileName? = some n) : (Part.name n).IsName := by
  obtain ⟨stem, hbody⟩ := exists_body_of_fileName? h
  have hmem : Part.name n ∈ body p.text := by
    rw [hbody]
    simp
  exact isSegment_of_mem_body hmem

/-- A path that ends neither in a slash nor in a dot ends in a file name. -/
theorem exists_fileName? (hslash : b ≠ '/') (hdot : b ≠ '.') (ht : t.getLast? = some b) :
    ∃ n, (⟨t⟩ : Path).fileName? = some n := by
  obtain ⟨front, last, hsplit, hlast⟩ := Text.exists_lastSegment hslash ht
  have hidle : isIdle last = false := by
    rw [isIdle, Bool.or_eq_false_iff, decide_eq_false_iff_not, decide_eq_false_iff_not]
    constructor <;> rintro rfl
    · cases hlast
    · exact hdot (Option.some.inj hlast).symm
  have hname : partOf last = .name last := by
    refine if_neg ?_
    rintro rfl
    exact hdot (Option.some.inj hlast).symm
  refine ⟨last, fileName?_eq_some.2 ?_⟩
  rw [parts_eq, body, hsplit, List.filter_append, List.filter_cons_of_pos (by simp [hidle]),
    List.filter_nil, List.map_append, List.map_singleton, ← List.append_assoc,
    List.getLast?_concat, hname]

theorem fileName?_join (hn : (Part.name n).IsName) : (dir.join ⟨n⟩).fileName? = some n := by
  obtain ⟨stem, hparts⟩ := exists_parts_join dir ⟨n⟩
  rw [fileName?_eq_some, hparts, show body n = [.name n] from body_text hn.isSegment,
    List.getLast?_concat]

theorem parts_cleanFrom_parent? (hcwd : cwd.isAbsolute = true) (hname : p.fileName? = some n)
    (hdir : p.parent? = some dir) :
    (cleanFrom cwd p).parts = (cleanFrom cwd dir).parts ++ [.name n] := by
  obtain ⟨stem, hstem⟩ := List.getLast?_eq_some_iff.1 (fileName?_eq_some.1 hname)
  refine parts_cleanFrom_of_append hcwd (isName_of_fileName? hname) ?_
  rw [parts_parent? hdir, hstem, List.dropLast_concat]

theorem exists_parent? (hname : p.fileName? = some n) : ∃ dir, p.parent? = some dir := by
  refine Option.ne_none_iff_exists'.1 fun hnone => ?_
  rw [fileName?_eq_some] at hname
  rcases parent?_eq_none_iff.1 hnone with hparts | hparts <;> rw [hparts] at hname <;> cases hname

end Path

theorem Lookup.directories_of_cleanFrom {l : Lookup} {file other : Path} {n k : Text}
    (hcwd : l.fs.cwd.isAbsolute = true) (hfile : file.fileName? = some n)
    (hother : other.fileName? = some k)
    (h : Path.cleanFrom l.fs.cwd file = Path.cleanFrom l.fs.cwd other) :
    l.directories file = l.directories other := by
  obtain ⟨dir, hdir⟩ := Path.exists_parent? hfile
  obtain ⟨beside, hbeside⟩ := Path.exists_parent? hother
  have hparts : (Path.cleanFrom l.fs.cwd dir).parts ++ [Part.name n] =
      (Path.cleanFrom l.fs.cwd beside).parts ++ [.name k] := by
    rw [← Path.parts_cleanFrom_parent? hcwd hfile hdir,
      ← Path.parts_cleanFrom_parent? hcwd hother hbeside, h]
  have hsame : Path.cleanFrom l.fs.cwd dir = Path.cleanFrom l.fs.cwd beside := by
    obtain ⟨q, hq⟩ := Path.cleanFrom_eq_clean l.fs.cwd dir
    obtain ⟨q', hq'⟩ := Path.cleanFrom_eq_clean l.fs.cwd beside
    rw [hq, hq'] at hparts ⊢
    exact q.isCanonical_clean.eq_of_same q'.isCanonical_clean
      (Path.same_iff.2 (List.append_inj_left' hparts rfl))
  simp only [directories, hdir, hbeside, hsame]

/-! ## Found files -/

namespace Memory

variable {m : Memory} {p q : Path}

/-- A tidy path of a stored file that is absolute or ends in a file name. -/
structure Finds (m : Memory) (p : Path) : Prop where
  tidy : p.IsTidy
  file : m.fileSystem.isFile p = true
  named : p.isAbsolute = true ∨ ∃ n, p.fileName? = some n

theorem Finds.root_or_named (h : m.Finds p) : p.parts = [.root] ∨ ∃ n, p.fileName? = some n := by
  refine h.named.elim (fun habsolute => ?_) .inr
  obtain ⟨stem, names, hparts, hstem, hnames⟩ := h.tidy.parts
  rcases List.eq_nil_or_concat names with rfl | ⟨front, last, rfl⟩
  · have hroot := Path.isAbsolute_iff_parts.1 habsolute
    rw [hparts, List.append_nil] at hroot
    cases hstem with
    | root => exact .inl hparts
    | here => simp at hroot
    | ups count => cases List.eq_of_mem_replicate hroot
  · have hlast : last.IsName := hnames last (by simp)
    cases last with
    | name n =>
      refine .inr ⟨n, Path.fileName?_eq_some.2 ?_⟩
      rw [hparts, List.concat_eq_append, ← List.append_assoc, List.getLast?_concat]
    | _ => cases hlast

/-- The root is seen as the root, and what ends in a file name as something else. -/
theorem place_ne_of_root {n : Text} (hp : p.parts = [.root]) (hq : q.fileName? = some n) :
    m.place p ≠ m.place q := by
  intro hsame
  have hroot : m.place p = ⟨['/']⟩ := by
    rw [place, Path.cleanFrom_congr m.cwd (Path.same_iff.2 (hp.trans (by decide :
      [Part.root] = (⟨['/']⟩ : Path).parts)))]
    rfl
  have hname : (m.place q).fileName? = some n :=
    Path.fileName?_cleanFrom (Path.isName_of_fileName? hq) hq
  rw [← hsame, hroot] at hname
  cases hname

/-- Two paths that are found for one stored file. -/
theorem Finds.directories_eq (hcwd : m.cwd.isAbsolute = true) (hp : m.Finds p) (hq : m.Finds q)
    (hsame : m.place p = m.place q) : p.same q = true ∨ ∀ paths,
      Lookup.directories ⟨m.fileSystem, paths⟩ p = Lookup.directories ⟨m.fileSystem, paths⟩ q := by
  rcases hp.root_or_named with hroot | ⟨n, hn⟩ <;> rcases hq.root_or_named with hroot' | ⟨k, hk⟩
  · exact .inl (Path.same_iff.2 (hroot.trans hroot'.symm))
  · exact absurd hsame (place_ne_of_root hroot hk)
  · exact absurd hsame.symm (place_ne_of_root hroot' hn)
  · exact .inr fun paths => Lookup.directories_of_cleanFrom hcwd hn hk hsame

end Memory

namespace Lookup

variable {m : Memory} {paths : List Path} {file path p : Path} {specifier asked : Text}

theorem exists_getLast?_of_endsWithAscii {ending t : Text} {e : Char}
    (hending : ending.getLast? = some e) (h : Text.endsWithAscii ending t = true) :
    ∃ b, t.getLast? = some b ∧ b.toLower = e := by
  obtain ⟨front, hfront⟩ := List.isSuffixOf_iff_suffix.1 h
  have hlast : (Text.lowerAscii t).getLast? = some e := by
    rw [← hfront, List.getLast?_append, hending, Option.some_or]
  rw [Text.lowerAscii, List.getLast?_map] at hlast
  exact Option.map_eq_some_iff.1 hlast

theorem Asked.exists_fileName? (h : Asked ⟨m.fileSystem, paths⟩ specifier file asked) :
    ∃ n, (⟨asked⟩ : Path).fileName? = some n := by
  have hstyl : ∀ t : Text, ∃ n, (⟨t ++ ".styl"⟩ : Path).fileName? = some n := fun t =>
    Path.exists_fileName? (b := 'l') (by decide) (by decide) (by rw [List.getLast?_append]; rfl)
  cases h with
  | index hnamed =>
    exact Path.exists_fileName? (b := 'l') (by decide) (by decide)
      (by rw [List.getLast?_append]; rfl)
  | named hnamed hlast => exact hstyl _
  | itself =>
    rw [withExtension]
    split
    case isFalse => exact hstyl specifier
    case isTrue hends =>
      have hlower : ∃ b, specifier.getLast? = some b ∧ (b.toLower = 'l' ∨ b.toLower = 's') := by
        rw [Bool.or_eq_true] at hends
        rcases hends with hends | hends
        · obtain ⟨b, hb, hlower⟩ := exists_getLast?_of_endsWithAscii (e := 'l') (by decide) hends
          exact ⟨b, hb, .inl hlower⟩
        · obtain ⟨b, hb, hlower⟩ := exists_getLast?_of_endsWithAscii (e := 's') (by decide) hends
          exact ⟨b, hb, .inr hlower⟩
      obtain ⟨b, hb, hlower⟩ := hlower
      refine Path.exists_fileName? (b := b) ?_ ?_ hb <;> rintro rfl <;> revert hlower <;> decide

theorem isAbsolute_manifest (hcwd : m.cwd.isAbsolute = true) {found : List Path}
    (h : Lookup.find ⟨m.fileSystem, paths⟩ ("node_modules/" ++ specifier ++ "/package.json") file =
      some found) (hp : p ∈ found) : p.isAbsolute = true := by
  obtain ⟨path, hcandidate, -, rfl⟩ := exists_candidate_of_find h hp
  refine Path.isAbsolute_clean ?_
  cases hcandidate with
  | absolute habsolute =>
    simp [Specifier.isAbsolute, Specifier.isDrivePath, Specifier.isSchemeRelative] at habsolute
  | joined _ hdir => exact Path.isAbsolute_join (isAbsolute_of_mem_directories hcwd hdir) _

theorem isAbsolute_parent? {home : Path} {n : Text} (h : p.isAbsolute = true)
    (hname : p.fileName? = some n) (hhome : p.parent? = some home) : home.isAbsolute = true := by
  obtain ⟨stem, hstem⟩ := List.getLast?_eq_some_iff.1 (Path.fileName?_eq_some.1 hname)
  have hroot := Path.isAbsolute_iff_parts.1 h
  rw [Path.isAbsolute_iff_parts, Path.parts_parent? hhome, hstem, List.dropLast_concat]
  rw [hstem] at hroot
  simpa using hroot

/-- What is looked up is found under a path from the root or one that ends in a file name. -/
theorem Origin.finds (hplaced : m.IsPlaced) (hcwd : m.cwd.isAbsolute = true)
    (h : Origin ⟨m.fileSystem, paths⟩ specifier file p) : m.Finds p := by
  obtain ⟨limit, hlimit⟩ := exists_limit hplaced hcwd [specifier]
  have hholds := hlimit specifier List.mem_cons_self paths file p h
  refine ⟨hholds.tidy, hholds.file, ?_⟩
  cases h with
  | @found _ path _ hasked hcandidate hfound =>
    cases hfound with
    | itself hfile =>
      cases hcandidate with
      | absolute =>
        obtain ⟨n, hn⟩ := hasked.exists_fileName?
        exact .inr ⟨n, Path.fileName?_clean (Path.isName_of_fileName? hn) hn⟩
      | joined _ hdir =>
        exact .inl (Path.isAbsolute_clean
          (Path.isAbsolute_join (isAbsolute_of_mem_directories hcwd hdir) _))
    | below _ hbelow _ =>
      obtain ⟨dir, -, hlists⟩ := Relation.TransGen.tail'_iff.1 hbelow
      obtain ⟨n, rfl, hname⟩ := hplaced.exists_name_of_lists hcwd hlists
      exact .inr ⟨n, Path.fileName?_join hname⟩
  | main hfind hmanifest hhome _ _ _ =>
    have habsolute := isAbsolute_manifest hcwd hfind hmanifest
    have hname := fileName?_of_find hfind hmanifest
    exact .inl (Path.isAbsolute_clean
      (Path.isAbsolute_join (isAbsolute_parent? habsolute hname hhome) _))

end Lookup

end StyleImports
