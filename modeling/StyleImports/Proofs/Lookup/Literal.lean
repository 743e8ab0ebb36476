import StyleImports.Files.Memory
import StyleImports.Graph.Resolution
import StyleImports.Proofs.Lookup.Manifest
import StyleImports.Proofs.Lookup.Spelling
import StyleImports.Proofs.Path.Below

/-!
# Lookups without expanding patterns

An import is taken literally if something is at the path that it names. Its lookup still derives
other names from it: with an ending added, of an index file, of a package. Each of them is taken for
a pattern by itself where nothing is at its own path. So an answer is the one that the lookup gives
without patterns (`Lookup.literal`), or some other name than the import itself was expanded for it
(`Setting.resolve_of_exists`). That way a directory `v[1]` with an index file loses against the file
`v1.styl` (`Setting.not_literal_of_exists`).
-/

set_option autoImplicit false

namespace StyleImports

/-- The same files, but no directory can be listed. -/
def FileSystem.unlisted (fs : FileSystem) : FileSystem :=
  { fs with list := fun p => .error (.notFound p) }

/-- A search through a list has the same hit by two functions that agree up to hits of a kind, or it
has such a hit. -/
theorem findSome?_eq_or {α β : Type} {f g : α → Option β} {P : β → Prop} {xs : List α}
    (h : ∀ x ∈ xs, f x = g x ∨ ∃ b, P b ∧ f x = some b) :
    xs.findSome? f = xs.findSome? g ∨ ∃ b, P b ∧ xs.findSome? f = some b := by
  induction xs with
  | nil => exact .inl rfl
  | cons x xs ih =>
    have hrest := ih fun y hy => h y (List.mem_cons_of_mem x hy)
    rw [List.findSome?_cons, List.findSome?_cons]
    rcases h x List.mem_cons_self with heq | ⟨b, hb, hhit⟩
    · rw [heq]
      cases g x with
      | none => exact hrest
      | some b => exact .inl rfl
    · rw [hhit]
      exact .inr ⟨b, hb, rfl⟩

namespace Lookup

variable {l : Lookup} {specifier asked name : Text} {file path p : Path} {found : List Path}

/-- The same lookup, but every path is only asked for as it is written. -/
def literal (l : Lookup) : Lookup := { l with fs := l.fs.unlisted }

theorem globAt_literal (path : Path) : l.literal.globAt path = none := by
  rw [globAt]
  split
  · split
    case h_1 first rest hexpand =>
      rw [Glob.expand] at hexpand
      split at hexpand
      · cases hexpand
      · cases hexpand
    · rfl
  · rfl

theorem isFile_of_isRequest {fs : FileSystem} (h : Glob.isRequest fs p asked = true) :
    fs.isFile p = false := by
  simp only [Glob.isRequest, Bool.and_eq_true, Bool.not_eq_true'] at h
  exact h.2

theorem not_isRequest_of_exists {fs : FileSystem} (h : fs.exists? p = true) (asked : Text) :
    Glob.isRequest fs p asked = false := by
  rw [Glob.isRequest, FileSystem.isDirectory, FileSystem.isFile]
  rw [FileSystem.exists?] at h
  cases hstat : fs.stat p with
  | error e =>
    rw [hstat] at h
    cases h
  | ok kind => cases kind <;> simp

/-- Without patterns, a path is found if a file is there. -/
theorem fileAt_literal (path : Path) (specifier : Text) :
    l.literal.fileAt path specifier =
      if l.fs.isFile path.clean then some [path.clean] else none := by
  rw [fileAt]
  split
  case isTrue h =>
    have hfile : l.fs.isFile path.clean = false := isFile_of_isRequest h
    rw [globAt_literal, hfile]
    rfl
  case isFalse => rfl

/-- Nothing is at a path where a name is looked up, and the path is expanded as a pattern. -/
structure Expansion (l : Lookup) (asked : Text) (file path : Path) (found : List Path) : Prop where
  candidate : l.Candidate asked file path
  request : Glob.isRequest l.fs path.clean asked = true
  expanded : l.globAt path.clean = some found

theorem Expansion.fileAt_eq (h : l.Expansion asked file path found) :
    l.fileAt path asked = some found := by
  rw [fileAt, if_pos h.request, h.expanded]

theorem fileAt_eq_or (hpath : l.Candidate asked file path) :
    l.fileAt path asked = l.literal.fileAt path asked ∨
      ∃ found, (∃ path, l.Expansion asked file path found) ∧ l.fileAt path asked = some found := by
  rw [fileAt_literal]
  by_cases hrequest : Glob.isRequest l.fs path.clean asked = true
  · cases hglob : l.globAt path.clean with
    | some found =>
      have hexpansion : l.Expansion asked file path found := ⟨hpath, hrequest, hglob⟩
      exact .inr ⟨found, ⟨path, hexpansion⟩, hexpansion.fileAt_eq⟩
    | none =>
      rw [fileAt, if_pos hrequest, hglob, isFile_of_isRequest hrequest]
      exact .inl rfl
  · rw [fileAt, if_neg hrequest]
    exact .inl rfl

/-- A name is found as it is without patterns, or expanded at one of its paths. -/
theorem find_eq_or (l : Lookup) (asked : Text) (file : Path) :
    l.find asked file = l.literal.find asked file ∨
      ∃ found, (∃ path, l.Expansion asked file path found) ∧ l.find asked file = some found := by
  rw [find, find]
  split
  case isTrue habsolute => exact fileAt_eq_or (.absolute habsolute)
  case isFalse hrelative =>
    exact findSome?_eq_or fun dir hdir => fileAt_eq_or (.joined (by simpa using hrelative) hdir)

/-- A manifest is found without patterns: a pattern that ends in its name matches no stylesheet. -/
theorem find_manifest (l : Lookup) (dir : Text) (file : Path) :
    l.find (dir ++ "/package.json") file = l.literal.find (dir ++ "/package.json") file := by
  obtain heq | ⟨found, ⟨path, hexpansion⟩, hfind⟩ := find_eq_or l (dir ++ "/package.json") file
  · exact heq
  · exfalso
    obtain ⟨p, hp⟩ := List.exists_mem_of_ne_nil found (expand_of_globAt hexpansion.expanded).2.1
    -- What is found has the path where nothing was.
    have hpath := eq_clean_of_fileAt hexpansion.candidate.fileName?_of_manifest
      hexpansion.fileAt_eq hp
    have hfile := (mem_fileAt hexpansion.fileAt_eq hp).isFile
    rw [hpath, isFile_of_isRequest hexpansion.request] at hfile
    cases hfile

/-! ## Answers -/

/-- An answer is the one without patterns, or a name that was asked for was expanded for it. -/
def IsLiteralOr (l : Lookup) (specifier : Text) (file : Path)
    (answer literal : Option (List Path)) : Prop :=
  answer = literal ∨ ∃ asked path found, l.Asked specifier file asked ∧
    l.Expansion asked file path found ∧ answer = some found

theorem IsLiteralOr.or {first first' second second' : Option (List Path)}
    (hfirst : l.IsLiteralOr specifier file first first')
    (hsecond : first = none → l.IsLiteralOr specifier file second second') :
    l.IsLiteralOr specifier file (first.or second) (first'.or second') := by
  rcases hfirst with rfl | ⟨asked, path, found, hasked, hexpansion, rfl⟩
  · cases first with
    | none => exact hsecond rfl
    | some found => exact .inl rfl
  · exact .inr ⟨asked, path, found, hasked, hexpansion, rfl⟩

theorem find_isLiteralOr (hasked : l.Asked specifier file asked) :
    l.IsLiteralOr specifier file (l.find asked file) (l.literal.find asked file) := by
  obtain heq | ⟨found, ⟨path, hexpansion⟩, hfind⟩ := find_eq_or l asked file
  · exact .inl heq
  · exact .inr ⟨asked, path, found, hasked, hexpansion, hfind⟩

theorem indexFile_eq (l : Lookup) (name : Text) (file : Path) :
    l.indexFile name file = (l.find (name ++ "/index.styl") file).or
      ((Path.mk name).fileName?.bind fun last =>
        l.find (name ++ '/' :: stem last ++ ".styl") file) := by
  rw [indexFile]
  cases l.find (name ++ "/index.styl") file with
  | some found => rfl
  | none => cases (Path.mk name).fileName? <;> rfl

theorem indexFile_isLiteralOr (hname : l.Named specifier file name) :
    l.IsLiteralOr specifier file (l.indexFile name file) (l.literal.indexFile name file) := by
  rw [indexFile_eq, indexFile_eq]
  refine (find_isLiteralOr (.index hname)).or fun _ => ?_
  cases hlast : (Path.mk name).fileName? with
  | none =>
    rw [Option.bind_none, Option.bind_none]
    exact .inl rfl
  | some last =>
    rw [Option.bind_some, Option.bind_some]
    exact find_isLiteralOr (.named hname hlast)

theorem package_isLiteralOr :
    l.IsLiteralOr specifier file (l.package ("node_modules/" ++ specifier) file)
      (l.literal.package ("node_modules/" ++ specifier) file) := by
  rw [package, package, ← find_manifest]
  cases hmanifest : (l.find ("node_modules/" ++ specifier ++ "/package.json") file).bind
      List.head? with
  | none => exact indexFile_isLiteralOr .package
  | some manifest =>
    obtain ⟨found, hfind, hhead⟩ := Option.bind_eq_some_iff.1 hmanifest
    dsimp only
    cases hhome : manifest.parent? with
    | none => exact .inl rfl
    | some home =>
      have hindex := indexFile_isLiteralOr (.home hfind (List.mem_of_mem_head? hhead) hhome)
      have hread : l.literal.fs.readText manifest = l.fs.readText manifest := rfl
      dsimp only
      rw [hread]
      cases l.fs.readText manifest with
      | error e => exact hindex
      | ok text =>
        dsimp only
        cases mainOf text with
        | none => exact hindex
        | some main => exact .inl rfl

theorem resolve_eq (l : Lookup) (specifier : Text) (file : Path) :
    l.resolve specifier file =
      (l.find (withExtension specifier) file).or ((l.indexFile specifier file).or
        (if Text.holds "node_modules" specifier then none
          else l.package ("node_modules/" ++ specifier) file)) := by
  rw [resolve]
  cases l.find (withExtension specifier) file with
  | some found => rfl
  | none =>
    dsimp only
    rw [index]
    cases l.indexFile specifier file <;> rfl

/-- Every answer is the one without patterns, or a pattern was expanded for it. -/
theorem resolve_isLiteralOr (l : Lookup) (specifier : Text) (file : Path) :
    l.IsLiteralOr specifier file (l.resolve specifier file)
      (l.literal.resolve specifier file) := by
  rw [resolve_eq, resolve_eq]
  refine (find_isLiteralOr .itself).or fun _ => (indexFile_isLiteralOr .itself).or fun _ => ?_
  split
  · exact .inl rfl
  · exact package_isLiteralOr

/-! ## Existing paths -/

theorem fileAt_of_isFile (h : l.fs.isFile path.clean = true) :
    l.fileAt path specifier = some [path.clean] := by
  have hrequest : ¬ Glob.isRequest l.fs path.clean specifier = true := fun hrequest => by
    rw [isFile_of_isRequest hrequest] at h
    cases h
  rw [fileAt, if_neg hrequest, if_pos h]

/-- Next to a file in an absolute directory, a specifier that has its ending names the file that is
there. A path of a drive or a share is not looked up next to the file. -/
theorem resolve_of_isFile {dir : Path} (hdir : file.parent? = some dir)
    (habsolute : dir.isAbsolute = true)
    (hnext : Specifier.isAbsolute specifier = true → (Path.mk specifier).isAbsolute = true)
    (hending : withExtension specifier = specifier)
    (hfile : l.fs.isFile (dir.join ⟨specifier⟩).clean = true) :
    l.resolve specifier file = some [(dir.join ⟨specifier⟩).clean] := by
  have hfind : l.find specifier file = some [(dir.join ⟨specifier⟩).clean] := by
    rw [find]
    split
    case isTrue habsoluteSpecifier =>
      have hjoin : dir.join ⟨specifier⟩ = ⟨specifier⟩ := by
        rw [Path.join, if_pos (hnext habsoluteSpecifier)]
      rw [hjoin] at hfile ⊢
      exact fileAt_of_isFile hfile
    case isFalse =>
      obtain ⟨rest, hdirectories⟩ := exists_directories_cons (l := l) hdir
      have hclean : ((Path.cleanFrom l.fs.cwd dir).join ⟨specifier⟩).clean =
          (dir.join ⟨specifier⟩).clean := by
        rw [Path.cleanFrom, if_pos habsolute, Path.clean_join_clean]
      rw [hdirectories, List.findSome?_cons, fileAt_of_isFile (hclean ▸ hfile), hclean]
  rw [resolve, hending, hfind]

end Lookup

namespace Setting

variable {s : Setting} {file : Path} {specifier : Text}

/-- The lookup for the imports of a walk. -/
def lookup (s : Setting) : Lookup := ⟨s.fs, s.options.paths⟩

/-- The path that an import names literally, next to its file. -/
def literalPath (file : Path) (specifier : Text) : Path :=
  ((directoryOf file).join ⟨specifier⟩).clean

/-- An import at whose literal path something is is no pattern. If that is a file and the import has
its ending, it is what the import names. In any case the import names what it would without
patterns, unless another name that is asked for is expanded where nothing is at its own path. -/
theorem resolve_of_exists (hexists : s.fs.exists? (literalPath file specifier) = true) :
    s.isPattern file specifier = false ∧
    (∀ dir, file.parent? = some dir → dir.isAbsolute = true →
      (Specifier.isAbsolute specifier = true → (Path.mk specifier).isAbsolute = true) →
      Lookup.withExtension specifier = specifier →
      s.fs.isFile (literalPath file specifier) = true →
      s.lookup.resolve specifier file = some [literalPath file specifier] ∧
      s.lookup.literal.resolve specifier file = some [literalPath file specifier]) ∧
    (s.lookup.resolve specifier file = s.lookup.literal.resolve specifier file ∨
      ∃ asked path found, s.lookup.Asked specifier file asked ∧
        s.lookup.Expansion asked file path found ∧
        path.clean ≠ literalPath file specifier ∧
        s.lookup.resolve specifier file = some found) := by
  refine ⟨Lookup.not_isRequest_of_exists hexists specifier, ?_, ?_⟩
  · intro dir hdir habsolute hnext hending hfile
    have hliteral : literalPath file specifier = (dir.join ⟨specifier⟩).clean := by
      rw [literalPath, directoryOf, hdir]
      rfl
    rw [hliteral] at hfile ⊢
    exact ⟨Lookup.resolve_of_isFile hdir habsolute hnext hending hfile,
      Lookup.resolve_of_isFile hdir habsolute hnext hending hfile⟩
  · refine (s.lookup.resolve_isLiteralOr specifier file).imp_right ?_
    rintro ⟨asked, path, found, hasked, hexpansion, hresolve⟩
    refine ⟨asked, path, found, hasked, hexpansion, fun hpath => ?_, hresolve⟩
    have hrequest := hexpansion.request
    rw [hpath] at hrequest
    exact absurd ((Lookup.not_isRequest_of_exists hexists asked).symm.trans hrequest)
      Bool.false_ne_true

/-! ## Names with brackets -/

def bracketFiles : Memory :=
  ["/p/v[1]/index.styl", "/p/v1.styl", "/p/w[2].styl", "/p/w2.styl"].foldl
    (fun m file => m.add ⟨file.toList⟩ []) (.empty ⟨"/p".toList⟩)

def bracketSetting : Setting :=
  ⟨bracketFiles.fileSystem, ⟨RequestTable.empty.resolver, RequestTable.empty.resolver⟩,
    ⟨[], none, []⟩⟩

def bracketEntry : Path := ⟨"/p/main.styl".toList⟩

theorem resolve_of_exists_bracket :
    bracketSetting.fs.exists? (literalPath bracketEntry "w[2].styl".toList) = true ∧
    bracketSetting.isPattern bracketEntry "w[2].styl".toList = false ∧
    bracketSetting.lookup.resolve "w[2].styl".toList bracketEntry =
      some [⟨"/p/w[2].styl".toList⟩] := by
  have hexists :
      bracketSetting.fs.exists? (literalPath bracketEntry "w[2].styl".toList) = true := by
    decide +kernel
  obtain ⟨hpattern, hown, -⟩ := resolve_of_exists hexists
  obtain ⟨hresolve, -⟩ := hown ⟨"/p".toList⟩ (by decide +kernel) (by decide) (by decide)
    (by decide +kernel) (by decide +kernel)
  exact ⟨hexists, hpattern, hresolve⟩

/-- An existing directory is no pattern, but its name with an ending matches another file, which is
taken before the index file of the directory. -/
theorem not_literal_of_exists :
    bracketSetting.fs.exists? (literalPath bracketEntry "v[1]".toList) = true ∧
    bracketSetting.isPattern bracketEntry "v[1]".toList = false ∧
    bracketSetting.lookup.resolve "v[1]".toList bracketEntry = some [⟨"/p/v1.styl".toList⟩] ∧
    bracketSetting.lookup.literal.resolve "v[1]".toList bracketEntry =
      some [⟨"/p/v[1]/index.styl".toList⟩] := by
  decide +kernel

end Setting

end StyleImports
