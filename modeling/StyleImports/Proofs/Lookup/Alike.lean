import StyleImports.Graph.Resolution
import StyleImports.Proofs.Files.Memory
import StyleImports.Proofs.Lookup.Manifest
import StyleImports.Url.Rebaser

/-!
# File systems that look alike

Two file systems look alike if they hold files and directories at the same paths and the same text
in every manifest of a package (`FileSystem.Alike`). An import of a file is resolved alike in both
(`Setting.resolve_alike`), whatever the other files hold, and so is a URL
(`UrlRebaser.rebase_alike`). Memories that store files under the same paths look alike as soon as
their manifests do (`Memory.alike`).
-/

set_option autoImplicit false

namespace StyleImports

namespace FileSystem

/-- The same kind of thing, or nothing. -/
inductive SameKind : Except FileError FileKind → Except FileError FileKind → Prop where
  | nothing (e e' : FileError) : SameKind (.error e) (.error e')
  | directory : SameKind (.ok .directory) (.ok .directory)
  | file (size size' : Nat) : SameKind (.ok (.file size)) (.ok (.file size'))

/-- The same files and directories, and the same manifests. -/
structure Alike (fs fs' : FileSystem) : Prop where
  cwd : fs'.cwd = fs.cwd
  stat : ∀ p, SameKind (fs.stat p) (fs'.stat p)
  list : ∀ p, fs'.list p = fs.list p
  depth : fs'.depth = fs.depth
  size : fs'.size = fs.size
  manifest : ∀ p : Path, p.fileName? = some Lookup.manifestName → fs'.readText p = fs.readText p

variable {fs fs' : FileSystem}

theorem Alike.isFile (h : fs.Alike fs') (p : Path) : fs'.isFile p = fs.isFile p := by
  rw [FileSystem.isFile, FileSystem.isFile]
  generalize hstat : fs.stat p = kind, hstat' : fs'.stat p = kind'
  cases hstat ▸ hstat' ▸ h.stat p <;> rfl

theorem Alike.isDirectory (h : fs.Alike fs') (p : Path) : fs'.isDirectory p = fs.isDirectory p := by
  rw [FileSystem.isDirectory, FileSystem.isDirectory]
  generalize hstat : fs.stat p = kind, hstat' : fs'.stat p = kind'
  cases hstat ▸ hstat' ▸ h.stat p <;> rfl

end FileSystem

open FileSystem (Alike)

variable {fs fs' : FileSystem}

/-! ## Patterns -/

namespace Glob

theorem isRequest_alike (h : fs.Alike fs') (candidate : Path) (specifier : Text) :
    isRequest fs' candidate specifier = isRequest fs candidate specifier := by
  rw [isRequest, isRequest, h.isDirectory, h.isFile]

theorem search_alike (h : fs.Alike fs') (patterns : List (List PatternSign)) (levels : Nat)
    (limit : Option Nat) (dir : Path) (above : Text) :
    search fs' patterns levels limit dir above = search fs patterns levels limit dir above := by
  induction levels generalizing limit dir above with
  | zero => rfl
  | succ levels ih =>
    rw [search, search, h.list]
    cases fs.list dir with
    | error e => rfl
    | ok names =>
      refine List.foldl_ext _ _ _ fun found name _ => ?_
      cases found with
      | error e => rfl
      | ok found =>
        have hkind := h.stat (dir.join ⟨name⟩)
        dsimp only
        generalize fs.stat (dir.join ⟨name⟩) = kind at hkind
        generalize fs'.stat (dir.join ⟨name⟩) = kind' at hkind
        cases hkind with
        | nothing => rfl
        | directory => simp only [ih]
        | file => rfl

theorem expand_alike (h : fs.Alike fs') (base : Path) (pattern : Text) :
    expand fs' base pattern = expand fs base pattern := by
  simp only [expand, search_alike h, h.depth]

end Glob

/-! ## Lookups -/

namespace Lookup

variable {paths : List Path}

theorem fileAt_alike (h : fs.Alike fs') (path : Path) (specifier : Text) :
    fileAt ⟨fs', paths⟩ path specifier = fileAt ⟨fs, paths⟩ path specifier := by
  simp only [fileAt, globAt, Glob.isRequest_alike h, h.isDirectory, h.isFile,
    Glob.expand_alike h]

theorem find_alike (h : fs.Alike fs') (specifier : Text) (file : Path) :
    find ⟨fs', paths⟩ specifier file = find ⟨fs, paths⟩ specifier file := by
  have hdirectories : directories ⟨fs', paths⟩ file = directories ⟨fs, paths⟩ file := by
    simp only [directories, h.cwd]
  simp only [find, fileAt_alike h, hdirectories]

theorem indexFile_alike (h : fs.Alike fs') (name : Text) (file : Path) :
    indexFile ⟨fs', paths⟩ name file = indexFile ⟨fs, paths⟩ name file := by
  simp only [indexFile, find_alike h]

/-- Only manifests are read to find a package. -/
theorem package_alike (h : fs.Alike fs') (dir : Text) (file : Path) :
    package ⟨fs', paths⟩ dir file = package ⟨fs, paths⟩ dir file := by
  simp only [package, find_alike h, indexFile_alike h]
  cases hfind : find ⟨fs, paths⟩ (dir ++ "/package.json") file with
  | none => rfl
  | some found =>
    cases found with
    | nil => rfl
    | cons manifest rest =>
      have hread := h.manifest manifest (fileName?_of_find hfind List.mem_cons_self)
      simp only [Option.bind_some, List.head?_cons, hread, h.isFile]

theorem resolve_alike (h : fs.Alike fs') (specifier : Text) (file : Path) :
    resolve ⟨fs', paths⟩ specifier file = resolve ⟨fs, paths⟩ specifier file := by
  simp only [resolve, index, find_alike h, indexFile_alike h, package_alike h]

end Lookup

/-! ## Imports and URLs -/

namespace Setting

/-- The setting with other files. -/
def withFiles (s : Setting) (fs : FileSystem) : Setting := { s with fs := fs }

theorem resolveStatic_alike {s : Setting} (h : s.fs.Alike fs') (file : Path) (specifier : Text) :
    (s.withFiles fs').resolveStatic file specifier = s.resolveStatic file specifier := by
  simp only [resolveStatic, withFiles, Lookup.resolve_alike h]

theorem resolvePattern_alike {s : Setting} (h : s.fs.Alike fs') (file : Path) (specifier : Text) :
    (s.withFiles fs').resolvePattern file specifier = s.resolvePattern file specifier := by
  have hbase : ∀ base, (s.withFiles fs').resolveBase file base = s.resolveBase file base := by
    intro base
    simp only [resolveBase, withFiles, h.isDirectory]
  have hexpand : ∀ base pattern, (s.withFiles fs').expandBelow base specifier pattern =
      s.expandBelow base specifier pattern := by
    intro base pattern
    simp only [expandBelow, withFiles, Glob.expand_alike h]
  simp only [resolvePattern, hbase, hexpand]

/-- An import is resolved alike in file systems that look alike. -/
theorem resolve_alike {s : Setting} (h : s.fs.Alike fs') (file : Path) (i : Sheet.Import) :
    (s.withFiles fs').resolve file i = s.resolve file i := by
  have hpattern : (s.withFiles fs').isPattern file i.specifier = s.isPattern file i.specifier :=
    Glob.isRequest_alike h _ i.specifier
  rw [resolve, resolve, hpattern, resolveStatic_alike h, resolvePattern_alike h]

end Setting

namespace UrlRebaser

theorem rebase_alike (h : fs.Alike fs') (entry : Path) (urls : UrlOptions)
    (searchPaths : List Path) (file : Path) (t : Text) :
    (ofOptions fs' entry urls searchPaths).rebase file t =
      (ofOptions fs entry urls searchPaths).rebase file t := by
  have hfiles : fs'.isFile = fs.isFile := funext h.isFile
  have hlocate : (ofOptions fs' entry urls searchPaths).locate =
      (ofOptions fs entry urls searchPaths).locate := by
    funext dir path
    simp only [locate, ofOptions, h.cwd, hfiles]
    rfl
  have hresolve : (ofOptions fs' entry urls searchPaths).resolve =
      (ofOptions fs entry urls searchPaths).resolve := by
    funext file url
    simp only [resolve, resolveTarget, hlocate]
    rfl
  have hargument : (ofOptions fs' entry urls searchPaths).rebaseArgument file =
      (ofOptions fs entry urls searchPaths).rebaseArgument file := by
    funext argument
    unfold rebaseArgument
    simp only [hresolve]
  rw [rebase, rebase, hargument]

end UrlRebaser

/-! ## Files in memory -/

namespace Memory

variable {m m' : Memory}

/-- The same paths, and the same content in every manifest of a package. -/
structure SamePaths (m m' : Memory) : Prop where
  cwd : m'.cwd = m.cwd
  keys : m'.files.keys = m.files.keys
  manifest : ∀ key ∈ m.files.keys, key.fileName? = some Lookup.manifestName →
    m'.files.get? key = m.files.get? key

theorem SamePaths.place (h : m.SamePaths m') (p : Path) : m'.place p = m.place p := by
  rw [Memory.place, Memory.place, h.cwd]

theorem SamePaths.isSome_get? (h : m.SamePaths m') (p : Path) :
    (m'.files.get? p).isSome = (m.files.get? p).isSome := by
  rw [← PathTable.contains_eq_isSome_get?, ← PathTable.contains_eq_isSome_get?, Bool.eq_iff_iff,
    PathTable.contains_iff, PathTable.contains_iff, h.keys]

theorem SamePaths.sameKind (h : m.SamePaths m') (p : Path) :
    FileSystem.SameKind (m.fileSystem.stat p) (m'.fileSystem.stat p) := by
  have hsome := h.isSome_get? (m.place p)
  have habove : m'.isAbove (m.place p) = m.isAbove (m.place p) := by
    rw [isAbove, isAbove, h.keys]
  simp only [fileSystem, stat, h.place, habove]
  cases hget : m.files.get? (m.place p) <;> cases hget' : m'.files.get? (m.place p) <;>
    rw [hget, hget'] at hsome
  case none.none =>
    dsimp only
    split
    · exact .directory
    · exact .nothing _ _
  case some.some => exact .file _ _
  all_goals cases hsome

theorem SamePaths.get?_manifest (h : m.SamePaths m') {p : Path}
    (hp : p.fileName? = some Lookup.manifestName) :
    m'.files.get? (m.place p) = m.files.get? (m.place p) := by
  cases hget : m.files.get? (m.place p) with
  | none =>
    have hsome := h.isSome_get? (m.place p)
    rw [hget] at hsome
    exact Option.isSome_eq_false_iff.1 hsome |> Option.isNone_iff_eq_none.1
  | some content =>
    obtain ⟨key, hkey, hsame⟩ := exists_key_of_get? hget
    have hname : key.fileName? = some Lookup.manifestName := by
      rw [Path.fileName?_congr hsame]
      exact Path.fileName?_cleanFrom Lookup.isName_manifestName hp
    rw [← hget, ← PathTable.get?_congr hsame, ← PathTable.get?_congr hsame]
    exact h.manifest key hkey hname

/-- Memories that store files under the same paths look alike if their manifests do. -/
theorem SamePaths.alike (h : m.SamePaths m') : m.fileSystem.Alike m'.fileSystem where
  cwd := h.cwd
  stat := h.sameKind
  list p := by simp only [fileSystem, list, entryNames, h.place, h.keys]
  depth := by simp only [fileSystem, depth, h.keys]
  size := by
    have hlength := congrArg List.length h.keys
    rw [PathTable.keys, PathTable.keys, List.length_map, List.length_map] at hlength
    exact hlength
  manifest p hp := by
    simp only [FileSystem.readText, fileSystem, read, h.place, h.get?_manifest hp]

end Memory

end StyleImports
