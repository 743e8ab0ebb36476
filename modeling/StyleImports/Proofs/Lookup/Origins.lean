import Mathlib.Data.List.Basic
import Mathlib.Logic.Relation
import StyleImports.Lookup.Directories

/-!
# Where a lookup finds its files

Each file that a pattern matches is listed below the base of the pattern and has the name of a
stylesheet (`Glob.mem_expand`). Each file that an import is looked up as stands at the cleaned path
of a specifier that was asked for, or is matched by it, or is the main file of a package
(`Lookup.mem_resolve`). Nothing is said here about which of these comes first.
-/

set_option autoImplicit false

namespace StyleImports

namespace FileSystem

variable {fs : FileSystem} {p : Path}

/-- A directory lists the path of an entry. -/
inductive Lists (fs : FileSystem) : Path → Path → Prop where
  | entry {dir : Path} {names : List Text} {n : Text} : fs.list dir = .ok names → n ∈ names →
      Lists fs dir (dir.join ⟨n⟩)

/-- A path that is listed below a directory, at whatever depth. -/
abbrev ListsBelow (fs : FileSystem) : Path → Path → Prop := Relation.TransGen fs.Lists

theorem exists_of_isDirectory (h : fs.isDirectory p = true) :
    fs.exists? p = true := by
  simp only [FileSystem.isDirectory, FileSystem.exists?] at h ⊢
  split at h
  case h_1 hstat =>
    rw [hstat]
    rfl
  · cases h

theorem exists_of_isFile (h : fs.isFile p = true) : fs.exists? p = true := by
  simp only [FileSystem.isFile, FileSystem.exists?] at h ⊢
  split at h
  case h_1 hstat =>
    rw [hstat]
    rfl
  · cases h

/-- What a directory hands on to its entries holds of all that is listed below it. -/
theorem of_listsBelow {P : Path → Prop} {dir : Path} (hlists : ∀ dir p, P dir → fs.Lists dir p → P p)
    (hdir : P dir) (h : fs.ListsBelow dir p) : P p := by
  induction h with
  | single hp => exact hlists _ _ hdir hp
  | tail _ hp ih => exact hlists _ _ ih hp

end FileSystem

/-! ## Patterns -/

namespace Glob

variable {fs : FileSystem}

/-- A path with the name of a stylesheet, matched by some pattern. -/
def IsMatched (patterns : List (List PatternSign)) (p : Path) : Prop :=
  ∃ (dir : Path) (above name : Text), p = dir.join ⟨name⟩ ∧ isStylesheetName name = true ∧
    patterns.any (matchesPath · (above ++ name)) = true

theorem mem_search {patterns : List (List PatternSign)} {levels : Nat} {limit : Option Nat}
    {dir p : Path} {above : Text} {found : List Path}
    (h : search fs patterns levels limit dir above = .ok found) (hp : p ∈ found) :
    fs.ListsBelow dir p ∧ fs.isFile p = true ∧ IsMatched patterns p := by
  induction levels generalizing limit dir above found p with
  | zero =>
    cases h
    cases hp
  | succ levels ih =>
    rw [search] at h
    split at h
    · cases h
    case h_2 names hlist =>
      -- What is found so far has been listed, before and after each name.
      refine List.foldlRecOn (motive := fun outcome : Except FileError (List Path) =>
        ∀ found, outcome = .ok found → ∀ p ∈ found,
          fs.ListsBelow dir p ∧ fs.isFile p = true ∧ IsMatched patterns p)
        names _ ?start ?next found h p hp
      case start =>
        rintro found ⟨⟩ p hp
        cases hp
      case next =>
        intro outcome hbefore n hn found hfound p hp
        have hentry : fs.Lists dir (dir.join ⟨n⟩) := .entry hlist hn
        dsimp only at hfound
        split at hfound
        · cases hfound
        case h_2 before =>
          have hkept := hbefore before rfl
          split at hfound
          · cases hfound
            exact hkept p hp
          · split at hfound
            · cases hfound
              exact hkept p hp
            · split at hfound
              · cases hfound
              case h_2 inner hinner =>
                cases hfound
                rcases List.mem_append.1 hp with hp | hp
                · exact hkept p hp
                · obtain ⟨hbelow, hfile⟩ := ih hinner hp
                  exact ⟨.head hentry hbelow, hfile⟩
          case h_3 size hstat =>
            split at hfound
            case isTrue hmatched =>
              cases hfound
              rcases List.mem_append.1 hp with hp | hp
              · exact hkept p hp
              · rw [Bool.and_eq_true] at hmatched
                rw [List.mem_singleton.1 hp]
                exact ⟨.single hentry, by simp [FileSystem.isFile, hstat], dir, above, n, rfl,
                  hmatched⟩
            · cases hfound
              exact hkept p hp

theorem mem_insertPath {p q : Path} {paths : List Path} (h : q ∈ insertPath p paths) :
    q = p ∨ q ∈ paths := by
  induction paths with
  | nil => exact .inl (List.mem_singleton.1 h)
  | cons r rest ih =>
    rw [insertPath] at h
    split at h
    · exact .inr h
    · split at h
      · exact List.mem_cons.1 h
      · rcases List.mem_cons.1 h with rfl | h
        · exact .inr List.mem_cons_self
        · exact (ih h).imp_right (List.mem_cons_of_mem _)

theorem mem_sortPaths {p : Path} {paths : List Path} (h : p ∈ sortPaths paths) : p ∈ paths := by
  refine List.foldlRecOn (motive := fun sorted => ∀ q ∈ sorted, q ∈ paths) paths _
    (by simp) (fun sorted hsorted r hr q hq => ?_) p h
  rcases mem_insertPath hq with rfl | hq
  · exact hr
  · exact hsorted q hq

theorem mem_expand {base p : Path} {pattern : Text} {found : List Path}
    (h : expand fs base pattern = .ok found) (hp : p ∈ found) :
    fs.ListsBelow base p ∧ fs.isFile p = true ∧
      ∃ patterns, readPatterns pattern = .ok patterns ∧ IsMatched patterns p := by
  rw [expand] at h
  split at h
  · cases h
  case h_2 patterns hpatterns =>
    split at h
    · cases h
    case h_2 unsorted hsearch =>
      cases h
      obtain ⟨hbelow, hfile, hmatched⟩ := mem_search hsearch (mem_sortPaths hp)
      exact ⟨hbelow, hfile, patterns, hpatterns, hmatched⟩

end Glob

/-! ## Directories -/

namespace Lookup

variable {l : Lookup} {file p : Path} {specifier : Text} {found : List Path}

/-- The directory below which a path is expanded if it is dynamic. -/
def globBase (path : Path) : Path := Path.clean ⟨(Glob.ofSpecifier path.clean.text).base⟩

/-- What stands at a path, or is listed below the base of the path and matched by it. -/
inductive FoundAt (l : Lookup) (path : Path) : Path → Prop where
  | itself : l.fs.isFile path.clean = true → FoundAt l path path.clean
  | below {p : Path} : l.fs.isDirectory (globBase path) = true →
      l.fs.ListsBelow (globBase path) p → l.fs.isFile p = true → FoundAt l path p

theorem FoundAt.isFile {path : Path} (h : l.FoundAt path p) : l.fs.isFile p = true := by
  cases h with
  | itself hfile => exact hfile
  | below _ _ hfile => exact hfile

theorem expand_of_globAt {path : Path} (h : l.globAt path.clean = some found) :
    l.fs.isDirectory (globBase path) = true ∧ found ≠ [] ∧
      Glob.expand l.fs (globBase path) (Glob.ofSpecifier path.clean.text).pattern =
        .ok found := by
  rw [globAt] at h
  split at h
  case isTrue hdirectory =>
    split at h
    case h_1 first rest hexpand =>
      cases h
      exact ⟨hdirectory, List.cons_ne_nil first rest, hexpand⟩
    · cases h
  · cases h

theorem fileAt_eq_some {path : Path} (h : l.fileAt path specifier = some found) :
    found = [path.clean] ∧ l.fs.isFile path.clean = true ∨ l.globAt path.clean = some found := by
  rw [fileAt] at h
  split at h
  · exact .inr h
  · split at h
    case isTrue hfile =>
      cases h
      exact .inl ⟨rfl, hfile⟩
    · cases h

theorem mem_fileAt {path : Path} (h : l.fileAt path specifier = some found) (hp : p ∈ found) :
    l.FoundAt path p := by
  rcases fileAt_eq_some h with ⟨rfl, hfile⟩ | hglob
  · rw [List.mem_singleton.1 hp]
    exact .itself hfile
  · obtain ⟨hdirectory, -, hexpand⟩ := expand_of_globAt hglob
    obtain ⟨hbelow, hfile, -⟩ := Glob.mem_expand hexpand hp
    exact .below hdirectory hbelow hfile

/-- The paths at which a specifier is looked up. -/
inductive Candidate (l : Lookup) (specifier : Text) (file : Path) : Path → Prop where
  | absolute : Specifier.isAbsolute specifier = true → Candidate l specifier file ⟨specifier⟩
  | joined {dir : Path} : Specifier.isAbsolute specifier = false → dir ∈ l.directories file →
      Candidate l specifier file (dir.join ⟨specifier⟩)

theorem exists_fileAt_of_find (h : l.find specifier file = some found) :
    ∃ path, l.Candidate specifier file path ∧ l.fileAt path specifier = some found := by
  rw [find] at h
  split at h
  case isTrue habsolute => exact ⟨_, .absolute habsolute, h⟩
  case isFalse hrelative =>
    obtain ⟨dir, hdir, hfound⟩ := List.exists_of_findSome?_eq_some h
    exact ⟨_, .joined (by simpa using hrelative) hdir, hfound⟩

theorem mem_find (h : l.find specifier file = some found) (hp : p ∈ found) :
    ∃ path, l.Candidate specifier file path ∧ l.FoundAt path p := by
  obtain ⟨path, hpath, hfound⟩ := exists_fileAt_of_find h
  exact ⟨path, hpath, mem_fileAt hfound hp⟩

/-- The names whose index file is looked up for a specifier: its own, that of its package, and the
directory of the package's manifest. -/
inductive Named (l : Lookup) (specifier : Text) (file : Path) : Text → Prop where
  | itself : Named l specifier file specifier
  | package : Named l specifier file ("node_modules/" ++ specifier)
  | home {found : List Path} {manifest home : Path} :
      l.find ("node_modules/" ++ specifier ++ "/package.json") file = some found →
      manifest ∈ found → manifest.parent? = some home → Named l specifier file home.text

/-- The specifiers that are looked up for a specifier. -/
inductive Asked (l : Lookup) (specifier : Text) (file : Path) : Text → Prop where
  | itself : Asked l specifier file (withExtension specifier)
  | index {name : Text} : l.Named specifier file name →
      Asked l specifier file (name ++ "/index.styl")
  | named {name last : Text} : l.Named specifier file name →
      (Path.mk name).fileName? = some last →
      Asked l specifier file (name ++ '/' :: stem last ++ ".styl")

/-- What a specifier is looked up as: a file that one of the specifiers asked for names, or the
main file of a package. -/
inductive Origin (l : Lookup) (specifier : Text) (file : Path) : Path → Prop where
  | found {asked : Text} {path p : Path} : l.Asked specifier file asked →
      l.Candidate asked file path → l.FoundAt path p → Origin l specifier file p
  | main {found : List Path} {manifest home : Path} {text main : Text} :
      l.find ("node_modules/" ++ specifier ++ "/package.json") file = some found →
      manifest ∈ found → manifest.parent? = some home → l.fs.readText manifest = .ok text →
      mainOf text = some main → l.fs.isFile (home.join ⟨main⟩).clean = true →
      Origin l specifier file (home.join ⟨main⟩).clean

/-- What holds of the clean paths of all that is there, and is handed on to entries, holds of what a
specifier is looked up as. -/
theorem Origin.of_clean {P : Path → Prop}
    (hclean : ∀ p : Path, l.fs.exists? p.clean = true → P p.clean)
    (hlists : ∀ dir p, P dir → l.fs.Lists dir p → P p) (h : l.Origin specifier file p) : P p := by
  cases h with
  | found _ _ hfound =>
    cases hfound with
    | itself hfile => exact hclean _ (FileSystem.exists_of_isFile hfile)
    | below hdirectory hbelow _ =>
      exact FileSystem.of_listsBelow hlists
        (hclean _ (FileSystem.exists_of_isDirectory hdirectory)) hbelow
  | main _ _ _ _ _ hfile => exact hclean _ (FileSystem.exists_of_isFile hfile)

theorem Origin.isFile (h : l.Origin specifier file p) : l.fs.isFile p = true := by
  cases h with
  | found _ _ hfound => exact hfound.isFile
  | main _ _ _ _ _ hfile => exact hfile

/-- What a specifier is looked up as, as a whole: what one of the specifiers asked for names at one
of its paths, or the main file of a package alone. -/
inductive Answer (l : Lookup) (specifier : Text) (file : Path) : List Path → Prop where
  | found {asked : Text} {path : Path} {found : List Path} : l.Asked specifier file asked →
      l.Candidate asked file path → l.fileAt path asked = some found →
      Answer l specifier file found
  | main {found : List Path} {manifest home : Path} {text main : Text} :
      l.find ("node_modules/" ++ specifier ++ "/package.json") file = some found →
      manifest ∈ found → manifest.parent? = some home → l.fs.readText manifest = .ok text →
      mainOf text = some main → l.fs.isFile (home.join ⟨main⟩).clean = true →
      Answer l specifier file [(home.join ⟨main⟩).clean]

theorem Answer.origin (h : l.Answer specifier file found) (hp : p ∈ found) :
    l.Origin specifier file p := by
  cases h with
  | found hasked hpath hfound => exact .found hasked hpath (mem_fileAt hfound hp)
  | main hfind hmanifest hhome htext hmain hfile =>
    rw [List.mem_singleton.1 hp]
    exact .main hfind hmanifest hhome htext hmain hfile

theorem answer_of_find {asked : Text} (hasked : l.Asked specifier file asked)
    (h : l.find asked file = some found) : l.Answer specifier file found := by
  obtain ⟨path, hpath, hfound⟩ := exists_fileAt_of_find h
  exact .found hasked hpath hfound

theorem answer_of_indexFile {name : Text} (hname : l.Named specifier file name)
    (h : l.indexFile name file = some found) : l.Answer specifier file found := by
  rw [indexFile] at h
  split at h
  case h_1 other hfind =>
    cases h
    exact answer_of_find (.index hname) hfind
  case h_2 =>
    split at h
    · cases h
    case h_2 last hlast => exact answer_of_find (.named hname hlast) h

theorem answer_of_package (h : l.package ("node_modules/" ++ specifier) file = some found) :
    l.Answer specifier file found := by
  rw [package] at h
  split at h
  · exact answer_of_indexFile .package h
  case h_2 manifest hmanifest =>
    obtain ⟨others, hfind, hhead⟩ := Option.bind_eq_some_iff.1 hmanifest
    have hmem := List.mem_of_mem_head? hhead
    split at h
    · cases h
    case h_2 home hhome =>
      split at h
      · exact answer_of_indexFile (.home hfind hmem hhome) h
      case h_2 text htext =>
        split at h
        · exact answer_of_indexFile (.home hfind hmem hhome) h
        case h_2 main hmain =>
          dsimp only at h
          split at h
          case isTrue hfile =>
            cases h
            exact .main hfind hmem hhome htext hmain hfile
          · cases h

theorem answer_of_resolve (h : l.resolve specifier file = some found) :
    l.Answer specifier file found := by
  rw [resolve] at h
  split at h
  case h_1 other hfind =>
    cases h
    exact answer_of_find .itself hfind
  case h_2 =>
    rw [index] at h
    split at h
    case h_1 other hindex =>
      cases h
      exact answer_of_indexFile .itself hindex
    · split at h
      · cases h
      · exact answer_of_package h

/-- Where the files come from that a specifier is looked up as. -/
theorem mem_resolve (h : l.resolve specifier file = some found) (hp : p ∈ found) :
    l.Origin specifier file p :=
  (answer_of_resolve h).origin hp

end Lookup

end StyleImports
