import StyleImports.Proofs.Lookup.Static

/-!
# Lookups in fewer files

When files are taken away, a static lookup finds what it found before as long as that is there, and
with it the manifest that is read for it (`Lookup.resolve_of_fewer`): of the candidates before the
first hit none was there, and none is now.
-/

set_option autoImplicit false

namespace StyleImports

namespace FileSystem

/-- The same working directory, and no file that was not there. -/
structure Fewer (fs less : FileSystem) : Prop where
  cwd : less.cwd = fs.cwd
  isFile : ∀ p, less.isFile p = true → fs.isFile p = true

/-- Files that are there. -/
def HasAll (fs : FileSystem) (found : List Path) : Prop := ∀ p ∈ found, fs.isFile p = true

end FileSystem

open FileSystem (Fewer)

/-- A search through a list has the same hit by two functions that agree on hits of a kind. -/
theorem findSome?_eq_of_hits {α β : Type} {f g : α → Option β} {P : β → Prop} {xs : List α}
    (hfg : ∀ x, (∀ b, f x = some b → P b) → g x = f x)
    (h : ∀ b, xs.findSome? f = some b → P b) : xs.findSome? g = xs.findSome? f := by
  induction xs with
  | nil => rfl
  | cons x xs ih =>
    rw [List.findSome?_cons] at h
    rw [List.findSome?_cons, List.findSome?_cons]
    cases hx : f x with
    | none =>
      rw [hx] at h
      rw [hfg x (fun b hb => by rw [hx] at hb; cases hb), hx]
      exact ih h
    | some b =>
      rw [hx] at h
      rw [hfg x (fun c hc => h c (by rw [hx] at hc; exact hc)), hx]

namespace Lookup

variable {fs less : FileSystem} {paths : List Path} {file : Path} {specifier : Text}

/-- The manifest that is found for a package is left as it is. -/
def KeepsManifest (l : Lookup) (less : FileSystem) (specifier : Text) (file : Path) : Prop :=
  ∀ found, l.find ("node_modules/" ++ specifier ++ "/package.json") file = some found →
    ∀ p ∈ found, less.isFile p = true ∧ less.readText p = l.fs.readText p

theorem asked_of_fewer (h : Fewer fs less) {p : Path}
    (hleft : ∀ found, (if fs.isFile p then some [p] else none) = some found →
      less.HasAll found) :
    (if less.isFile p then some [p] else none) = if fs.isFile p then some [p] else none := by
  cases hfile : fs.isFile p with
  | true =>
    rw [hfile] at hleft
    rw [hleft _ rfl p List.mem_cons_self]
  | false =>
    have hless : less.isFile p = false := by
      rw [← Bool.not_eq_true] at hfile ⊢
      exact fun hfileLess => hfile (h.isFile p hfileLess)
    rw [hless]

theorem fileAt_of_fewer (h : Fewer fs less) (hstatic : Glob.isDynamic specifier = false)
    {path : Path} (hleft : ∀ found, fileAt ⟨fs, paths⟩ path specifier = some found →
      less.HasAll found) :
    fileAt ⟨less, paths⟩ path specifier = fileAt ⟨fs, paths⟩ path specifier := by
  rw [fileAt_of_static hstatic] at hleft
  rw [fileAt_of_static hstatic, fileAt_of_static hstatic]
  exact asked_of_fewer h hleft

/-- A static specifier is found in the same place, if the file is left. -/
theorem find_of_fewer (h : Fewer fs less) (hstatic : Glob.isDynamic specifier = false)
    (hleft : ∀ found, find ⟨fs, paths⟩ specifier file = some found → less.HasAll found) :
    find ⟨less, paths⟩ specifier file = find ⟨fs, paths⟩ specifier file := by
  have hdirectories : directories ⟨less, paths⟩ file = directories ⟨fs, paths⟩ file := by
    simp only [directories, h.cwd]
  rw [find] at hleft
  rw [find, find]
  split
  case isTrue habsolute =>
    rw [if_pos habsolute] at hleft
    exact fileAt_of_fewer h hstatic hleft
  case isFalse hrelative =>
    rw [if_neg hrelative] at hleft
    rw [hdirectories]
    exact findSome?_eq_of_hits (fun dir => fileAt_of_fewer h hstatic) hleft

theorem indexFile_of_fewer (h : Fewer fs less) {name : Text}
    (hindex : Glob.isDynamic (name ++ "/index.styl") = false)
    (hnamed : ∀ last, (Path.mk name).fileName? = some last →
      Glob.isDynamic (name ++ '/' :: stem last ++ ".styl") = false)
    (hleft : ∀ found, indexFile ⟨fs, paths⟩ name file = some found → less.HasAll found) :
    indexFile ⟨less, paths⟩ name file = indexFile ⟨fs, paths⟩ name file := by
  have hfirst := find_of_fewer h hindex fun found hfound => hleft found (by rw [indexFile, hfound])
  rw [indexFile] at hleft
  rw [indexFile, indexFile, hfirst]
  cases hfind : find ⟨fs, paths⟩ (name ++ "/index.styl") file with
  | some found => rfl
  | none =>
    rw [hfind] at hleft
    dsimp only at hleft ⊢
    cases hlast : (Path.mk name).fileName? with
    | none => rfl
    | some last =>
      rw [hlast] at hleft
      exact find_of_fewer h (hnamed last hlast) hleft

section
variable (h : Fewer fs less) (hstatic : IsStatic ⟨fs, paths⟩ specifier file)
include h hstatic

theorem indexFile_of_named {name : Text} (hname : Named ⟨fs, paths⟩ specifier file name)
    (hleft : ∀ found, indexFile ⟨fs, paths⟩ name file = some found → less.HasAll found) :
    indexFile ⟨less, paths⟩ name file = indexFile ⟨fs, paths⟩ name file :=
  indexFile_of_fewer h (hstatic _ (.index hname)) (fun _ hlast => hstatic _ (.named hname hlast))
    hleft

theorem package_of_fewer (hmanifest : KeepsManifest ⟨fs, paths⟩ less specifier file)
    (hleft : ∀ found, package ⟨fs, paths⟩ ("node_modules/" ++ specifier) file = some found →
      less.HasAll found) :
    package ⟨less, paths⟩ ("node_modules/" ++ specifier) file =
      package ⟨fs, paths⟩ ("node_modules/" ++ specifier) file := by
  have hkept := find_of_fewer h hstatic.manifest
    fun found hfound p hp => (hmanifest found hfound p hp).1
  rw [package] at hleft
  rw [package, package, hkept]
  -- With the same manifest and the same text of it, both lookups go on alike.
  cases hfind : find ⟨fs, paths⟩ ("node_modules/" ++ specifier ++ "/package.json") file with
  | none =>
    rw [hfind] at hleft
    exact indexFile_of_named h hstatic .package hleft
  | some found =>
    obtain ⟨path, rfl, _⟩ := find_of_static hstatic.manifest hfind
    have hmem : path.clean ∈ [path.clean] := List.mem_cons_self
    have hread := (hmanifest _ hfind path.clean hmem).2
    rw [hfind] at hleft
    simp only [Option.bind_some, List.head?_cons] at hleft ⊢
    cases hhome : path.clean.parent? with
    | none => rfl
    | some home =>
      have hnamed : Named ⟨fs, paths⟩ specifier file home.text := .home hfind hmem hhome
      simp only [hhome] at hleft ⊢
      rw [hread]
      cases htext : fs.readText path.clean with
      | error e =>
        rw [htext] at hleft
        exact indexFile_of_named h hstatic hnamed hleft
      | ok text =>
        rw [htext] at hleft
        dsimp only at hleft ⊢
        cases hmain : mainOf text with
        | none =>
          rw [hmain] at hleft
          exact indexFile_of_named h hstatic hnamed hleft
        | some main =>
          rw [hmain] at hleft
          exact asked_of_fewer h hleft

/-- A static lookup finds what it found among more files, if that is left. -/
theorem resolve_of_fewer (hmanifest : KeepsManifest ⟨fs, paths⟩ less specifier file)
    (hleft : ∀ found, resolve ⟨fs, paths⟩ specifier file = some found → less.HasAll found) :
    resolve ⟨less, paths⟩ specifier file = resolve ⟨fs, paths⟩ specifier file := by
  have hitself := find_of_fewer h (hstatic _ .itself)
    fun found hfound => hleft found (by rw [resolve, hfound])
  rw [resolve] at hleft
  rw [resolve, resolve, hitself]
  cases hfind : find ⟨fs, paths⟩ (withExtension specifier) file with
  | some found => rfl
  | none =>
    rw [hfind] at hleft
    dsimp only at hleft ⊢
    have hindex := indexFile_of_named h hstatic .itself
      fun found hfound => hleft found (by rw [index, hfound])
    rw [index] at hleft
    rw [index, index, hindex]
    cases hname : indexFile ⟨fs, paths⟩ specifier file with
    | some found => rfl
    | none =>
      rw [hname] at hleft
      dsimp only at hleft ⊢
      split
      case isTrue => rfl
      case isFalse hmodules =>
        rw [if_neg hmodules] at hleft
        exact package_of_fewer h hstatic hmanifest hleft

end

end Lookup

end StyleImports
