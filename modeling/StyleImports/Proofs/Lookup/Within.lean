import StyleImports.Proofs.Files.Within
import StyleImports.Proofs.Lookup.Origins

/-!
# How far lookups climb

A lookup in directories leaves the root only downwards. What it finds climbs if the specifier itself
names a path that does: one with a drive letter or of a share, which is taken as it is and is
relative all the same. So the files that finitely many specifiers can be looked up as climb no
further than some limit (`Lookup.exists_limit`), from whichever files they are asked for.
-/

set_option autoImplicit false

namespace StyleImports

theorem exists_bound {α : Type} (xs : List α) (f : α → Nat) : ∃ limit, ∀ x ∈ xs, f x ≤ limit := by
  induction xs with
  | nil => exact ⟨0, by simp⟩
  | cons x xs ih =>
    obtain ⟨limit, hlimit⟩ := ih
    refine ⟨max (f x) limit, fun y hy => ?_⟩
    rcases List.mem_cons.1 hy with rfl | hy
    · exact Nat.le_max_left ..
    · exact Nat.le_trans (hlimit y hy) (Nat.le_max_right ..)

/-- The base of a specifier from the root is from the root, unless there is none. -/
theorem Glob.base_of_slash (t : Text) :
    (ofSpecifier ('/' :: t)).base = ['.'] ∨
      ∃ rest, (ofSpecifier ('/' :: t)).base = '/' :: rest := by
  have hsegments : Text.splitOn '/' ('/' :: t) = [] :: Text.splitOn '/' t := by
    simp [Text.splitOn]
  have hstatic : isDynamic [] = false := by decide
  simp only [ofSpecifier, hsegments, List.dropLast_cons_of_ne_nil (Text.splitOn_ne_nil '/' t)]
  rw [List.takeWhile_cons_of_pos (by simp [hstatic]), List.length_cons, List.take_succ_cons]
  generalize (Text.splitOn '/' t).take _ = names
  cases names with
  | nil => exact .inl rfl
  | cons name names => exact .inr ⟨_, rfl⟩

namespace Lookup

variable {m : Memory} {paths : List Path} {file path p : Path} {specifier asked : Text}

/-! ## Absolute paths -/

theorem isAbsolute_of_mem_directories (hcwd : m.cwd.isAbsolute = true) {dir : Path}
    (h : dir ∈ Lookup.directories ⟨m.fileSystem, paths⟩ file) : dir.isAbsolute = true := by
  refine List.foldlRecOn (motive := fun dirs => ∀ dir ∈ dirs, dir.isAbsolute = true) _ _ ?start
    (fun dirs hdirs next hnext => ?next) dir h
  case start =>
    intro dir hdir
    split at hdir
    · rw [List.mem_singleton.1 hdir]
      exact Path.isAbsolute_cleanFrom hcwd _
    · cases hdir
  case next =>
    intro dir hdir
    rw [Path.addNew] at hdir
    split at hdir
    · exact hdirs dir hdir
    · rcases List.mem_append.1 hdir with hdir | hdir
      · exact hdirs dir hdir
      · obtain ⟨q, _, rfl⟩ := List.mem_map.1 hnext
        rw [List.mem_singleton.1 hdir]
        exact Path.isAbsolute_cleanFrom hcwd q

theorem climb_globBase (h : path.isAbsolute = true) : (globBase path).climb = 0 := by
  obtain ⟨t, ht⟩ := Path.isAbsolute_iff.1 (Path.isAbsolute_clean h)
  rw [globBase, ht]
  rcases Glob.base_of_slash t with hbase | ⟨rest, hbase⟩
  · rw [hbase]
    decide
  · rw [hbase]
    exact Path.climb_of_isAbsolute (Path.isAbsolute_clean (Path.isAbsolute_iff.2 ⟨rest, rfl⟩))

/-! ## Found files -/

/-- How far a file climbs that is found at a path. -/
def climbAt (path : Path) : Nat := max path.clean.climb (globBase path).climb

theorem climbAt_of_isAbsolute (h : path.isAbsolute = true) : climbAt path = 0 := by
  rw [climbAt, Path.climb_of_isAbsolute (Path.isAbsolute_clean h), climb_globBase h]
  rfl

theorem FoundAt.holds (hplaced : m.IsPlaced) (hcwd : m.cwd.isAbsolute = true)
    (h : FoundAt ⟨m.fileSystem, paths⟩ path p) : m.Holds (climbAt path) p := by
  cases h with
  | itself hfile => exact ⟨path.isTidy_clean, hfile, Nat.le_max_left ..⟩
  | below _ hbelow hfile =>
    have hholds := hplaced.holds_of_listsBelow hcwd (Path.isTidy_clean _) hbelow hfile
    exact hholds.mono (Nat.le_max_right ..)

/-- A file that is looked up climbs no further than its specifier by itself. -/
theorem Candidate.holds (hplaced : m.IsPlaced) (hcwd : m.cwd.isAbsolute = true)
    (h : Candidate ⟨m.fileSystem, paths⟩ asked file path)
    (hp : FoundAt ⟨m.fileSystem, paths⟩ path p) : m.Holds (climbAt ⟨asked⟩) p := by
  have hholds := hp.holds hplaced hcwd
  cases h with
  | absolute => exact hholds
  | joined _ hdir =>
    have habsolute := Path.isAbsolute_join (isAbsolute_of_mem_directories hcwd hdir) ⟨asked⟩
    rw [climbAt_of_isAbsolute habsolute] at hholds
    exact hholds.mono (Nat.zero_le _)

theorem holds_manifest (hplaced : m.IsPlaced) (hcwd : m.cwd.isAbsolute = true) {found : List Path}
    (h : Lookup.find ⟨m.fileSystem, paths⟩ ("node_modules/" ++ specifier ++ "/package.json") file =
      some found) (hp : p ∈ found) : m.Holds 0 p := by
  obtain ⟨path, hpath, hfound⟩ := mem_find h hp
  have hholds := hfound.holds hplaced hcwd
  cases hpath with
  | absolute habsolute =>
    simp [Specifier.isAbsolute, Specifier.isDrivePath, Specifier.isSchemeRelative] at habsolute
  | joined _ hdir =>
    rwa [climbAt_of_isAbsolute (Path.isAbsolute_join (isAbsolute_of_mem_directories hcwd hdir) _)]
      at hholds

/-! ## Specifiers -/

/-- The directories in which a manifest may lie. -/
def homes (m : Memory) : List Path := (m.filesWithin 0).filterMap Path.parent?

/-- The names whose index file may be looked up for some specifiers. -/
def names (m : Memory) (specifiers : List Text) : List Text :=
  specifiers ++ specifiers.map ("node_modules/".toList ++ ·) ++ (homes m).map Path.text

/-- What may be asked for when an index file is looked up under a name. -/
def asksOf (name : Text) : List Text :=
  [withExtension name, name ++ "/index.styl"] ++
    ((Path.mk name).fileName?.map fun last => name ++ '/' :: stem last ++ ".styl").toList

theorem Named.mem_names (hplaced : m.IsPlaced) (hcwd : m.cwd.isAbsolute = true)
    {specifiers : List Text} {name : Text} (hspecifier : specifier ∈ specifiers)
    (h : Named ⟨m.fileSystem, paths⟩ specifier file name) : name ∈ names m specifiers := by
  cases h with
  | itself => exact List.mem_append_left _ (List.mem_append_left _ hspecifier)
  | package =>
    exact List.mem_append_left _ (List.mem_append_right _ (List.mem_map.2 ⟨_, hspecifier, rfl⟩))
  | home hfind hmanifest hhome =>
    refine List.mem_append_right _ (List.mem_map_of_mem (List.mem_filterMap.2 ⟨_, ?_, hhome⟩))
    exact Memory.mem_filesWithin (holds_manifest hplaced hcwd hfind hmanifest)

theorem Asked.mem_asks (hplaced : m.IsPlaced) (hcwd : m.cwd.isAbsolute = true)
    {specifiers : List Text} (hspecifier : specifier ∈ specifiers)
    (h : Asked ⟨m.fileSystem, paths⟩ specifier file asked) :
    asked ∈ (names m specifiers).flatMap asksOf := by
  cases h with
  | itself =>
    have hnamed : Named ⟨m.fileSystem, paths⟩ specifier file specifier := .itself
    have hname := hnamed.mem_names hplaced hcwd hspecifier
    exact List.mem_flatMap.2 ⟨specifier, hname, by simp [asksOf]⟩
  | @index name hnamed =>
    exact List.mem_flatMap.2 ⟨name, hnamed.mem_names hplaced hcwd hspecifier, by simp [asksOf]⟩
  | @named name last hnamed hlast =>
    exact List.mem_flatMap.2
      ⟨name, hnamed.mem_names hplaced hcwd hspecifier, by simp [asksOf, hlast]⟩

/-- What some specifiers are looked up as climbs no further than a limit. -/
theorem exists_limit (hplaced : m.IsPlaced) (hcwd : m.cwd.isAbsolute = true)
    (specifiers : List Text) : ∃ limit, ∀ specifier ∈ specifiers, ∀ paths file p,
      Origin ⟨m.fileSystem, paths⟩ specifier file p → m.Holds limit p := by
  obtain ⟨limit, hlimit⟩ := exists_bound ((names m specifiers).flatMap asksOf)
    fun asked => climbAt ⟨asked⟩
  obtain ⟨mainLimit, hmainLimit⟩ := exists_bound
    ((homes m).flatMap fun home =>
      (m.texts.filterMap mainOf).map fun main => (home.join ⟨main⟩).clean)
    Path.climb
  refine ⟨max limit mainLimit, fun specifier hspecifier paths file p horigin => ?_⟩
  cases horigin with
  | found hasked hcandidate hfound =>
    have hbound := hlimit _ (hasked.mem_asks hplaced hcwd hspecifier)
    exact (hcandidate.holds hplaced hcwd hfound).mono (Nat.le_trans hbound (Nat.le_max_left ..))
  | @main found manifest home text main hfind hmanifest hhome htext hmain hfile =>
    have hhomes : home ∈ homes m := List.mem_filterMap.2
      ⟨manifest, Memory.mem_filesWithin (holds_manifest hplaced hcwd hfind hmanifest), hhome⟩
    have hmains : main ∈ m.texts.filterMap mainOf :=
      List.mem_filterMap.2 ⟨text, Memory.mem_texts htext, hmain⟩
    have hbound := hmainLimit (home.join ⟨main⟩).clean
      (List.mem_flatMap.2 ⟨home, hhomes, List.mem_map.2 ⟨main, hmains, rfl⟩⟩)
    exact ⟨Path.isTidy_clean _, hfile, Nat.le_trans hbound (Nat.le_max_right ..)⟩

end Lookup

end StyleImports
