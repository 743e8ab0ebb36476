import Mathlib.Data.List.Infix
import StyleImports.Proofs.Files.Memory
import StyleImports.Proofs.Path.Climb

/-!
# The paths of the files of a memory

From an absolute working directory a stored file has many paths: any number of `..` in front of its
names stays at the root. But of those that climb at most so far there are finitely many
(`mem_filesWithin`). A file that is listed below a directory climbs as far as the directory does
(`IsPlaced.holds_of_listsBelow`).
-/

set_option autoImplicit false

namespace StyleImports.Memory

variable {m : Memory} {p dir : Path} {limit : Nat}

/-- A tidy path of a stored file that climbs no further than a limit. -/
structure Holds (m : Memory) (limit : Nat) (p : Path) : Prop where
  tidy : p.IsTidy
  file : m.fileSystem.isFile p = true
  climb : p.climb ≤ limit

theorem Holds.mono {more : Nat} (h : m.Holds limit p) (hle : limit ≤ more) : m.Holds more p :=
  ⟨h.tidy, h.file, Nat.le_trans h.climb hle⟩

/-- The front of a tidy path that climbs no further than a limit. -/
def stemsWithin (limit : Nat) : List (List Part) :=
  [.root] :: [.here] :: (List.range (limit + 1)).map fun count => List.replicate count .up

/-- The tidy paths of stored files that climb no further than a limit are among these. -/
def filesWithin (m : Memory) (limit : Nat) : List Path :=
  (stemsWithin limit).flatMap fun stem =>
    m.files.keys.flatMap fun key => key.parts.tails.map fun names => .ofParts (stem ++ names)

theorem mem_filesWithin (h : m.Holds limit p) : p ∈ m.filesWithin limit := by
  obtain ⟨stem, names, hparts, hstem, hnames⟩ := h.tidy.parts
  obtain ⟨key, hkey, hplace⟩ := exists_key_of_isFile h.file
  obtain ⟨stem', hstem'⟩ := Path.exists_stem_cleanFrom hparts hstem hnames m.cwd
  have htail : names ∈ key.parts.tails := by
    rw [List.mem_tails, hplace, place, hstem']
    exact List.suffix_append stem' names
  have hwithin : stem ∈ stemsWithin limit := by
    cases hstem with
    | root => exact List.mem_cons_self
    | here => exact List.mem_cons_of_mem _ List.mem_cons_self
    | ups count =>
      have hclimb := h.climb
      rw [Path.climb_ups hparts hnames] at hclimb
      refine List.mem_cons_of_mem _ (List.mem_cons_of_mem _ (List.mem_map.2 ⟨count, ?_, rfl⟩))
      exact List.mem_range.2 (by omega)
  refine List.mem_flatMap.2 ⟨stem, hwithin, List.mem_flatMap.2 ⟨key, hkey, ?_⟩⟩
  exact List.mem_map.2 ⟨names, htail, by rw [← hparts, h.tidy.canonical]⟩

/-! ## Listed files -/

/-- What is stored from an absolute working directory is the root and names. -/
theorem IsPlaced.exists_names (h : m.IsPlaced) (hcwd : m.cwd.isAbsolute = true) {key : Path}
    (hkey : key ∈ m.files.keys) :
    ∃ names, key.parts = .root :: names ∧ ∀ part ∈ names, part.IsName := by
  obtain ⟨p, rfl⟩ := h key hkey
  exact Path.exists_names_cleanFrom hcwd p

theorem IsPlaced.isName_of_list (h : m.IsPlaced) (hcwd : m.cwd.isAbsolute = true)
    {listed : List Text} {n : Text} (hlist : m.fileSystem.list dir = .ok listed)
    (hn : n ∈ listed) : (Part.name n).IsName := by
  obtain ⟨key, hkey, part, _, rfl, rest, hkeyParts⟩ := exists_key_of_list hlist hn
  obtain ⟨names, hroot, hnames⟩ := h.exists_names hcwd hkey
  have hname : part.IsName := by
    rw [hroot] at hkeyParts
    cases hplace : (m.place dir).parts with
    | nil => exact absurd hplace (m.parts_place_ne_nil dir)
    | cons first more =>
      rw [hplace] at hkeyParts
      refine hnames part ?_
      rw [← (List.cons.inj hkeyParts).2]
      simp
  cases part with
  | name n => exact hname
  | _ => cases hname

theorem IsPlaced.exists_name_of_lists (h : m.IsPlaced) (hcwd : m.cwd.isAbsolute = true)
    (hp : m.fileSystem.Lists dir p) : ∃ n, p = dir.join ⟨n⟩ ∧ (Part.name n).IsName := by
  cases hp with
  | @entry listed n hlist hn => exact ⟨n, rfl, h.isName_of_list hcwd hlist hn⟩

theorem IsPlaced.isTidy_of_lists (h : m.IsPlaced) (hcwd : m.cwd.isAbsolute = true)
    (hdir : dir.IsTidy) (hp : m.fileSystem.Lists dir p) : p.IsTidy ∧ p.climb = dir.climb := by
  obtain ⟨n, rfl, hname⟩ := h.exists_name_of_lists hcwd hp
  exact hdir.join hname

theorem IsPlaced.holds_of_listsBelow (h : m.IsPlaced) (hcwd : m.cwd.isAbsolute = true)
    (hdir : dir.IsTidy) (hbelow : m.fileSystem.ListsBelow dir p)
    (hfile : m.fileSystem.isFile p = true) : m.Holds dir.climb p := by
  have htidy : p.IsTidy ∧ p.climb = dir.climb := by
    refine FileSystem.of_listsBelow (P := fun q => q.IsTidy ∧ q.climb = dir.climb) ?_
      ⟨hdir, rfl⟩ hbelow
    intro above q habove hq
    obtain ⟨htidy, hclimb⟩ := h.isTidy_of_lists hcwd habove.1 hq
    exact ⟨htidy, hclimb.trans habove.2⟩
  exact ⟨htidy.1, hfile, Nat.le_of_eq htidy.2⟩

end StyleImports.Memory
