import Mathlib.Logic.Relation
import StyleImports.Proofs.Files.Plain
import StyleImports.Proofs.Lookup.Fewer

/-!
# Changes between walks

Files in memory are created or edited or removed. When only manifests are edited, files come and
none goes (`Memory.fewer_of_creates`); when no manifest is touched and nothing is created, files go
and none comes, and manifests stay as they are (`Memory.reduced_of_reduces`).
-/

set_option autoImplicit false

namespace StyleImports

theorem FileSystem.Fewer.refl (fs : FileSystem) : fs.Fewer fs := ⟨rfl, fun _ hp => hp⟩

theorem FileSystem.Fewer.trans {fs less least : FileSystem} (h : fs.Fewer less)
    (h' : less.Fewer least) : fs.Fewer least :=
  ⟨h'.cwd.trans h.cwd, fun p hp => h.isFile p (h'.isFile p hp)⟩

namespace Memory

variable {m m' : Memory} {p : Path} {T : Set Text}

/-! ## Creations -/

/-- A file is created at a path where none is, or a manifest of a package is written. -/
inductive Creates : Memory → Memory → Prop where
  | create {m : Memory} {p : Path} (content : Bytes) : m.has p = false →
      Creates m (m.add p content)
  | manifest {m : Memory} {p : Path} (content : Bytes) :
      (m.place p).fileName? = some Lookup.manifestName → Creates m (m.add p content)

theorem fewer_of_add (m : Memory) (p : Path) (content : Bytes) :
    (m.add p content).fileSystem.Fewer m.fileSystem := by
  refine ⟨rfl, fun q hq => ?_⟩
  rw [isFile_eq_has, has] at hq ⊢
  rw [add, PathTable.contains_insert]
  exact Bool.or_eq_true_iff.2 (.inr hq)

theorem fewer_of_creates (h : Relation.ReflTransGen Creates m m') :
    m'.fileSystem.Fewer m.fileSystem := by
  induction h with
  | refl => exact .refl _
  | tail _ hstep ih =>
    cases hstep with
    | create content => exact (fewer_of_add _ _ content).trans ih
    | manifest content => exact (fewer_of_add _ _ content).trans ih

/-! ## Edits and removals -/

/-- A file is edited or removed that is no manifest of a package. `T` tells the texts that files may
get. -/
inductive Reduces (T : Set Text) : Memory → Memory → Prop where
  | edit {m : Memory} {p : Path} {content : Bytes} : m.has p = true →
      (m.place p).fileName? ≠ some Lookup.manifestName →
      (∀ t, Text.ofUtf8 content = .ok t → t ∈ T) → Reduces T m (m.add p content)
  | remove {m : Memory} {p : Path} : (m.place p).fileName? ≠ some Lookup.manifestName →
      Reduces T m (m.remove p)

/-- No stored path holds a character. -/
def Lacks (m : Memory) (c : Char) : Prop := ∀ key ∈ m.files.keys, c ∉ key.text

instance (m : Memory) (c : Char) : Decidable (m.Lacks c) :=
  inferInstanceAs (Decidable (∀ key ∈ m.files.keys, c ∉ key.text))

/-- Files are gone and none is new, manifests are the same. -/
structure Reduced (m m' : Memory) : Prop where
  cwd : m'.cwd = m.cwd
  has : ∀ p, m'.has p = true → m.has p = true
  lacks : ∀ c, c ≠ '/' → c ≠ '.' → m.Lacks c → m'.Lacks c
  manifest : ∀ p : Path, p.fileName? = some Lookup.manifestName →
    m'.files.get? (m.place p) = m.files.get? (m.place p)

theorem Reduced.refl (m : Memory) : m.Reduced m :=
  ⟨rfl, fun _ h => h, fun _ _ _ h => h, fun _ _ => rfl⟩

theorem Reduced.place (h : m.Reduced m') (p : Path) : m'.place p = m.place p := by
  rw [Memory.place, Memory.place, h.cwd]

theorem Reduced.trans {m'' : Memory} (h : m.Reduced m') (h' : m'.Reduced m'') : m.Reduced m'' where
  cwd := h'.cwd.trans h.cwd
  has p hp := h.has p (h'.has p hp)
  lacks c hslash hdot hc := h'.lacks c hslash hdot (h.lacks c hslash hdot hc)
  manifest p hp := by
    rw [← h.manifest p hp, ← h.place p]
    exact h'.manifest p hp

/-- The place of a stored file holds no characters but those of stored paths, slashes and dots. -/
theorem Lacks.place {c : Char} (hslash : c ≠ '/') (hdot : c ≠ '.') (hlacks : m.Lacks c)
    (hp : m.has p = true) : c ∉ (m.place p).text := by
  obtain ⟨q, hq⟩ := Path.cleanFrom_eq_clean m.cwd p
  obtain ⟨key, hkey, hsame⟩ := PathTable.contains_iff.1 hp
  have hcanonical : (m.place p).IsCanonical := by
    rw [Memory.place, hq]
    exact q.isCanonical_clean
  refine hcanonical.not_mem hslash hdot fun n hn => ?_
  rw [← Path.same_iff.1 hsame] at hn
  exact Path.not_mem_of_mem_parts (hlacks key hkey) hn

/-- A manifest is stored under a path with its name, and no other file is. -/
theorem not_same_of_manifest {q : Path} (hq : q.fileName? = some Lookup.manifestName)
    (hp : (m.place p).fileName? ≠ some Lookup.manifestName) :
    (m.place q).same (m.place p) = false := by
  rw [← Bool.not_eq_true]
  intro hsame
  rw [← Path.fileName?_congr hsame] at hp
  exact hp (Path.fileName?_cleanFrom Lookup.isName_manifestName hq)

theorem reduced_of_edit (hhas : m.has p = true)
    (hp : (m.place p).fileName? ≠ some Lookup.manifestName) (content : Bytes) :
    m.Reduced (m.add p content) where
  cwd := rfl
  has q hq := by
    rw [Memory.has, add, PathTable.contains_insert, Bool.or_eq_true] at hq
    rcases hq with hsame | hq
    · rw [Memory.has, PathTable.contains_congr hsame] at hhas
      exact hhas
    · exact hq
  lacks c hslash hdot hlacks key hkey := by
    rcases PathTable.mem_keys_insert hkey with rfl | hkey
    · exact hlacks.place hslash hdot hhas
    · exact hlacks key hkey
  manifest q hq := PathTable.get?_insert_of_not_same (not_same_of_manifest hq hp)

theorem reduced_of_remove (hp : (m.place p).fileName? ≠ some Lookup.manifestName) :
    m.Reduced (m.remove p) where
  cwd := rfl
  has q hq := by
    rw [Memory.has, PathTable.contains_eq_isSome_get?, remove, PathTable.get?_erase] at hq
    rw [Memory.has, PathTable.contains_eq_isSome_get?]
    split at hq
    · cases hq
    · exact hq
  lacks c _ _ hlacks key hkey := by
    obtain ⟨e, he, rfl⟩ := List.mem_map.1 hkey
    exact hlacks e.1 (List.mem_map_of_mem (List.mem_filter.1 he).1)
  manifest q hq := by
    rw [remove, PathTable.get?_erase, not_same_of_manifest hq hp]
    rfl

theorem reduced_of_reduces (h : Relation.ReflTransGen (Reduces T) m m') : m.Reduced m' := by
  induction h with
  | refl => exact .refl m
  | tail _ hstep ih =>
    cases hstep with
    | edit hhas hp _ => exact ih.trans (reduced_of_edit hhas hp _)
    | remove hp => exact ih.trans (reduced_of_remove hp)

theorem texts_of_reduces (h : Reduces T m m') (htexts : ∀ t ∈ m.texts, t ∈ T) :
    ∀ t ∈ m'.texts, t ∈ T := by
  intro t ht
  obtain ⟨e, he, htext⟩ := List.mem_filterMap.1 ht
  cases h with
  | edit _ _ hT =>
    rcases PathTable.mem_entries_insert he with ⟨_, hnew⟩ | hold
    · rw [hnew] at htext
      refine hT t ?_
      cases hdecoded : Text.ofUtf8 _ with
      | error fault =>
        rw [hdecoded] at htext
        cases htext
      | ok text =>
        rw [hdecoded] at htext
        rw [Option.some.inj htext]
    · exact htexts t (List.mem_filterMap.2 ⟨e, hold, htext⟩)
  | remove => exact htexts t (List.mem_filterMap.2 ⟨e, (List.mem_filter.1 he).1, htext⟩)

theorem Reduced.fewer (h : m.Reduced m') : m.fileSystem.Fewer m'.fileSystem := by
  refine ⟨h.cwd, fun p hp => ?_⟩
  rw [isFile_eq_has] at hp ⊢
  exact h.has p hp

theorem Reduced.manifest_eq (h : m.Reduced m') (hp : p.fileName? = some Lookup.manifestName) :
    m'.fileSystem.isFile p = m.fileSystem.isFile p ∧
      m'.fileSystem.readText p = m.fileSystem.readText p := by
  have hget := h.manifest p hp
  constructor
  · rw [isFile_eq_has, isFile_eq_has, Memory.has, Memory.has, PathTable.contains_eq_isSome_get?,
      PathTable.contains_eq_isSome_get?, h.place, hget]
  · simp only [FileSystem.readText, fileSystem, read, h.place, hget]

/-- Files with the given paths and texts. -/
def ofTexts (cwd : Text) (files : List (Text × Text)) : Memory :=
  files.foldl (fun m file => m.add ⟨file.1⟩ (Text.utf8 file.2)) (.empty ⟨cwd⟩)

end Memory

end StyleImports
