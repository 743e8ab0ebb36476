import StyleImports.Files.Memory
import StyleImports.Proofs.Lookup.Origins
import StyleImports.Proofs.Path.Place
import StyleImports.Proofs.Path.Table

/-!
# What a memory file system holds

Files are stored under clean paths (`Memory.IsPlaced`); every memory that is built by adding and
removing files is of this kind. What such a memory says about a path follows from its keys: a file
is a key, a directory is the front of one, and a listed name goes on along one.
-/

set_option autoImplicit false

namespace StyleImports.Memory

variable {m : Memory} {p dir : Path} {content : Bytes}

/-! ## Stored paths -/

/-- Every file is stored under the place of some path. -/
def IsPlaced (m : Memory) : Prop := ∀ key ∈ m.files.keys, ∃ p, key = m.place p

theorem isPlaced_empty (cwd : Path) : (empty cwd).IsPlaced := fun _ h => nomatch h

theorem IsPlaced.add (h : m.IsPlaced) (p : Path) (content : Bytes) :
    (m.add p content).IsPlaced := by
  intro key hkey
  rcases PathTable.mem_keys_insert hkey with rfl | hkey
  · exact ⟨p, rfl⟩
  · exact h key hkey

theorem IsPlaced.remove (h : m.IsPlaced) (p : Path) : (m.remove p).IsPlaced := by
  intro key hkey
  obtain ⟨entry, hentry, rfl⟩ := List.mem_map.1 hkey
  exact h entry.1 (List.mem_map_of_mem (List.mem_filter.1 hentry).1)

theorem parts_place_ne_nil (m : Memory) (p : Path) : (m.place p).parts ≠ [] := by
  obtain ⟨q, hq⟩ := Path.cleanFrom_eq_clean m.cwd p
  rw [place, hq]
  exact q.parts_clean_ne_nil

theorem place_eq_of_same {q : Path} (h : (m.place p).same (m.place q) = true) :
    m.place p = m.place q := by
  obtain ⟨p', hp'⟩ := Path.cleanFrom_eq_clean m.cwd p
  obtain ⟨q', hq'⟩ := Path.cleanFrom_eq_clean m.cwd q
  rw [place, place, hp', hq'] at h ⊢
  exact p'.isCanonical_clean.eq_of_same q'.isCanonical_clean h

/-! ## What is at a path -/

/-- What is at a path depends on its place alone. -/
theorem fileSystem_congr {q : Path} (h : m.place p = m.place q) :
    m.fileSystem.read p = m.fileSystem.read q ∧ m.fileSystem.stat p = m.fileSystem.stat q ∧
      m.fileSystem.list p = m.fileSystem.list q := by
  simp only [fileSystem, read, stat, list, h, and_self]

theorem readText_congr {q : Path} {text : Text} (h : m.place p = m.place q)
    (htext : m.fileSystem.readText p = .ok text) : m.fileSystem.readText q = .ok text := by
  rw [FileSystem.readText] at htext ⊢
  rw [← (fileSystem_congr h).1]
  split
  case h_1 e hread => simp [hread] at htext
  case h_2 bytes hread =>
    simp only [hread] at htext ⊢
    split at htext
    case h_1 => exact htext
    case h_2 => cases htext

theorem exists_key_of_get? (h : m.files.get? p = some content) :
    ∃ key ∈ m.files.keys, key.same p = true := by
  obtain ⟨key, hkey, hsame⟩ := PathTable.exists_of_get? h
  exact ⟨key, List.mem_map_of_mem hkey, hsame⟩

theorem isFile_eq_has (m : Memory) (p : Path) : m.fileSystem.isFile p = m.has p := by
  simp only [FileSystem.isFile, fileSystem, stat, has, PathTable.contains_eq_isSome_get?]
  cases m.files.get? (m.place p) with
  | some content => rfl
  | none =>
    dsimp only
    split
    case h_1 hkind => split at hkind <;> cases hkind
    case h_2 => rfl

theorem exists_key_of_isFile (h : m.fileSystem.isFile p = true) :
    ∃ key ∈ m.files.keys, key.parts = (m.place p).parts := by
  rw [isFile_eq_has, has] at h
  obtain ⟨key, hkey, hsame⟩ := PathTable.contains_iff.1 h
  exact ⟨key, hkey, Path.same_iff.1 hsame⟩

theorem exists_read_of_isFile (h : m.fileSystem.isFile p = true) :
    ∃ content, m.fileSystem.read p = .ok content := by
  rw [isFile_eq_has, has, PathTable.contains_eq_isSome_get?] at h
  obtain ⟨content, hget⟩ := Option.isSome_iff_exists.1 h
  exact ⟨content, by simp only [fileSystem, read, hget]⟩

theorem exists_key_of_exists (h : m.fileSystem.exists? p = true) :
    ∃ key ∈ m.files.keys, (m.place p).parts <+: key.parts := by
  simp only [FileSystem.exists?, fileSystem, stat] at h
  cases hget : m.files.get? (m.place p) with
  | some content =>
    obtain ⟨key, hkey, hsame⟩ := exists_key_of_get? hget
    exact ⟨key, hkey, [], by rw [List.append_nil, Path.same_iff.1 hsame]⟩
  | none =>
    rw [hget] at h
    dsimp only at h
    split at h
    case isTrue habove =>
      obtain ⟨key, hkey, hbelow⟩ := List.any_eq_true.1 habove
      simp only [Bool.and_eq_true, Path.startsWith, List.isPrefixOf_iff_prefix] at hbelow
      exact ⟨key, hkey, hbelow.2⟩
    · cases h

/-- The texts of the stored files. -/
def texts (m : Memory) : List Text := m.files.entries.filterMap fun e => (Text.ofUtf8 e.2).toOption

theorem mem_texts {text : Text} (h : m.fileSystem.readText p = .ok text) : text ∈ m.texts := by
  simp only [FileSystem.readText, fileSystem, read] at h
  cases hget : m.files.get? (m.place p) with
  | none =>
    rw [hget] at h
    cases h
  | some content =>
    obtain ⟨key, hkey, _⟩ := PathTable.exists_of_get? hget
    simp only [hget] at h
    refine List.mem_filterMap.2 ⟨(key, content), hkey, ?_⟩
    cases htext : Text.ofUtf8 content with
    | error fault =>
      rw [htext] at h
      cases h
    | ok decoded =>
      rw [htext] at h
      cases h
      rfl

/-! ## What a directory lists -/

theorem mem_insertName {name other : Text} {names : List Text} :
    other ∈ insertName name names ↔ other = name ∨ other ∈ names := by
  induction names with
  | nil => simp [insertName]
  | cons first rest ih =>
    rw [insertName]
    split
    case isTrue heq => simp [heq]
    case isFalse =>
      split
      · exact List.mem_cons
      · rw [List.mem_cons, ih, List.mem_cons, or_left_comm]

theorem mem_entryNames {n : Text} :
    n ∈ m.entryNames p ↔ ∃ key ∈ m.files.keys, entryName? p key = some n := by
  have hfold : ∀ found names : List Text,
      n ∈ found.foldl (fun names name => insertName name names) names ↔
        n ∈ names ∨ n ∈ found := by
    intro found
    induction found with
    | nil => simp
    | cons name found ih =>
      intro names
      rw [List.foldl_cons, ih, mem_insertName, List.mem_cons, or_assoc, or_left_comm]
  rw [entryNames, hfold, List.mem_filterMap, or_iff_right List.not_mem_nil]

theorem entryName?_eq_some {n : Text} {key : Path} :
    entryName? p key = some n ↔ ∃ part, n = part.text ∧ p.parts ++ [part] <+: key.parts := by
  rw [entryName?]
  constructor
  · intro h
    split at h
    case isTrue hbelow =>
      rw [Path.startsWith, List.isPrefixOf_iff_prefix] at hbelow
      obtain ⟨rest, hrest⟩ := hbelow
      rw [← hrest, List.drop_left] at h
      cases rest with
      | nil => cases h
      | cons part rest =>
        cases h
        exact ⟨part, rfl, rest, by rw [← hrest, List.append_assoc]; rfl⟩
    case isFalse => cases h
  · rintro ⟨part, rfl, rest, hrest⟩
    rw [List.append_assoc] at hrest
    have hbelow : key.startsWith p = true := List.isPrefixOf_iff_prefix.2 ⟨_, hrest⟩
    rw [if_pos hbelow, ← hrest, List.drop_left]
    rfl

/-- A listed name belongs to a part after the first of a stored path. -/
theorem exists_key_of_list {names : List Text} {n : Text} (h : m.fileSystem.list p = .ok names)
    (hn : n ∈ names) : ∃ key ∈ m.files.keys, ∃ part : Part, part.IsSegment ∧ n = part.text ∧
      (m.place p).parts ++ [part] <+: key.parts := by
  have hnames : names = m.entryNames (m.place p) := by
    simp only [fileSystem, list] at h
    split at h
    · cases h
    · cases h
      rfl
  rw [hnames] at hn
  obtain ⟨key, hkey, hname⟩ := mem_entryNames.1 hn
  obtain ⟨part, rfl, hbelow⟩ := entryName?_eq_some.1 hname
  refine ⟨key, hkey, part, ?_, rfl, hbelow⟩
  obtain ⟨rest, hrest⟩ := hbelow
  have hspelled := key.spelled_parts
  rw [← hrest] at hspelled
  cases hplace : (m.place p).parts with
  | nil => exact absurd hplace (m.parts_place_ne_nil p)
  | cons first more =>
    rw [hplace] at hspelled
    exact hspelled.2 part (by simp)

/-! ## Files and directories -/

theorem read_eq_ok : m.read p = .ok content ↔ m.files.get? (m.place p) = some content := by
  rw [read]
  cases m.files.get? (m.place p) <;> simp

theorem stat_eq_file {size : Nat} : m.stat p = .ok (.file size) ↔
    ∃ content, m.read p = .ok content ∧ content.length = size := by
  simp only [read_eq_ok, stat]
  cases m.files.get? (m.place p) with
  | some content => simp
  | none =>
    dsimp only
    split <;> simp

theorem isAbove_iff : m.isAbove p = true ↔
    ∃ key ∈ m.files.keys, ∃ part, p.parts ++ [part] <+: key.parts := by
  simp only [isAbove, List.any_eq_true, Bool.and_eq_true, Bool.not_eq_true', Path.startsWith,
    List.isPrefixOf_iff_prefix]
  refine exists_congr fun key => and_congr_right fun _ => ⟨?_, ?_⟩
  · rintro ⟨hother, rest, hrest⟩
    cases rest with
    | nil =>
      rw [List.append_nil] at hrest
      rw [Path.same_iff.2 hrest.symm] at hother
      cases hother
    | cons part rest => exact ⟨part, rest, by rw [← hrest]; simp⟩
  · rintro ⟨part, rest, hrest⟩
    rw [List.append_assoc] at hrest
    refine ⟨?_, _, hrest⟩
    rw [← Bool.not_eq_true, Path.same_iff, ← hrest]
    simp

/-- What a directory lists are the names with which stored paths go on. -/
theorem isAbove_iff_exists : m.isAbove p = true ↔ ∃ n, n ∈ m.entryNames p := by
  simp only [isAbove_iff, mem_entryNames, entryName?_eq_some]
  constructor
  · rintro ⟨key, hkey, part, hbelow⟩
    exact ⟨part.text, key, hkey, part, rfl, hbelow⟩
  · rintro ⟨n, key, hkey, part, -, hbelow⟩
    exact ⟨key, hkey, part, hbelow⟩

theorem list_eq_ok {names : List Text} : m.list p = .ok names ↔
    names = m.entryNames (m.place p) ∧ m.isAbove (m.place p) = true := by
  rw [isAbove_iff_exists, list]
  cases m.entryNames (m.place p) with
  | nil => simp
  | cons first rest => simp [eq_comm]

theorem stat_eq_directory : m.stat p = .ok .directory ↔
    (∃ names, m.list p = .ok names) ∧ ∀ content, m.read p ≠ .ok content := by
  simp only [list_eq_ok, exists_eq_left, ne_eq, read_eq_ok, stat]
  cases m.files.get? (m.place p) with
  | some content => simp
  | none =>
    dsimp only
    split <;> simp_all

/-- What is at a path is the front of a stored path. -/
theorem exists_iff : m.fileSystem.exists? p = true ↔
    ∃ key ∈ m.files.keys, (m.place p).parts <+: key.parts := by
  refine ⟨exists_key_of_exists, ?_⟩
  rintro ⟨key, hkey, rest, hrest⟩
  simp only [FileSystem.exists?, fileSystem, stat]
  cases hget : m.files.get? (m.place p) with
  | some content => rfl
  | none =>
    have habove : m.isAbove (m.place p) = true := by
      refine isAbove_iff.2 ⟨key, hkey, ?_⟩
      cases rest with
      | nil =>
        rw [List.append_nil] at hrest
        have hcontains := PathTable.contains_iff.2 ⟨key, hkey, Path.same_iff.2 hrest.symm⟩
        rw [PathTable.contains_eq_isSome_get?, hget] at hcontains
        cases hcontains
      | cons part rest => exact ⟨part, rest, by rw [← hrest]; simp⟩
    simp [habove, Except.isOk, Except.toBool]

end StyleImports.Memory
