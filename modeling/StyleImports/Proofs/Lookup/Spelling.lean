import StyleImports.Lookup.Directories
import StyleImports.Proofs.Path.Parent

/-!
# Lookups and the spelling of a file

A lookup in a file goes by the directories that it is made in (`Lookup.resolve_of_directories`):
the directory of the file, seen from the working directory, and the search paths. So it finds the
same from every spelling of the file (`Lookup.resolve_congr`).
-/

set_option autoImplicit false

namespace StyleImports.Lookup

variable {l : Lookup} {file other : Path}

/-! ## Directories -/

/-- The directories where imports are looked up are clean. -/
theorem exists_clean_of_mem_directories {dir : Path} (h : dir ∈ l.directories file) :
    ∃ q : Path, dir = q.clean := by
  rw [directories] at h
  refine List.foldlRecOn (motive := fun dirs => ∀ dir ∈ dirs, ∃ q : Path, dir = q.clean) _ _
    (fun own hown => ?_) (fun dirs hdirs next hnext dir hdir => ?_) dir h
  · split at hown
    · rw [List.mem_singleton.1 hown]
      exact Path.cleanFrom_eq_clean _ _
    · cases hown
  · rw [Path.addNew] at hdir
    split at hdir
    · exact hdirs dir hdir
    · rcases List.mem_append.1 hdir with hdir | hdir
      · exact hdirs dir hdir
      · obtain ⟨path, -, rfl⟩ := List.mem_map.1 hnext
        rw [List.mem_singleton.1 hdir]
        exact Path.cleanFrom_eq_clean _ path

theorem exists_directories_cons {dir : Path} (hdir : file.parent? = some dir) :
    ∃ rest, l.directories file = Path.cleanFrom l.fs.cwd dir :: rest := by
  rw [directories, hdir]
  refine List.foldlRecOn (motive := fun dirs => ∃ rest, dirs = Path.cleanFrom l.fs.cwd dir :: rest)
    _ _ ⟨[], rfl⟩ fun dirs hdirs next _ => ?_
  obtain ⟨rest, rfl⟩ := hdirs
  rw [Path.addNew]
  split
  · exact ⟨rest, rfl⟩
  · exact ⟨rest ++ [next], rfl⟩

theorem find_of_directories (h : l.directories file = l.directories other) (specifier : Text) :
    l.find specifier file = l.find specifier other := by
  rw [find, find, h]

theorem indexFile_of_directories (h : l.directories file = l.directories other) (name : Text) :
    l.indexFile name file = l.indexFile name other := by
  simp only [indexFile, find_of_directories h]

theorem package_of_directories (h : l.directories file = l.directories other) (dir : Text) :
    l.package dir file = l.package dir other := by
  simp only [package, find_of_directories h, indexFile_of_directories h]

/-- An import is looked up as the same files if it is looked up in the same directories. -/
theorem resolve_of_directories (h : l.directories file = l.directories other) (specifier : Text) :
    l.resolve specifier file = l.resolve specifier other := by
  simp only [resolve, index, find_of_directories h, indexFile_of_directories h,
    package_of_directories h]

/-! ## Spellings -/

theorem directories_congr (h : file.same other = true) :
    l.directories file = l.directories other := by
  rw [directories, directories]
  rcases Path.parent?_congr h with ⟨hfile, hother⟩ | ⟨dir, beside, hfile, hother, hsame⟩
  · rw [hfile, hother]
  · rw [hfile, hother]
    simp only [Path.cleanFrom_congr l.fs.cwd hsame]

/-- An import is looked up as the same files from every spelling of its file. -/
theorem resolve_congr (h : file.same other = true) (specifier : Text) :
    l.resolve specifier file = l.resolve specifier other :=
  resolve_of_directories (directories_congr h) specifier

end StyleImports.Lookup
