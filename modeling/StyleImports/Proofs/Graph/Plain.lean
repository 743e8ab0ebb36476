import StyleImports.Proofs.Files.Plain
import StyleImports.Proofs.Graph.Origins

/-!
# Imports in a plain setting

In a plain file system, with resolvers that answer with clean paths without backslashes, every path
that an import leads to and every directory to watch is canonical and reported under its own
spelling. So two of them that are the same are equal.
-/

set_option autoImplicit false

namespace StyleImports

/-- A path that is spelled as its parts are, without backslashes: it is reported as it is. -/
structure Path.IsReported (p : Path) : Prop where
  canonical : p.IsCanonical
  plain : p.IsPlain

theorem Path.IsReported.asDependency_eq {p : Path} (h : p.IsReported) : p.asDependency = p :=
  h.canonical.asDependency_eq h.plain

namespace FileSystem.IsPlain

variable {fs : FileSystem} {dir p : Path}

theorem isReported_clean (h : fs.IsPlain) (hp : fs.exists? p.clean = true) : p.clean.IsReported :=
  ⟨p.isCanonical_clean, h.found p hp⟩

theorem isReported_of_lists (h : fs.IsPlain) (hdir : dir.IsReported) (hp : fs.Lists dir p) :
    p.IsReported := by
  cases hp with
  | @entry names n hlist hn =>
    obtain ⟨hidle, hslash, hplain⟩ := h.listed dir names hlist n hn
    exact ⟨(hdir.canonical.join hidle hslash).1, hdir.plain.join hplain⟩

theorem isReported_of_listsBelow (h : fs.IsPlain) (hdir : dir.IsReported)
    (hp : fs.ListsBelow dir p) : p.IsReported :=
  FileSystem.of_listsBelow (fun _ _ hdir hp => h.isReported_of_lists hdir hp) hdir hp

end FileSystem.IsPlain

/-! ## Directories -/

theorem Lookup.Origin.isReported {l : Lookup} {specifier : Text} {file p : Path}
    (h : l.Origin specifier file p) (hfs : l.fs.IsPlain) : p.IsReported :=
  h.of_clean (fun _ hp => hfs.isReported_clean hp) fun _ _ hdir hp => hfs.isReported_of_lists hdir hp

/-- What a lookup finds in a plain file system is reported as it is. -/
theorem Lookup.map_asDependency {l : Lookup} (hplain : l.fs.IsPlain) {specifier : Text}
    {file : Path} {found : List Path} (h : l.resolve specifier file = some found) :
    found.map Path.asDependency = found := by
  have hreported : ∀ p ∈ found, p.asDependency = id p := fun p hp =>
    ((mem_resolve h hp).isReported hplain).asDependency_eq
  rw [List.map_congr_left hreported, List.map_id]

/-! ## Imports -/

namespace Setting

variable {s : Setting} {file p : Path} {specifier : Text}

/-- No name has a backslash, and resolvers answer with clean paths. -/
structure IsPlain (s : Setting) : Prop where
  fs : s.fs.IsPlain
  file : ∀ dir request paths, s.resolvers.file dir request = .ok paths →
    ∀ p ∈ paths, p.clean = p ∧ p.IsPlain
  context : ∀ dir request paths, s.resolvers.context dir request = .ok paths →
    ∀ p ∈ paths, p.clean = p ∧ p.IsPlain

theorem isReported_of_clean (h : p.clean = p ∧ p.IsPlain) : p.IsReported :=
  ⟨h.1 ▸ p.isCanonical_clean, h.2⟩

theorem Base.isReported {base : Text} (h : s.Base file base p) (hs : s.IsPlain) :
    p.IsReported := by
  cases h with
  | answered hanswer hmem => exact isReported_of_clean (hs.context _ _ _ hanswer p hmem)
  | beside hdirectory => exact hs.fs.isReported_clean (FileSystem.exists_of_isDirectory hdirectory)

theorem Origin.isReported {contexts : List Path} (h : s.Origin file specifier contexts p)
    (hs : s.IsPlain) : p.IsReported := by
  cases h with
  | looked hlooked => exact hlooked.isReported hs.fs
  | answered hanswer hmem => exact isReported_of_clean (hs.file _ _ _ hanswer p hmem)
  | expanded hbase _ hbelow _ => exact hs.fs.isReported_of_listsBelow (hbase.isReported hs) hbelow

theorem IsPlain.isReported_target (hs : s.IsPlain) {content : Except FileError Text}
    (h : p ∈ (s.reading file content).targets) : p.IsReported := by
  obtain ⟨i, _, hp⟩ := mem_targets_reading.1 h
  obtain ⟨q, horigin, rfl⟩ := exists_origin hp
  have hq := horigin.isReported hs
  rw [hq.asDependency_eq]
  exact hq

theorem IsPlain.isReported_context (hs : s.IsPlain) {content : Except FileError Text}
    (h : p ∈ (s.reading file content).contexts) : p.IsReported := by
  obtain ⟨i, _, hp⟩ := mem_contexts_reading.1 h
  obtain ⟨base, dir, hbase, rfl⟩ := exists_base hp
  have hdir := hbase.isReported hs
  rw [hdir.asDependency_eq]
  exact hdir

end Setting

end StyleImports
