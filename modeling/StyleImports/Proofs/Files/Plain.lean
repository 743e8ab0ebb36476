import StyleImports.Files.Disk
import StyleImports.Proofs.Files.Memory

/-!
# File systems without backslashes

In a plain file system nothing that exists has a backslash in its cleaned path, and no listed name
holds one (`FileSystem.IsPlain`). Files in memory and on a disk make a plain file system as soon as
none of their own names holds a backslash, whatever the working directory is called.
-/

set_option autoImplicit false

namespace StyleImports

/-- Nothing in a file system has a backslash in its name. -/
structure FileSystem.IsPlain (fs : FileSystem) : Prop where
  found : ∀ p : Path, fs.exists? p.clean = true → p.clean.IsPlain
  listed : ∀ p names, fs.list p = .ok names →
    ∀ n ∈ names, Path.isIdle n = false ∧ '/' ∉ n ∧ '\\' ∉ n

theorem Path.mem_names_of_mem_parts {stem names : List Part} {n : Text} (hstem : IsStem stem)
    (h : Part.name n ∈ stem ++ names) : Part.name n ∈ names := by
  refine (List.mem_append.1 h).resolve_left fun hmem => ?_
  cases hstem with
  | root => simp at hmem
  | here => simp at hmem
  | ups count => cases List.eq_of_mem_replicate hmem

/-! ## Files in memory -/

/-- A clean path of what is there holds none but the characters of stored paths, slashes and
dots. -/
theorem Memory.not_mem_of_exists {m : Memory} {c : Char} (hslash : c ≠ '/') (hdot : c ≠ '.')
    (hkeys : ∀ key ∈ m.files.keys, c ∉ key.text) {p : Path}
    (hp : m.fileSystem.exists? p.clean = true) : c ∉ p.clean.text := by
  obtain ⟨key, hkey, hbelow⟩ := exists_key_of_exists hp
  obtain ⟨stem, names, hparts, hstem, hnames⟩ := p.exists_stem
  obtain ⟨stem', (hplace : (m.place p.clean).parts = _)⟩ :=
    Path.exists_stem_cleanFrom hparts hstem hnames m.cwd
  refine p.isCanonical_clean.not_mem hslash hdot fun n hn => ?_
  rw [hparts] at hn
  have hmem : Part.name n ∈ (m.place p.clean).parts := by
    rw [hplace]
    exact List.mem_append_right _ (Path.mem_names_of_mem_parts hstem hn)
  exact Path.not_mem_of_mem_parts (hkeys key hkey) (hbelow.subset hmem)

theorem Memory.isPlain_fileSystem {m : Memory}
    (hplain : ∀ key ∈ m.files.keys, key.IsPlain) : m.fileSystem.IsPlain where
  found p hp := not_mem_of_exists (by decide) (by decide) hplain hp
  listed p names hlist n hn := by
    obtain ⟨key, hkey, part, hsegment, rfl, hbelow⟩ := exists_key_of_list hlist hn
    refine ⟨Path.isIdle_text hsegment, Path.not_mem_text hsegment, ?_⟩
    refine Path.isPlain_text fun n hname => (hplain key hkey).of_mem_parts (hbelow.subset ?_)
    rw [← hname]
    exact List.mem_append_right _ List.mem_cons_self

/-! ## Files on a disk -/

namespace Disk

variable {d : Disk}

/-- Every name on the disk can stand in a path. -/
def IsNamed (d : Disk) : Prop :=
  ∀ entry ∈ d.directories ++ d.files.map (·.1), ∀ n ∈ entry, (Part.name n).IsName

theorem follow_names {names result : List Text} {segments : List Text}
    (hnames : ∀ part ∈ (segments.filter (!Path.isIdle ·)).map Path.partOf, part.IsName)
    (h : d.follow names segments = .ok result) :
    ∀ n, Part.name n ∈ (segments.filter (!Path.isIdle ·)).map Path.partOf ∨ n ∈ names →
      n ∈ result := by
  induction segments generalizing names with
  | nil =>
    cases h
    simp
  | cons segment rest ih =>
    rw [follow] at h
    split at h
    · cases h
    · cases h
    · split at h
      case isTrue hidle =>
        rw [List.filter_cons_of_neg (by simp [hidle])] at hnames ⊢
        exact ih hnames h
      case isFalse hidle =>
        rw [List.filter_cons_of_pos (by simpa using hidle), List.map_cons] at hnames ⊢
        have hname := hnames _ List.mem_cons_self
        split at h
        case isTrue hup =>
          rw [hup] at hname
          cases hname
        case isFalse hup =>
          have hpart : Path.partOf segment = .name segment := by simp [Path.partOf, hup]
          have hrest := ih (fun part hpart => hnames part (List.mem_cons_of_mem _ hpart)) h
          intro n hn
          refine hrest n ?_
          rw [hpart, List.mem_cons, Part.name.injEq] at hn
          rcases hn with (rfl | hn) | hn
          · exact .inr (List.mem_append_right _ List.mem_cons_self)
          · exact .inl hn
          · exact .inr (List.mem_append_left _ hn)

/-- The names after some `..` are among those that a path leads to. -/
theorem follow_stem {names result : List Text} {segments : List Text} {count : Nat}
    {last : List Part} (hlast : ∀ part ∈ last, part.IsName)
    (hparts : (segments.filter (!Path.isIdle ·)).map Path.partOf =
      List.replicate count .up ++ last)
    (h : d.follow names segments = .ok result) : ∀ n, Part.name n ∈ last → n ∈ result := by
  induction segments generalizing names count with
  | nil =>
    have hnil := (List.append_eq_nil_iff.1 hparts.symm).2
    intro n hn
    rw [hnil] at hn
    cases hn
  | cons segment rest ih =>
    by_cases hcount : count = 0
    · rw [hcount, List.replicate_zero, List.nil_append] at hparts
      rw [← hparts] at hlast ⊢
      exact fun n hn => follow_names hlast h n (.inl hn)
    · obtain ⟨count, rfl⟩ := Nat.exists_eq_succ_of_ne_zero hcount
      rw [follow] at h
      split at h
      · cases h
      · cases h
      · split at h
        case isTrue hidle =>
          rw [List.filter_cons_of_neg (by simp [hidle])] at hparts
          exact ih hparts h
        case isFalse hidle =>
          rw [List.filter_cons_of_pos (by simpa using hidle), List.map_cons, List.replicate_succ,
            List.cons_append, List.cons.injEq] at hparts
          split at h
          case isTrue => exact ih hparts.2 h
          case isFalse hup =>
            rw [Path.partOf, if_neg hup] at hparts
            cases hparts.1

theorem mem_of_kindAt? {names : List Text} {kind : FileKind} (h : d.kindAt? names = some kind) :
    names = [] ∨ names ∈ d.directories ++ d.files.map (·.1) := by
  rw [kindAt?] at h
  split at h
  case h_1 content hfile =>
    obtain ⟨file, hfind, _⟩ := Option.map_eq_some_iff.1 hfile
    have hname := List.find?_some hfind
    simp only [decide_eq_true_eq] at hname
    rw [← hname]
    exact .inr (List.mem_append_right _ (List.mem_map_of_mem (List.mem_of_find?_eq_some hfind)))
  case h_2 =>
    split at h
    case isTrue hdirectory =>
      simp only [isDirectoryAt, Bool.or_eq_true, decide_eq_true_eq] at hdirectory
      exact hdirectory.imp_right (List.mem_append_left _)
    · cases h

/-- A disk without backslashes in its names is plain. -/
theorem isPlain_fileSystem (hnamed : d.IsNamed)
    (hplain : ∀ entry ∈ d.directories ++ d.files.map (·.1), ∀ n ∈ entry, '\\' ∉ n) :
    d.fileSystem.IsPlain where
  found p hp := by
    -- What exists is walked to, and then named by an entry.
    have hlook : ∃ names kind, d.walk p.clean = .ok names ∧ d.kindAt? names = some kind := by
      simp only [FileSystem.exists?, fileSystem, stat, lookUp] at hp
      cases hwalk : d.walk p.clean with
      | error fault =>
        rw [hwalk] at hp
        cases hp
      | ok names =>
        cases hkind : d.kindAt? names with
        | none =>
          simp only [hwalk, hkind] at hp
          cases hp
        | some kind => exact ⟨names, kind, rfl, hkind⟩
    obtain ⟨names, kind, hwalk, hkind⟩ := hlook
    obtain ⟨stem, last, hparts, hstem, hlast⟩ := p.exists_stem
    obtain ⟨count, hbody⟩ := Path.exists_body hparts hstem hlast
    refine p.isCanonical_clean.isPlain fun n hn => ?_
    rw [hparts] at hn
    have hmem : n ∈ names := by
      rw [walk] at hwalk
      split at hwalk
      · cases hwalk
      · split at hwalk
        · cases hwalk
        · exact follow_stem hlast hbody hwalk n (Path.mem_names_of_mem_parts hstem hn)
    rcases mem_of_kindAt? hkind with rfl | hentry
    · cases hmem
    · exact hplain names hentry n hmem
  listed p names hlist n hn := by
    have hentry : ∃ entry ∈ d.directories ++ d.files.map (·.1), n ∈ entry := by
      simp only [fileSystem, list] at hlist
      split at hlist
      · cases hlist
      · cases hlist
      · cases hlist
        obtain ⟨entry, hentry, hlast⟩ := List.mem_filterMap.1 hn
        split at hlast
        · exact ⟨entry, hentry, List.mem_of_getLast? hlast⟩
        · cases hlast
    obtain ⟨entry, hentry, hmem⟩ := hentry
    obtain ⟨hidle, _, hslash⟩ := hnamed entry hentry n hmem
    exact ⟨hidle, hslash, hplain entry hentry n hmem⟩

end Disk

end StyleImports
