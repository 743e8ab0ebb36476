import StyleImports.Proofs.Files.Plain
import StyleImports.Proofs.Files.Within
import StyleImports.Proofs.Glob.Search
import StyleImports.Proofs.Path.Parent

/-!
# How many levels a search needs

Each directory that is opened lies one name further down than the one that lists it, and every
directory of a file system is on the way to an entry. So the depth of files in memory bounds the
directories on the way to any other one (`Memory.IsPlaced.le_depth_of_opens`), and so does the depth
of a disk (`Disk.IsNamed.le_depth_of_opens`). In memory a directory can always be listed
(`Memory.exists_list_of_stat`).
-/

set_option autoImplicit false

namespace StyleImports

open Glob (Opens)

theorem le_foldl_max {x : Nat} {xs : List Nat} (h : x ∈ xs) (start : Nat) :
    x ≤ xs.foldl max start := by
  have hstart : ∀ (xs : List Nat) (start : Nat), start ≤ xs.foldl max start := by
    intro xs
    induction xs with
    | nil => exact Nat.le_refl
    | cons y xs ih => exact fun start => Nat.le_trans (Nat.le_max_left start y) (ih _)
  induction xs generalizing start with
  | nil => cases h
  | cons y xs ih =>
    rcases List.mem_cons.1 h with rfl | h
    · exact Nat.le_trans (Nat.le_max_right start x) (hstart xs _)
    · exact ih h _

theorem Glob.Opens.stat {fs : FileSystem} {n : Nat} {dir dir' : Path} {above above' : Text}
    (h : Opens fs n dir above dir' above') :
    n = 0 ∧ dir' = dir ∨ fs.stat dir' = .ok .directory := by
  induction h with
  | start => exact .inl ⟨rfl, rfl⟩
  | next _ _ hstat _ ih =>
    rcases ih with ⟨-, rfl⟩ | ih
    · exact .inr hstat
    · exact .inr ih

variable {n : Nat} {dir dir' : Path} {above above' : Text}

/-! ## Files in memory -/

theorem Path.parts_join_name {name : Text} (hname : (Part.name name).IsName) (dir : Path) :
    (dir.join ⟨name⟩).parts = dir.parts ++ [.name name] := by
  by_cases hdir : dir = ⟨[]⟩
  · rw [hdir, join_nil, parts_eq, cutHead_of_not_mem hname.1 hname.2.2,
      show body name = [.name name] from body_text hname.isSegment]
    rfl
  · have htext : dir.text ≠ [] := fun hnil => hdir (congrArg Path.mk hnil)
    rw [parts_join htext (isAbsolute_of_isName hname),
      show body name = [.name name] from body_text hname.isSegment]

namespace Memory

variable {m : Memory}

theorem IsPlaced.length_of_opens (h : m.IsPlaced) (hcwd : m.cwd.isAbsolute = true)
    (hopens : Opens m.fileSystem n dir above dir' above') :
    (m.place dir').parts.length = (m.place dir).parts.length + n := by
  induction hopens with
  | start => rfl
  | @next n dir dir' above above' names name hlist hmem hstat hopens ih =>
    obtain ⟨name', hjoin, hname⟩ := h.exists_name_of_lists hcwd (.entry hlist hmem)
    have hplace : (m.place (dir.join ⟨name⟩)).parts = (m.place dir).parts ++ [.name name'] := by
      rw [hjoin]
      exact Path.parts_cleanFrom_of_append hcwd hname (Path.parts_join_name hname dir)
    rw [ih, hplace, List.length_append, List.length_singleton]
    omega

theorem length_le_depth {key : Path} (hkey : key ∈ m.files.keys) : key.parts.length ≤ m.depth := by
  have hmem : key.parts.length ∈ m.files.keys.map (·.parts.length) := List.mem_map_of_mem hkey
  exact le_foldl_max hmem 0

/-- On the way to a directory of a memory there are no more directories than its depth. -/
theorem IsPlaced.le_depth_of_opens (h : m.IsPlaced) (hcwd : m.cwd.isAbsolute = true)
    (hopens : Opens m.fileSystem n dir above dir' above') : n ≤ m.fileSystem.depth := by
  rcases hopens.stat with ⟨rfl, -⟩ | hstat
  · exact Nat.zero_le _
  · have hexists : m.fileSystem.exists? dir' = true := by
      rw [FileSystem.exists?, hstat]
      rfl
    obtain ⟨key, hkey, hbelow⟩ := exists_key_of_exists hexists
    have hlength := h.length_of_opens hcwd hopens
    calc n ≤ (m.place dir').parts.length := by omega
      _ ≤ key.parts.length := hbelow.length_le
      _ ≤ m.fileSystem.depth := length_le_depth hkey

theorem exists_list_of_stat {p : Path} (h : m.fileSystem.stat p = .ok .directory) :
    ∃ names, m.fileSystem.list p = .ok names :=
  (stat_eq_directory.1 h).1

end Memory

/-! ## Files on a disk -/

namespace Disk

variable {d : Disk} {names names' : List Text}

theorem follow_append {segments more : List Text} :
    d.follow names (segments ++ more) =
      (d.follow names segments).bind fun names => d.follow names more := by
  induction segments generalizing names with
  | nil => rfl
  | cons segment segments ih =>
    rw [List.cons_append, follow, follow]
    split
    · rfl
    · rfl
    · split
      · exact ih
      · split <;> exact ih

theorem walk_eq_ok {p : Path} : d.walk p = .ok names ↔
    p.text ≠ [] ∧ '\x00' ∉ p.text ∧ d.follow (d.start p) (Text.splitOn '/' p.text) = .ok names := by
  rw [walk]
  by_cases htext : p.text = []
  · simp [htext]
  · by_cases hzero : '\x00' ∈ p.text
    · simp [htext, hzero]
    · simp [htext, hzero]

theorem lookUp_eq_ok {p : Path} {kind : FileKind} : d.lookUp p = .ok (names, kind) ↔
    d.walk p = .ok names ∧ d.kindAt? names = some kind := by
  rw [lookUp]
  cases d.walk p with
  | error fault => simp
  | ok reached =>
    dsimp only
    cases hkind : d.kindAt? reached with
    | none =>
      constructor
      · rintro ⟨⟩
      · rintro ⟨⟨⟩, hsome⟩
        rw [hkind] at hsome
        cases hsome
    | some other =>
      constructor
      · rintro ⟨⟩
        exact ⟨rfl, hkind⟩
      · rintro ⟨⟨⟩, hsome⟩
        rw [hkind] at hsome
        cases hsome
        rfl

/-- The segments of an entry are those of its directory and the name, but for a slash at the end
that leads nowhere else. -/
theorem exists_splitOn_join {name : Text} (hname : (Part.name name).IsName) (hdir : dir.text ≠ [])
    (h : d.follow (d.start dir) (Text.splitOn '/' dir.text) = .ok names) :
    ∃ segments, Text.splitOn '/' (dir.join ⟨name⟩).text = segments ++ [name] ∧
      d.follow (d.start dir) segments = .ok names := by
  have hsingle : Text.splitOn '/' name = [name] := Text.splitOn_of_not_mem hname.2.2
  by_cases hend : dir.text.getLast? = some '/'
  · obtain ⟨front, hfront⟩ := List.getLast?_eq_some_iff.1 hend
    have hjoin : (dir.join ⟨name⟩).text = front ++ '/' :: name := by
      rw [Path.join, Path.isAbsolute_of_isName hname, if_neg Bool.false_ne_true,
        if_pos (by simp [hend]), hfront, List.append_assoc]
      rfl
    refine ⟨Text.splitOn '/' front, by rw [hjoin, Text.splitOn_append_sep, hsingle], ?_⟩
    rw [hfront, Text.splitOn_append_sep, follow_append] at h
    cases hfollowed : d.follow (d.start dir) (Text.splitOn '/' front) with
    | error fault =>
      rw [hfollowed] at h
      cases h
    | ok reached =>
      rw [hfollowed] at h
      simp only [Except.bind, Text.splitOn, follow] at h
      split at h
      · cases h
      · cases h
      · exact h
  · exact ⟨_, by rw [Path.text_join hdir hend hname, Text.splitOn_append_sep, hsingle], h⟩

/-- An entry is one name after its directory. -/
theorem walk_join {name : Text} (hname : (Part.name name).IsName) (h : d.walk dir = .ok names)
    (hentry : d.walk (dir.join ⟨name⟩) = .ok names') : names' = names ++ [name] := by
  obtain ⟨hdir, -, hfollow⟩ := walk_eq_ok.1 h
  obtain ⟨-, -, hfollow'⟩ := walk_eq_ok.1 hentry
  have hstart : d.start (dir.join ⟨name⟩) = d.start dir := by
    have habsolute : (dir.join ⟨name⟩).isAbsolute = dir.isAbsolute := by
      rw [Bool.eq_iff_iff, Path.isAbsolute_iff_parts, Path.isAbsolute_iff_parts,
        Path.parts_join_name hname]
      simp
    rw [start, start, habsolute]
  obtain ⟨segments, hsegments, hreached⟩ := exists_splitOn_join hname hdir hfollow
  rw [hstart, hsegments, follow_append, hreached] at hfollow'
  simp only [Except.bind, follow, hname.1, if_neg hname.2.1] at hfollow'
  split at hfollow'
  · cases hfollow'
  · cases hfollow'
  · exact (Except.ok.inj hfollow').symm

theorem walk_of_stat {p : Path} (h : d.fileSystem.stat p = .ok .directory) :
    ∃ names, d.walk p = .ok names ∧ d.kindAt? names = some .directory := by
  simp only [fileSystem, stat] at h
  cases hlook : d.lookUp p with
  | error fault =>
    rw [hlook] at h
    cases h
  | ok found =>
    obtain ⟨names, kind⟩ := found
    rw [hlook] at h
    cases h
    exact ⟨names, lookUp_eq_ok.1 hlook⟩

/-- A directory that lists a name is walked to, and the name can stand in a path. -/
theorem IsNamed.walk_of_list (h : d.IsNamed) {listed : List Text} {name : Text}
    (hlist : d.fileSystem.list dir = .ok listed) (hmem : name ∈ listed) :
    (∃ names, d.walk dir = .ok names) ∧ (Part.name name).IsName := by
  simp only [fileSystem, list] at hlist
  split at hlist
  · cases hlist
  · cases hlist
  case h_3 names hlook =>
    cases hlist
    obtain ⟨entry, hentry, hlast⟩ := List.mem_filterMap.1 hmem
    split at hlast
    case isTrue =>
      exact ⟨⟨names, (lookUp_eq_ok.1 hlook).1⟩, h entry hentry name (List.mem_of_getLast? hlast)⟩
    case isFalse => cases hlast

theorem IsNamed.length_of_opens (h : d.IsNamed)
    (hopens : Opens d.fileSystem n dir above dir' above') (hwalk : d.walk dir = .ok names)
    (hwalk' : d.walk dir' = .ok names') : names'.length = names.length + n := by
  induction hopens generalizing names with
  | start =>
    rw [hwalk] at hwalk'
    cases hwalk'
    rfl
  | next hlist hmem hstat hopens ih =>
    obtain ⟨-, hname⟩ := h.walk_of_list hlist hmem
    obtain ⟨inner, hinner, -⟩ := walk_of_stat hstat
    rw [ih hinner hwalk', walk_join hname hwalk hinner, List.length_append, List.length_singleton]
    omega

/-- On the way to a directory of a disk there are no more directories than its depth. -/
theorem IsNamed.le_depth_of_opens (h : d.IsNamed)
    (hopens : Opens d.fileSystem n dir above dir' above') : n ≤ d.fileSystem.depth := by
  rcases hopens.stat with ⟨rfl, -⟩ | hstat
  · exact Nat.zero_le _
  · obtain ⟨names', hwalk', hkind⟩ := walk_of_stat hstat
    have hlength : n ≤ names'.length := by
      cases hopens with
      | start => exact Nat.zero_le _
      | next hlist hmem hstat hrest =>
        obtain ⟨⟨names, hwalk⟩, -⟩ := h.walk_of_list hlist hmem
        rw [h.length_of_opens (.next hlist hmem hstat hrest) hwalk hwalk']
        exact Nat.le_add_left _ _
    rcases mem_of_kindAt? hkind with rfl | hentry
    · exact Nat.le_trans hlength (Nat.zero_le _)
    · exact Nat.le_trans hlength (le_foldl_max (List.mem_map_of_mem hentry) 0)

end Disk

end StyleImports
