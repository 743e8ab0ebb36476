import StyleImports.Proofs.Files.Within
import StyleImports.Proofs.Graph.Plain

/-!
# How a found file is recorded

An import that is found in directories, or by its pattern, is recorded under the reported spellings
of what was found (`Setting.paths_of_found`). What is found is a file, and in memory the record
names this very file exactly if the path under which it is stored has no backslash
(`Setting.recorded_of_found`).
-/

set_option autoImplicit false

namespace StyleImports

/-! ## Places without backslashes -/

namespace Memory

variable {m : Memory} {p q dir : Path}

theorem isPlain_place (hcwd : m.cwd.IsPlain) (hp : p.IsPlain) : (m.place p).IsPlain := by
  rw [place, Path.cleanFrom]
  split
  case isTrue => exact hp.clean
  case isFalse => exact (hcwd.join hp).clean

/-- The names of a tidy path are names of its place. -/
theorem isPlain_of_place (hp : p.IsTidy) (h : (m.place p).IsPlain) : p.IsPlain := by
  obtain ⟨stem, names, hparts, hstem, hnames⟩ := hp.parts
  obtain ⟨stem', (hplace : (m.place p).parts = _)⟩ :=
    Path.exists_stem_cleanFrom hparts hstem hnames m.cwd
  refine hp.canonical.isPlain fun n hn => h.of_mem_parts ?_
  rw [hparts] at hn
  rw [hplace]
  exact List.mem_append_right _ (Path.mem_names_of_mem_parts hstem hn)

theorem isCanonical_of_lists (hdir : dir.IsCanonical) (hp : m.fileSystem.Lists dir p) :
    p.IsCanonical := by
  cases hp with
  | @entry names n hlist hn =>
    obtain ⟨key, hkey, part, hsegment, rfl, hbelow⟩ := exists_key_of_list hlist hn
    exact (hdir.join (Path.isIdle_text hsegment) (Path.not_mem_text hsegment)).1

/-- The reported spelling of a tidy path leads to the place of the path exactly if the place has
no backslash. -/
theorem place_asDependency_iff (hcwd : m.cwd.IsPlain) (hp : p.IsTidy) :
    m.place p.asDependency = m.place p ↔ (m.place p).IsPlain := by
  constructor
  · intro h
    rw [← h]
    exact isPlain_place hcwd p.isPlain_asDependency
  · intro h
    rw [hp.canonical.asDependency_eq (isPlain_of_place hp h)]

end Memory

/-! ## What an import is found as -/

/-- Requests for directories are answered with clean paths. -/
def Resolvers.CleanContexts (r : Resolvers) : Prop :=
  ∀ dir request paths, r.context dir request = .ok paths → ∀ p ∈ paths, p.clean = p

namespace Setting

variable {s : Setting} {file q : Path} {specifier : Text} {i : Sheet.Import} {found : List Path}

/-- The files that an import is found as: those that its pattern matches, or those that it is
looked up as in directories. -/
def found? (s : Setting) (file : Path) (specifier : Text) : Option (List Path) :=
  if s.isPattern file specifier then (s.resolvePattern file specifier).2.toOption
  else if Specifier.isModule specifier then none
  else Lookup.resolve ⟨s.fs, s.options.paths⟩ specifier file

/-- A pattern finds what it is resolved to; any other import, what it is looked up as, whatever the
resolvers say. -/
theorem found?_eq_some (h : s.found? file specifier = some found) :
    s.isPattern file specifier = true ∧ (s.resolvePattern file specifier).2 = .ok found ∨
      s.isPattern file specifier = false ∧ Specifier.isModule specifier = false ∧
        Lookup.resolve ⟨s.fs, s.options.paths⟩ specifier file = some found := by
  rw [found?] at h
  split at h
  case isTrue hpattern =>
    refine .inl ⟨hpattern, ?_⟩
    cases hanswer : (s.resolvePattern file specifier).2 with
    | error e =>
      rw [hanswer] at h
      cases h
    | ok paths =>
      rw [hanswer] at h
      cases h
      rfl
  case isFalse hpattern =>
    split at h
    case isTrue => cases h
    case isFalse hmodule =>
      exact .inr ⟨Bool.eq_false_iff.2 hpattern, Bool.eq_false_iff.2 hmodule, h⟩

theorem targets_of_found (h : s.found? file i.specifier = some found) :
    (s.resolve file i).dependency.target.paths = found.map Path.asDependency := by
  have htarget : (s.resolve file i).dependency.target = targetOf i.specifier (.ok found) := by
    rcases found?_eq_some h with ⟨hpattern, hanswer⟩ | ⟨hpattern, hmodule, hfound⟩
    · simp only [resolve, hpattern, if_true, hanswer]
    · simp only [resolve, hpattern, resolveStatic, hmodule, hfound, Bool.false_eq_true, if_false]
  rw [htarget]
  cases found with
  | nil => rfl
  | cons first rest => rw [targetOf, Target.paths_ofPaths]; simp

/-- What is found is looked up in directories, or is a file below the directory of a pattern. -/
theorem mem_found (h : s.found? file specifier = some found) (hq : q ∈ found) :
    s.isPattern file specifier = false ∧ Lookup.Origin ⟨s.fs, s.options.paths⟩ specifier file q ∨
      s.isPattern file specifier = true ∧ ∃ base dir, s.Base file base dir ∧
        s.fs.ListsBelow dir q ∧ s.fs.isFile q = true := by
  rcases found?_eq_some h with ⟨hpattern, hanswer⟩ | ⟨hpattern, -, hfound⟩
  · obtain ⟨base, dir, hbase, -, hbelow, hfile⟩ := expanded_of_resolvePattern hanswer hq
    exact .inr ⟨hpattern, base, dir, hbase, hbelow, hfile⟩
  · exact .inl ⟨hpattern, Lookup.mem_resolve hfound hq⟩

theorem isFile_of_found (h : s.found? file specifier = some found) (hq : q ∈ found) :
    s.fs.isFile q = true := by
  rcases mem_found h hq with ⟨-, hlooked⟩ | ⟨-, base, dir, -, -, hfile⟩
  · exact hlooked.isFile
  · exact hfile

/-- What holds of clean paths and is handed on to entries holds of all that is found, unless a
pattern is expanded below a path that is not clean. -/
theorem of_found {P : Path → Prop} (hclean : ∀ p : Path, P p.clean)
    (hlists : ∀ dir p, P dir → s.fs.Lists dir p → P p)
    (hcontexts : s.isPattern file specifier = false ∨ s.resolvers.CleanContexts)
    (h : s.found? file specifier = some found) (hq : q ∈ found) : P q := by
  rcases mem_found h hq with ⟨-, hlooked⟩ | ⟨hpattern, base, dir, hbase, hbelow, -⟩
  · exact hlooked.of_clean (fun p _ => hclean p) hlists
  · have hanswers := hcontexts.resolve_left (by simp [hpattern])
    refine FileSystem.of_listsBelow hlists ?_ hbelow
    cases hbase with
    | beside => exact hclean _
    | answered hanswer hmem =>
      rw [← hanswers _ _ _ hanswer dir hmem]
      exact hclean dir

/-- **An import is recorded under the path that was found for it**, if this has no backslash and no
verbatim mark. Lookups and clean directories give no marked path, and there the record names the
file that was found exactly if the path of the stored file has no backslash. -/
theorem recorded_of_found {m : Memory} {resolvers : Resolvers} {options : WalkOptions}
    (h : (Setting.mk m.fileSystem resolvers options).found? file i.specifier = some found) :
    ((Setting.mk m.fileSystem resolvers options).resolve file i).dependency.target.paths =
      found.map Path.asDependency ∧
    ∀ q ∈ found, (∃ content, m.fileSystem.read q = .ok content) ∧
      (q.IsPlain → ¬ Path.verbatimMark <+: q.text → q.asDependency = q) ∧
      ((Setting.mk m.fileSystem resolvers options).isPattern file i.specifier = false ∨
          resolvers.CleanContexts →
        ¬ Path.verbatimMark <+: q.text ∧
        (m.IsPlaced → m.cwd.isAbsolute = true → m.cwd.IsPlain →
          (m.place q.asDependency = m.place q ↔ (m.place q).IsPlain))) := by
  refine ⟨targets_of_found h, fun q hq => ⟨?reads, fun hplain => hplain.asDependency_eq, ?names⟩⟩
  case reads => exact Memory.exists_read_of_isFile (isFile_of_found h hq)
  case names =>
    refine fun hcontexts => ⟨?marked, fun hplaced hcwd hplain => ?place⟩
    case marked =>
      have hcanonical : q.IsCanonical :=
        of_found (fun p => p.isCanonical_clean) (fun _ _ => Memory.isCanonical_of_lists) hcontexts
          h hq
      exact hcanonical.not_marked
    case place =>
      have htidy : q.IsTidy :=
        of_found (fun p => p.isTidy_clean)
          (fun _ _ hdir hp => (hplaced.isTidy_of_lists hcwd hdir hp).1) hcontexts h hq
      exact Memory.place_asDependency_iff hplain htidy

/-- A file with a backslash in its name, and two without. -/
def backslashFiles : Memory :=
  (((Memory.empty ⟨"/p".toList⟩).add ⟨"a\\b.styl".toList⟩ (Text.utf8 "c\n")).add
    ⟨"kit/d.styl".toList⟩ (Text.utf8 "d\n")).add ⟨"kit/e.styl".toList⟩ (Text.utf8 "e\n")

def backslashed : Setting :=
  ⟨backslashFiles.fileSystem, ⟨RequestTable.empty.resolver, RequestTable.empty.resolver⟩,
    ⟨[], none, []⟩⟩

/-- The files of a pattern are recorded as they are found, and their records name them. -/
theorem recorded_of_found_pattern :
    (backslashed.resolve ⟨"/p/main.styl".toList⟩
      ⟨"kit/*", ⟨1, 1⟩, .always⟩).dependency.target.paths =
        [⟨"/p/kit/d.styl".toList⟩, ⟨"/p/kit/e.styl".toList⟩] ∧
      ∃ content, backslashFiles.fileSystem.read ⟨"/p/kit/d.styl".toList⟩ = .ok content := by
  obtain ⟨htargets, hfiles⟩ := @recorded_of_found ⟨"/p/main.styl".toList⟩
    ⟨"kit/*", ⟨1, 1⟩, .always⟩ [⟨"/p/kit/d.styl".toList⟩, ⟨"/p/kit/e.styl".toList⟩]
    backslashFiles backslashed.resolvers backslashed.options (by decide +kernel)
  have hplain : ∀ q ∈ [⟨"/p/kit/d.styl".toList⟩, ⟨"/p/kit/e.styl".toList⟩], Path.IsPlain q := by
    decide +kernel
  have hclean : backslashed.resolvers.CleanContexts := fun _ _ _ h => nomatch h
  have hkept : ∀ q ∈ [⟨"/p/kit/d.styl".toList⟩, ⟨"/p/kit/e.styl".toList⟩],
      Path.asDependency q = q := fun q hq => by
    obtain ⟨-, hrecorded, hnames⟩ := hfiles q hq
    exact hrecorded (hplain q hq) (hnames (.inr hclean)).1
  refine ⟨htargets.trans ?_, (hfiles _ List.mem_cons_self).1⟩
  rw [List.map_congr_left hkept, List.map_id']

/-- A file with a backslash in its name is recorded under the path of another one. -/
theorem not_recorded_of_found :
    ¬ ∀ found, backslashed.found? ⟨"/p/main.styl".toList⟩ "a\\b" = some found →
      ∀ p ∈ (backslashed.resolve ⟨"/p/main.styl".toList⟩
          ⟨"a\\b", ⟨1, 1⟩, .always⟩).dependency.target.paths,
        ∃ q ∈ found, backslashFiles.place p = backslashFiles.place q := by
  intro h
  have hfound : backslashed.found? ⟨"/p/main.styl".toList⟩ "a\\b" =
      some [⟨"/p/a\\b.styl".toList⟩] := by decide +kernel
  obtain ⟨q, hq, heq⟩ := h _ hfound ⟨"/p/a/b.styl".toList⟩ (by decide +kernel)
  rw [List.mem_singleton.1 hq] at heq
  revert heq
  decide +kernel

end Setting

end StyleImports
