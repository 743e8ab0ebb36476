import StyleImports.Proofs.Lookup.Origins
import StyleImports.Proofs.Walk.Interleaving

/-!
# Where the imports of a file lead

A path that an import leads to is the reported spelling of a file that was looked up, of an answer
of the resolver, or of a file below the directory of a pattern (`Setting.exists_origin`); that
directory is then one to watch. `Setting.mem_targets_reading` and `Setting.mem_contexts_reading`
take this from single imports to files.
-/

set_option autoImplicit false

namespace StyleImports

theorem Request.exists_of_firstAnswer {resolve : Text → Except ResolveError (List Path)}
    {e : ResolveError} {requests : List Text} {paths : List Path}
    (h : firstAnswer resolve e requests = .ok paths) :
    ∃ request ∈ requests, resolve request = .ok paths := by
  induction requests generalizing e with
  | nil => cases h
  | cons request rest ih =>
    rw [firstAnswer] at h
    split at h
    case h_1 answer hanswer =>
      cases h
      exact ⟨request, List.mem_cons_self, hanswer⟩
    case h_2 =>
      obtain ⟨other, hother, hanswer⟩ := ih h
      exact ⟨other, List.mem_cons_of_mem _ hother, hanswer⟩

/-- The paths that a table answers with. -/
def RequestTable.answers (table : RequestTable) : List Path := table.entries.flatMap Prod.snd

theorem RequestTable.mem_answers {table : RequestTable} {dir p : Path} {request : Text}
    {paths : List Path} (h : table.resolver dir request = .ok paths) (hp : p ∈ paths) :
    p ∈ table.answers := by
  rw [resolver] at h
  split at h
  case h_1 answer hanswer =>
    cases h
    obtain ⟨e, hfind, rfl⟩ := Option.map_eq_some_iff.1 hanswer
    exact List.mem_flatMap.2 ⟨e, List.mem_reverse.1 (List.mem_of_find?_eq_some hfind), hp⟩
  case h_2 => cases h

namespace Setting

variable {s : Setting} {file p d : Path} {specifier : Text} {i : Sheet.Import}

/-! ## Imports -/

theorem isPattern_of_static (h : Glob.isDynamic specifier = false) :
    s.isPattern file specifier = false := by
  simp [isPattern, Glob.isRequest, h]

theorem resolve_of_not_isPattern (h : s.isPattern file i.specifier = false) :
    s.resolve file i =
      ⟨⟨i.position, i.specifier, targetOf i.specifier (s.resolveStatic file i.specifier)⟩, [],
        none⟩ := by
  rw [resolve, h]
  rfl

theorem resolve_of_static (h : Glob.isDynamic i.specifier = false) :
    s.resolve file i =
      ⟨⟨i.position, i.specifier, targetOf i.specifier (s.resolveStatic file i.specifier)⟩, [],
        none⟩ :=
  resolve_of_not_isPattern (isPattern_of_static h)

/-- The directories below which a pattern with the given base may be expanded. -/
inductive Base (s : Setting) (file : Path) (base : Text) : Path → Prop where
  | answered {request : Text} {paths : List Path} {dir : Path} :
      s.resolvers.context (directoryOf file) request = .ok paths → dir ∈ paths →
      Base s file base dir
  | beside : s.fs.isDirectory ((directoryOf file).join ⟨base⟩).clean = true →
      Base s file base ((directoryOf file).join ⟨base⟩).clean

theorem base_of_resolveBase {base : Text} {dir : Path} (h : s.resolveBase file base = .ok dir) :
    s.Base file base dir := by
  simp only [resolveBase] at h
  split at h
  case h_1 found rest hanswer =>
    cases h
    obtain ⟨request, _, hrequest⟩ := Request.exists_of_firstAnswer hanswer
    exact .answered hrequest List.mem_cons_self
  case h_2 =>
    split at h
    · split at h <;> cases h
    case isFalse hdirectory =>
      cases h
      simp only [Bool.or_eq_true, not_or, Bool.not_eq_true', Bool.not_eq_false] at hdirectory
      exact .beside hdirectory.2

/-- Where the files of an import come from. The directory of a pattern is among the given ones to
watch. -/
inductive Origin (s : Setting) (file : Path) (specifier : Text) (contexts : List Path) :
    Path → Prop where
  | looked {p : Path} : Lookup.Origin ⟨s.fs, s.options.paths⟩ specifier file p →
      Origin s file specifier contexts p
  | answered {request : Text} {paths : List Path} {p : Path} :
      s.resolvers.file (directoryOf file) request = .ok paths → p ∈ paths →
      Origin s file specifier contexts p
  | expanded {base : Text} {dir p : Path} : s.Base file base dir → dir.asDependency ∈ contexts →
      s.fs.ListsBelow dir p → s.fs.isFile p = true → Origin s file specifier contexts p

theorem origin_of_resolveStatic {found : List Path} {contexts : List Path}
    (h : s.resolveStatic file specifier = .ok found) (hp : p ∈ found) :
    s.Origin file specifier contexts p := by
  simp only [resolveStatic] at h
  split at h
  case h_1 paths hfound =>
    cases h
    split at hfound
    · cases hfound
    · exact .looked (Lookup.mem_resolve hfound hp)
  case h_2 =>
    obtain ⟨request, _, hrequest⟩ := Request.exists_of_firstAnswer h
    exact .answered hrequest hp

/-- What a pattern matches is a file below a directory that is watched. -/
theorem expanded_of_resolvePattern {found : List Path}
    (h : (s.resolvePattern file specifier).2 = .ok found) (hp : p ∈ found) :
    ∃ base dir, s.Base file base dir ∧
      dir.asDependency ∈ (s.resolvePattern file specifier).1 ∧
      s.fs.ListsBelow dir p ∧ s.fs.isFile p = true := by
  rw [resolvePattern] at h ⊢
  split at h
  · cases h
  · split at h
    · cases h
    case h_2 dir hdir =>
      rw [expandBelow] at h
      split at h
      · cases h
      · cases h
      case h_3 hexpand =>
        cases h
        obtain ⟨hbelow, hfile, _⟩ := Glob.mem_expand hexpand hp
        exact ⟨_, dir, base_of_resolveBase hdir, List.mem_cons_self, hbelow, hfile⟩

theorem origin_of_resolvePattern {found : List Path}
    (h : (s.resolvePattern file specifier).2 = .ok found) (hp : p ∈ found) :
    s.Origin file specifier (s.resolvePattern file specifier).1 p := by
  obtain ⟨base, dir, hbase, hcontext, hbelow, hfile⟩ := expanded_of_resolvePattern h hp
  exact .expanded hbase hcontext hbelow hfile

theorem paths_targetOf {answer : Except ResolveError (List Path)}
    (h : p ∈ (targetOf specifier answer).paths) :
    ∃ found q, answer = .ok found ∧ q ∈ found ∧ p = q.asDependency := by
  match answer with
  | .error e => cases h
  | .ok [] => cases h
  | .ok (first :: rest) =>
    rw [targetOf, Target.paths_ofPaths] at h
    · obtain ⟨q, hq, rfl⟩ := List.mem_map.1 h
      exact ⟨_, q, rfl, hq, rfl⟩
    · simp

theorem exists_origin (h : p ∈ (s.resolve file i).dependency.target.paths) :
    ∃ q, s.Origin file i.specifier (s.resolve file i).contexts q ∧ p = q.asDependency := by
  cases hpattern : s.isPattern file i.specifier with
  | true =>
    simp only [resolve, hpattern, if_true] at h ⊢
    obtain ⟨found, q, hfound, hq, rfl⟩ := paths_targetOf h
    exact ⟨q, origin_of_resolvePattern hfound hq, rfl⟩
  | false =>
    simp only [resolve, hpattern, Bool.false_eq_true, if_false] at h ⊢
    obtain ⟨found, q, hfound, hq, rfl⟩ := paths_targetOf h
    exact ⟨q, origin_of_resolveStatic hfound hq, rfl⟩

theorem exists_base (h : d ∈ (s.resolve file i).contexts) :
    ∃ base dir, s.Base file base dir ∧ d = dir.asDependency := by
  cases hpattern : s.isPattern file i.specifier with
  | true =>
    simp only [resolve, hpattern, if_true, resolvePattern] at h
    split at h
    · cases h
    case h_2 base hbase =>
      split at h
      · cases h
      case h_2 dir hdir =>
        exact ⟨base, dir, base_of_resolveBase hdir, List.mem_singleton.1 h⟩
  | false =>
    simp only [resolve, hpattern, Bool.false_eq_true, if_false] at h
    cases h

/-! ## Files -/

/-- The imports of a file with some content. -/
def importsIn : Except FileError Text → List Sheet.Import
  | .error _ => []
  | .ok text =>
    match Sheet.parse text with
    | .error _ => []
    | .ok nodes => Sheet.importsOf nodes

theorem dependencies_reading (s : Setting) (file : Path) (content : Except FileError Text) :
    (s.reading file content).dependencies =
      (importsIn content).map fun i => (s.resolve file i).dependency := by
  cases content with
  | error e => rfl
  | ok text =>
    simp only [reading, importsIn]
    cases Sheet.parse text with
    | error e => rfl
    | ok nodes => simp

theorem targets_reading (s : Setting) (file : Path) (content : Except FileError Text) :
    (s.reading file content).targets =
      (importsIn content).flatMap fun i => (s.resolve file i).dependency.target.paths := by
  cases content with
  | error e => rfl
  | ok text =>
    simp only [reading, importsIn]
    cases Sheet.parse text with
    | error e => rfl
    | ok nodes => simp [Reading.targets, List.flatMap_map]

theorem contexts_notes (r : Resolution) : r.notes.filterMap Note.context? = r.contexts := by
  have hcontexts : (r.contexts.map Note.context).filterMap Note.context? = r.contexts := by
    simp [List.filterMap_map, Function.comp_def, Note.context?]
  rw [Resolution.notes, List.filterMap_append, hcontexts]
  cases r.failure <;> simp [Note.context?]

theorem contexts_reading (s : Setting) (file : Path) (content : Except FileError Text) :
    (s.reading file content).contexts =
      (importsIn content).flatMap fun i => (s.resolve file i).contexts := by
  cases content with
  | error e => rfl
  | ok text =>
    simp only [reading, importsIn]
    cases Sheet.parse text with
    | error e => rfl
    | ok nodes =>
      simp [Reading.contexts, List.flatMap_map, List.filterMap_flatMap, contexts_notes]

theorem mem_targets_reading {content : Except FileError Text} :
    p ∈ (s.reading file content).targets ↔
      ∃ i ∈ importsIn content, p ∈ (s.resolve file i).dependency.target.paths := by
  rw [targets_reading, List.mem_flatMap]

theorem mem_contexts_reading {content : Except FileError Text} :
    d ∈ (s.reading file content).contexts ↔
      ∃ i ∈ importsIn content, d ∈ (s.resolve file i).contexts := by
  rw [contexts_reading, List.mem_flatMap]

end Setting

end StyleImports
