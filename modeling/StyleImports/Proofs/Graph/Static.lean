import StyleImports.Proofs.Graph.Origins
import StyleImports.Proofs.Lookup.Alike
import StyleImports.Proofs.Lookup.Spelling

/-!
# Records of static imports

A static import is looked up and else asked for from the resolver; nothing is noted about it
(`Setting.resolve_of_static`). So its record stays the same as long as native lookup comes to the
same (`Setting.record_of_lookup`), and it is the same from every spelling of its file
(`Setting.record_of_same`).
-/

set_option autoImplicit false

namespace StyleImports

/-- The answers of a resolver do not depend on the spelling of the directory. -/
def Resolver.IsSteady (resolver : Resolver) : Prop :=
  ∀ (dir dir' : Path) (request : Text) (found : List Path), dir.same dir' = true →
    resolver dir request = .ok found → resolver dir' request = .ok found

theorem RequestTable.isSteady_resolver (table : RequestTable) : table.resolver.IsSteady := by
  intro dir dir' request found _ h
  rw [resolver] at h ⊢
  cases hget : table.get? request with
  | none =>
    rw [hget] at h
    cases h
  | some paths =>
    rw [hget] at h
    exact h

theorem Request.firstAnswer_of_steady {resolver : Resolver} (h : resolver.IsSteady)
    {dir dir' : Path} (hsame : dir.same dir' = true) {requests : List Text}
    {error error' : ResolveError} {found : List Path}
    (hfound : firstAnswer (resolver dir) error requests = .ok found) :
    firstAnswer (resolver dir') error' requests = .ok found := by
  induction requests generalizing error error' with
  | nil => cases hfound
  | cons request requests ih =>
    rw [firstAnswer] at hfound ⊢
    cases hanswer : resolver dir request with
    | ok paths =>
      rw [hanswer] at hfound
      cases hfound
      rw [h dir dir' request found hsame hanswer]
    | error e =>
      rw [hanswer] at hfound
      cases hother : resolver dir' request with
      | ok paths =>
        rw [h dir' dir request paths (Path.same_symm hsame) hother] at hanswer
        cases hanswer
      | error e' => exact ih hfound

namespace Setting

variable {s : Setting} {file other : Path} {i : Sheet.Import}

theorem exists_of_targetOf {specifier : Text} {answer : Except ResolveError (List Path)}
    (h : (targetOf specifier answer).isFailed = false) : ∃ found, answer = .ok found := by
  cases answer with
  | error e => cases h
  | ok found => exact ⟨found, rfl⟩

/-- An import that is no pattern leads to all that native lookup finds. -/
theorem paths_of_lookup (hpattern : s.isPattern file i.specifier = false)
    (hmodule : Specifier.isModule i.specifier = false) {found : List Path}
    (hfound : Lookup.resolve ⟨s.fs, s.options.paths⟩ i.specifier file = some found) :
    (s.resolve file i).dependency.target.paths = found.map Path.asDependency := by
  have hanswer : s.resolveStatic file i.specifier = .ok found := by
    rw [resolveStatic, hmodule]
    simp only [Bool.false_eq_true, if_false, hfound]
  rw [resolve_of_not_isPattern hpattern, hanswer]
  cases found with
  | nil => rfl
  | cons p rest => exact Target.paths_ofPaths _

/-! ## Spellings of the file -/

theorem directoryOf_same (h : file.same other = true) :
    (directoryOf file).same (directoryOf other) = true := by
  rw [directoryOf, directoryOf]
  rcases Path.parent?_congr h with ⟨hfile, hother⟩ | ⟨dir, beside, hfile, hother, hsame⟩
  · rw [hfile, hother]
    exact h
  · rw [hfile, hother]
    exact hsame

theorem isPattern_congr (h : file.same other = true) (specifier : Text) :
    s.isPattern file specifier = s.isPattern other specifier := by
  rw [isPattern, isPattern, Path.clean_congr (Path.join_congr (directoryOf_same h) _)]

/-- An import leads to what native lookup finds from another spelling of its file. -/
theorem paths_of_same_lookup (hsame : file.same other = true)
    (hpattern : s.isPattern other i.specifier = false)
    (hmodule : Specifier.isModule i.specifier = false) {found : List Path}
    (hfound : Lookup.resolve ⟨s.fs, s.options.paths⟩ i.specifier other = some found) :
    (s.resolve file i).dependency.target.paths = found.map Path.asDependency := by
  rw [← isPattern_congr hsame] at hpattern
  rw [← Lookup.resolve_congr hsame] at hfound
  exact paths_of_lookup hpattern hmodule hfound

/-- A static import that leads somewhere leads there from every spelling of its file. -/
theorem record_of_same (hsteady : s.resolvers.file.IsSteady)
    (hstatic : Glob.isDynamic i.specifier = false) (hsame : file.same other = true)
    (hfound : (s.resolve file i).dependency.target.isFailed = false) :
    (s.resolve other i).dependency = (s.resolve file i).dependency := by
  rw [resolve_of_static hstatic] at hfound
  rw [resolve_of_static hstatic, resolve_of_static hstatic]
  obtain ⟨found, hanswer⟩ := exists_of_targetOf hfound
  have hother : s.resolveStatic other i.specifier = .ok found := by
    simp only [resolveStatic, Lookup.resolve_congr hsame] at hanswer ⊢
    split at hanswer
    case h_1 => exact hanswer
    case h_2 => exact Request.firstAnswer_of_steady hsteady (directoryOf_same hsame) hanswer
  rw [hanswer, hother]

/-- A static import has the same record among other files, if native lookup comes to the same. -/
theorem record_of_lookup {fs : FileSystem} (hstatic : Glob.isDynamic i.specifier = false)
    (hlookup : Specifier.isModule i.specifier = false →
      Lookup.resolve ⟨fs, s.options.paths⟩ i.specifier file =
        Lookup.resolve ⟨s.fs, s.options.paths⟩ i.specifier file) :
    ((s.withFiles fs).resolve file i).dependency = (s.resolve file i).dependency := by
  rw [resolve_of_static hstatic, resolve_of_static hstatic]
  have hanswer : (s.withFiles fs).resolveStatic file i.specifier =
      s.resolveStatic file i.specifier := by
    simp only [resolveStatic, withFiles]
    cases hmodule : Specifier.isModule i.specifier with
    | true => rfl
    | false => rw [hlookup hmodule]
  rw [hanswer]

end Setting

end StyleImports
