import StyleImports.Proofs.Walk.Climbing

/-!
# What a walk discovers

A walk discovers the imports of the files that it claims (`Walk.Discovers`). If none of them is
dynamic no pattern is expanded, and then the walk terminates, whatever the resolvers answer with
(`terminates_of_static`). Every record of its graph is what a discovered import comes to
(`exists_discovered_of_lookup`).
-/

set_option autoImplicit false

namespace StyleImports

theorem Index.mem_of_lookup {index : Index} {file : Path} {position : Position} {specifier : Text}
    {d : Dependency} (h : index.lookup file position specifier = some d) :
    ∃ key dependencies, (key, dependencies) ∈ index.entries ∧ key.same file = true ∧
      d ∈ dependencies ∧ d.position = position ∧ d.specifier = specifier := by
  rw [lookup] at h
  split at h
  · cases h
  case h_2 dependencies hget =>
    obtain ⟨key, hentry, hsame⟩ := PathTable.exists_of_get? hget
    have hfound := List.find?_some h
    simp only [Bool.and_eq_true, decide_eq_true_eq] at hfound
    exact ⟨key, dependencies, hentry, hsame, List.mem_of_find?_eq_some h, hfound.1, hfound.2⟩

namespace Walk

variable {s : Setting} {entry : Path} {source : Text}

/-- A walk discovers an import in a file that one of its interleavings claims. -/
def Discovers (s : Setting) (entry : Path) (source : Text) (i : Sheet.Import) : Prop :=
  ∃ c, Reachable s entry source c ∧ ∃ f ∈ c.state.seen,
    i ∈ Setting.importsIn (s.contentOf (s.fs.cwd.absoluteFrom entry) source f)

/-- Over files in memory, with tables to answer requests, a walk that discovers no dynamic import
terminates. -/
theorem terminates_of_static {m : Memory} (hplaced : m.IsPlaced)
    (hcwd : m.cwd.isAbsolute = true) (file context : RequestTable) (options : WalkOptions)
    (hstatic : ∀ i, Discovers ⟨m.fileSystem, ⟨file.resolver, context.resolver⟩, options⟩ entry
      source i → Glob.isDynamic i.specifier = false) :
    Terminates ⟨m.fileSystem, ⟨file.resolver, context.resolver⟩, options⟩ entry source := by
  obtain ⟨limit, hlimit⟩ := Lookup.exists_limit hplaced hcwd (Setting.specifiersOf m source)
  refine terminates_of_claimed (Setting.claimable m file.answers (m.cwd.absoluteFrom entry) limit)
    fun c hc p hp => ?_
  have hinv := Inv.of_reachable hc
  rcases hinv.origin p hp with rfl | ⟨f, hf, htarget⟩
  · exact List.mem_cons_self
  · obtain ⟨i, hi, hpi⟩ := Setting.mem_targets_reading.1 htarget
    obtain ⟨q, horigin, rfl⟩ := Setting.exists_origin hpi
    refine List.mem_cons_of_mem _ (List.mem_map_of_mem (List.mem_append.2 ?_))
    cases horigin with
    | looked hlooked =>
      have hheld := hlimit i.specifier (Setting.mem_specifiersOf hi) options.paths f q hlooked
      exact .inr (Memory.mem_filesWithin hheld)
    | answered hanswer hmem => exact .inl (RequestTable.mem_answers hanswer hmem)
    | expanded _ hwatched =>
      -- A static import has no directory watched, so it has no pattern.
      have hdiscovered := hstatic i ⟨c, hc, f, hinv.mem_seen_of_settled hf, hi⟩
      rw [Setting.resolve_of_static hdiscovered] at hwatched
      cases hwatched

/-- Every record of the graph is what a discovered import of its file comes to. -/
theorem exists_discovered_of_lookup {budget : Nat} {w : Walk} {cache : Option Cache}
    (h : fromSource s budget none entry source = some (w, cache)) {file : Path}
    {position : Position} {specifier : Text} {d : Dependency}
    (hd : w.index.lookup file position specifier = some d) :
    ∃ key i, key.same file = true ∧ Discovers s entry source i ∧
      d = (s.resolve key i).dependency ∧ i.position = position ∧ i.specifier = specifier := by
  obtain ⟨c, hreachable, hdone, rfl⟩ := reachable_of_fromSource h
  have hinv := Inv.of_reachable hreachable
  obtain ⟨key, dependencies, hentry, hsame, hmem, rfl, rfl⟩ := Index.mem_of_lookup hd
  have hread : dependencies =
      (s.readingOf (s.fs.cwd.absoluteFrom entry) source key).dependencies := hinv.entries _ hentry
  rw [hread, Setting.readingOf, Setting.dependencies_reading] at hmem
  obtain ⟨i, hi, rfl⟩ := List.mem_map.1 hmem
  have hseen : key ∈ c.state.seen :=
    (hinv.seen_perm hdone).mem_iff.2 (List.mem_map_of_mem hentry)
  refine ⟨key, i, hsame, ⟨c, hreachable, key, hseen, hi⟩, rfl, ?_, ?_⟩
  · rw [Setting.resolve]
    split <;> rfl
  · rw [Setting.resolve]
    split <;> rfl

end Walk

end StyleImports
