import StyleImports.Proofs.Sheet.Visitor
import StyleImports.Proofs.Walk.Records

/-!
# What a walk stores

A walk stores the records of a file that it visits if all of its imports are static and none of them
failed (`Walk.Stored`). What is kept for a file changes only while that file is visited
(`Walk.Stores.frame`). So a cache holds after a walk what it held before and what the walk has
stored; a file that it cannot answer for is resolved afresh; and it cannot answer for a file with a
failed import that the walk has visited (`stored_of_fromSource`).
-/

set_option autoImplicit false

namespace StyleImports

open Setting (importsIn)

/-! ## Entries -/

/-- Records of which none failed and none is of a pattern. -/
def CacheEntry.IsResolved (kept : CacheEntry) : Prop :=
  ∀ d ∈ kept.dependencies, d.target.isFailed = false ∧ Glob.isDynamic d.specifier = false

def Cache.IsResolved (cache : Cache) : Prop := ∀ e ∈ cache.entries.entries, e.2.IsResolved

namespace Cache

variable {cache : Cache} {file other : Path} {content options : Text} {targetExists : Path → Bool}

theorem get?_get_of_not_same (h : other.same file = false) :
    (cache.get other content options targetExists).2.entries.get? file =
      cache.entries.get? file := by
  apply Option.ext
  intro kept
  rw [get?_get]
  simp [Operation.Ends, h]

theorem entryFor_get_of_none (h : (cache.get file content options targetExists).1 = none) :
    (cache.get file content options targetExists).2.entryFor file content options = none := by
  rw [Option.eq_none_iff_forall_ne_some]
  intro kept hkept
  obtain ⟨hleft, hcontent, hoptions⟩ := entryFor_eq_some.1 hkept
  obtain ⟨hbefore, hstays⟩ := get?_get.1 hleft
  apply hstays
  refine ⟨Path.same_self file, hcontent, hoptions, isLive_eq_false_iff.1 ?_⟩
  rw [← Bool.not_eq_true]
  intro hlive
  have hanswer := get_eq_some.2 ⟨kept, hbefore, hcontent, hoptions, isLive_iff.1 hlive, rfl⟩
  rw [h] at hanswer
  cases hanswer

end Cache

namespace Walk

variable {s : Setting} {entry file : Path} {source text : Text} {budget : Nat}
  {st st' : WalkState} {cache cache' : Option Cache}

/-- What is kept for a walk, if it has a cache. -/
def entriesOf (cache : Option Cache) : PathTable CacheEntry := (cache.map Cache.entries).getD .empty

/-- What a walk has stored for a file: it has resolved all imports of a text of the file, none of
them is a pattern and none failed, and it entered them. -/
structure Stored (s : Setting) (entry : Path) (source : Text) (index : Index) (file : Path)
    (kept : CacheEntry) : Prop where
  visited : ∃ visited text nodes, visited.same file = true ∧
    (visited, kept.dependencies) ∈ index.entries ∧
    s.contentOf entry source visited = .ok text ∧ Sheet.parse text = .ok nodes ∧
    kept.content = Sha256.ofText text ∧
    kept.dependencies = freshOf s visited (Sheet.Visitor.visit nodes) ∧
    Dependency.Lists (Sheet.Visitor.visit nodes) kept.dependencies
  options : kept.options = s.options.fingerprint
  resolved : kept.IsResolved

/-- A cache keeps an entry for a file that matches its content and the options of a walk. -/
def Answerable (s : Setting) (entry : Path) (source : Text) (cache : Option Cache) (file : Path) :
    Prop :=
  ∃ k text kept, cache = some k ∧ s.contentOf entry source file = .ok text ∧
    k.entryFor file (Sha256.ofText text) s.options.fingerprint = some kept

theorem Answerable.of_frame (h : Answerable s entry source cache' file)
    (hframe : (entriesOf cache').get? file = (entriesOf cache).get? file) :
    Answerable s entry source cache file := by
  obtain ⟨k', text, kept, rfl, htext, hkept⟩ := h
  obtain ⟨hget, hmatches⟩ := Cache.entryFor_eq_some.1 hkept
  have hbefore : (entriesOf cache).get? file = some kept := hframe.symm.trans hget
  cases cache with
  | none => cases hbefore
  | some k => exact ⟨k, text, kept, rfl, htext, Cache.entryFor_eq_some.2 ⟨hbefore, hmatches⟩⟩

theorem isResolved_iff : (∀ k, cache = some k → k.IsResolved) ↔
    ∀ e ∈ (entriesOf cache).entries, e.2.IsResolved := by
  cases cache with
  | none => exact ⟨nofun, nofun⟩
  | some k =>
    refine ⟨fun h => h k rfl, ?_⟩
    rintro h k ⟨⟩
    exact h

/-! ## Imports of a file -/

section
variable {imports : List Sheet.Import} {dependencies : List Dependency}

theorem Recorded.get?_of_not_same {p : Path}
    (h : Recorded s file text imports cache dependencies cache') (hother : p.same file = false) :
    (entriesOf cache').get? p = (entriesOf cache).get? p := by
  have hasked : ∀ k : Cache, (askCache s k file text).2.entries.get? p = k.entries.get? p :=
    fun k => Cache.get?_get_of_not_same (by rw [Path.same_comm]; exact hother)
  cases h with
  | uncached => rfl
  | served => exact hasked _
  | kept k => exact (PathTable.get?_insert_of_not_same hother).trans (hasked k)
  | missed k => exact hasked k

theorem isResolved_freshOf {content options : Text} (hcacheable : isCacheable imports = true)
    (hresolved : ∀ d ∈ freshOf s file imports, d.target.isFailed = false) :
    (CacheEntry.mk content options (freshOf s file imports)).IsResolved := by
  intro d hd
  refine ⟨hresolved d hd, ?_⟩
  obtain ⟨i, hi, rfl⟩ := List.mem_map.1 hd
  rw [(s.place_resolve file i).2]
  simpa using List.all_eq_true.1 hcacheable i hi

/-- What is kept after a file was resolved was kept before, or is what its imports came to. -/
theorem Recorded.mem_entriesOf {e : Path × CacheEntry}
    (h : Recorded s file text imports cache dependencies cache')
    (he : e ∈ (entriesOf cache').entries) : e ∈ (entriesOf cache).entries ∨
      e.1.same file = true ∧ e.2 = ⟨Sha256.ofText text, s.options.fingerprint, dependencies⟩ ∧
        dependencies = freshOf s file imports ∧ e.2.IsResolved := by
  have hasked : ∀ k : Cache, e ∈ (askCache s k file text).2.entries.entries →
      e ∈ k.entries.entries := fun k => entries_askCache s k file text e
  cases h with
  | uncached => exact .inl he
  | served => exact .inl (hasked _ he)
  | kept k hcacheable hresolved =>
    rcases PathTable.mem_entries_insert he with ⟨hsame, hnew⟩ | hold
    · refine .inr ⟨hsame, hnew, rfl, ?_⟩
      rw [hnew]
      exact isResolved_freshOf hcacheable hresolved
    · exact .inl (hasked k hold)
  | missed k => exact .inl (hasked k he)

theorem Recorded.isResolved (h : Recorded s file text imports cache dependencies cache')
    (hresolved : ∀ k, cache = some k → k.IsResolved) : ∀ k, cache' = some k → k.IsResolved := by
  rw [isResolved_iff] at hresolved ⊢
  intro e he
  rcases h.mem_entriesOf he with hold | ⟨-, -, -, hnew⟩
  · exact hresolved e hold
  · exact hnew

theorem Recorded.eq_freshOf (h : Recorded s file text imports cache dependencies cache')
    (htext : s.contentOf entry source file = .ok text)
    (hnone : ¬ Answerable s entry source cache file) : dependencies = freshOf s file imports := by
  cases h with
  | @served k _ hserved =>
    obtain ⟨kept, hkept, hcontent, hoptions, -, -⟩ := Cache.get_eq_some.1 hserved
    exact absurd ⟨k, text, kept, rfl, htext,
      Cache.entryFor_eq_some.2 ⟨hkept, hcontent, hoptions⟩⟩ hnone
  | uncached => rfl
  | kept => rfl
  | missed => rfl

theorem isResolved_of_served {k : Cache} (hk : k.IsResolved)
    (hserved : (askCache s k file text).1 = some dependencies) :
    ∀ d ∈ dependencies, d.target.isFailed = false := by
  obtain ⟨e, he, -, -, -, rfl⟩ := exists_entry_of_askCache hserved
  exact fun d hd => (hk e he d hd).1

/-- Records of which one failed were served by the cache, or it had none and keeps none. -/
theorem served_or_missed_of_failed {k : Cache} (hcache : st.cache = some k)
    (hcacheable : isCacheable imports = true)
    (hfailed : ∃ d ∈ (resolveImports s file text imports st).1, d.target.isFailed = true) :
    (askCache s k file text).1 = some (resolveImports s file text imports st).1 ∨
      (askCache s k file text).1 = none ∧
        (resolveImports s file text imports st).2.cache = some (askCache s k file text).2 := by
  have hask : k.get file (Sha256.ofText text) s.options.fingerprint s.fs.isFile =
      askCache s k file text := rfl
  rw [resolveImports, hcache, Option.filter_some, if_pos hcacheable] at hfailed ⊢
  simp only [hask, resolveFresh_eq] at hfailed ⊢
  generalize askCache s k file text = asked at hfailed ⊢
  obtain ⟨answer, k'⟩ := asked
  cases answer with
  | some served => exact .inl rfl
  | none =>
    dsimp only at hfailed ⊢
    split
    case isTrue hall =>
      rw [if_pos hall] at hfailed
      obtain ⟨d, hd, hfail⟩ := hfailed
      have hresolved := List.all_eq_true.1 hall d hd
      rw [hfail] at hresolved
      cases hresolved
    case isFalse => exact .inr ⟨rfl, by rw [WalkState.cache_takeAll]⟩

/-- After a file with a failed import was resolved the cache cannot answer for it. -/
theorem not_answerable_of_failed (hresolved : ∀ k, st.cache = some k → k.IsResolved)
    (htext : s.contentOf entry source file = .ok text) (hcacheable : isCacheable imports = true)
    (hfailed : ∃ d ∈ (resolveImports s file text imports st).1, d.target.isFailed = true) :
    ¬ Answerable s entry source (resolveImports s file text imports st).2.cache file := by
  rintro ⟨k', other, kept, hcache', hother, hkept⟩
  rw [htext] at hother
  cases hother
  cases hcache : st.cache with
  | none =>
    simp only [resolveImports, hcache, Option.filter_none, resolveFresh_eq, st.cache_takeAll]
      at hcache'
    cases hcache'
  | some k =>
    rcases served_or_missed_of_failed hcache hcacheable hfailed with hserved | ⟨hnone, hmissed⟩
    · obtain ⟨d, hd, hfail⟩ := hfailed
      rw [isResolved_of_served (hresolved k hcache) hserved d hd] at hfail
      cases hfail
    · rw [hmissed] at hcache'
      cases hcache'
      have hgone : (askCache s k file text).2.entryFor file (Sha256.ofText text)
          s.options.fingerprint = none := Cache.entryFor_get_of_none hnone
      rw [hgone] at hkept
      cases hkept

end

/-! ## Walks -/

theorem Stored.mono {index index' : Index} {kept : CacheEntry}
    (h : Stored s entry source index file kept)
    (hsub : ∀ e ∈ index.entries, e ∈ index'.entries) : Stored s entry source index' file kept := by
  obtain ⟨visited, text, nodes, hsame, hmem, hrest⟩ := h.visited
  exact ⟨⟨visited, text, nodes, hsame, hsub _ hmem, hrest⟩, h.options, h.resolved⟩

/-- The records of a file that is entered while a cache goes from one state to another: they are
fresh if the cache could not answer for the file, and if one of them failed it cannot after, unless
some import of the file is a pattern. -/
structure Entered (s : Setting) (entry : Path) (source : Text) (before after : Option Cache)
    (e : Path × List Dependency) : Prop where
  fresh : ¬ Answerable s entry source before e.1 →
    e.2 = freshOf s e.1 (importsIn (s.contentOf entry source e.1))
  forgotten : (∀ k, before = some k → k.IsResolved) →
    isCacheable (importsIn (s.contentOf entry source e.1)) = true →
    (∃ d ∈ e.2, d.target.isFailed = true) → ¬ Answerable s entry source after e.1

/-- What becomes of a state with a cache when files are visited: what is kept changes only for the
files that are entered, and what is new was stored. -/
structure Stores (s : Setting) (entry : Path) (source : Text) (st st' : WalkState) : Prop where
  frame : ∀ p : Path, st'.index.contains p = false ∨ st.index.contains p = true →
    (entriesOf st'.cache).get? p = (entriesOf st.cache).get? p
  kept : ∀ e ∈ st.index.entries, e ∈ st'.index.entries
  stored : ∀ e ∈ (entriesOf st'.cache).entries, e ∈ (entriesOf st.cache).entries ∨
    Stored s entry source st'.index e.1 e.2
  entered : ∀ e ∈ st'.index.entries, e ∈ st.index.entries ∨
    st.index.contains e.1 = false ∧ Entered s entry source st.cache st'.cache e

/-- What is kept after a file was resolved was kept before, or is stored once the file is
entered. -/
theorem Recorded.stored {dependencies : List Dependency} {nodes : List Node} {index : Index}
    {e : Path × CacheEntry}
    (h : Recorded s file text (importsIn (.ok text)) cache dependencies cache')
    (htext : s.contentOf entry source file = .ok text) (hparse : Sheet.parse text = .ok nodes)
    (hentered : (file, dependencies) ∈ index.entries) (he : e ∈ (entriesOf cache').entries) :
    e ∈ (entriesOf cache).entries ∨ Stored s entry source index e.1 e.2 := by
  refine (h.mem_entriesOf he).imp_right ?_
  rintro ⟨hsame, heq, hfresh, hresolved⟩
  have hlists := lists_freshOf s file (importsIn (.ok text))
  have himports : importsIn (.ok text) = Sheet.Visitor.visit nodes := by
    simp [importsIn, hparse, Sheet.Visitor.visit_eq]
  rw [← hfresh, himports] at hlists
  rw [himports] at hfresh
  refine ⟨⟨file, text, nodes, Path.same_symm hsame, ?_, htext, hparse, ?_⟩, ?_, hresolved⟩
  · rw [heq]
    exact hentered
  · rw [heq]
    exact ⟨rfl, hfresh, hlists⟩
  · rw [heq]

/-- A file that is entered after another one was resolved finds what the cache had for it. -/
theorem Entered.of_recorded {imports : List Sheet.Import} {dependencies : List Dependency}
    {after : Option Cache} {e : Path × List Dependency}
    (h : Entered s entry source cache' after e)
    (hrecorded : Recorded s file text imports cache dependencies cache')
    (hother : e.1.same file = false) : Entered s entry source cache after e where
  fresh hnone := h.fresh fun hanswer =>
    hnone (hanswer.of_frame (hrecorded.get?_of_not_same hother))
  forgotten hresolved := h.forgotten (hrecorded.isResolved hresolved)

theorem Stores.isResolved (h : Stores s entry source st st')
    (hresolved : ∀ k, st.cache = some k → k.IsResolved) :
    ∀ k, st'.cache = some k → k.IsResolved := by
  rw [isResolved_iff] at hresolved ⊢
  intro e he
  rcases h.stored e he with hold | hstored
  · exact hresolved e hold
  · exact hstored.resolved

theorem contains_of_mem {index : Index} {e : Path × List Dependency} (he : e ∈ index.entries) :
    index.contains e.1 = true :=
  PathTable.contains_iff.2 ⟨e.1, List.mem_map_of_mem he, Path.same_self _⟩

theorem Stores.contains (h : Stores s entry source st st') {p : Path}
    (hp : st.index.contains p = true) : st'.index.contains p = true := by
  obtain ⟨q, hq, hsame⟩ := PathTable.contains_iff.1 hp
  obtain ⟨e, he, rfl⟩ := List.mem_map.1 hq
  rw [← PathTable.contains_congr hsame]
  exact contains_of_mem (h.kept e he)

theorem Stores.trans {st₁ st₂ : WalkState} (h : Stores s entry source st st₁)
    (h' : Stores s entry source st₁ st₂) : Stores s entry source st st₂ := by
  refine ⟨?frame, fun e he => h'.kept e (h.kept e he), ?stored, ?entered⟩
  case frame =>
    rintro p (hnot | hin)
    · have hbefore : st₁.index.contains p = false := by
        rw [← Bool.not_eq_true]
        intro hp
        rw [h'.contains hp] at hnot
        cases hnot
      exact (h'.frame p (.inl hnot)).trans (h.frame p (.inl hbefore))
    · exact (h'.frame p (.inr (h.contains hin))).trans (h.frame p (.inr hin))
  case stored =>
    intro e he
    rcases h'.stored e he with he | hstored
    · exact (h.stored e he).imp_right fun hstored => hstored.mono h'.kept
    · exact .inr hstored
  case entered =>
    intro e he
    rcases h'.entered e he with he | ⟨hnew, hentered⟩
    · -- What is entered first keeps what the cache has for it.
      refine (h.entered e he).imp_right fun ⟨hnew, hentered⟩ => ⟨hnew, hentered.fresh, ?_⟩
      intro hresolved hcacheable hfailed hanswer
      exact hentered.forgotten hresolved hcacheable hfailed
        (hanswer.of_frame (h'.frame e.1 (.inr (contains_of_mem he))))
    · -- What is entered later finds what the cache had for it.
      have hold : st.index.contains e.1 = false := by
        rw [← Bool.not_eq_true]
        intro hp
        rw [h.contains hp] at hnew
        cases hnew
      refine .inr ⟨hold, fun hnone => hentered.fresh fun hanswer => hnone ?_,
        fun hresolved => hentered.forgotten (h.isResolved hresolved)⟩
      exact hanswer.of_frame (h.frame e.1 (.inl hnew))

theorem Stores.fail (finding : Finding) (hnew : st.index.contains file = false)
    (hnone : importsIn (s.contentOf entry source file) = []) :
    Stores s entry source st (st.fail file finding) := by
  have hentries := PathTable.entries_insert_perm ([] : List Dependency) hnew
  refine ⟨fun _ _ => rfl, fun e he => ?kept, fun e he => .inl he, fun e he => ?entered⟩
  case kept => exact hentries.mem_iff.2 (List.mem_cons_of_mem _ he)
  case entered =>
    rcases List.mem_cons.1 (hentries.mem_iff.1 he) with rfl | he
    · refine .inr ⟨hnew, fun _ => ?_, fun _ _ hfailed => ?_⟩
      · rw [hnone]
        rfl
      · obtain ⟨d, hd, -⟩ := hfailed
        cases hd
    · exact .inl he

/-- The records of a file are found and kept or not, what they lead to is visited, and the file is
entered. -/
theorem Stores.commit {nodes : List Node} {recorded : List Dependency × WalkState}
    {fresh : List Path} {st₁ st₂ : WalkState} (hfile : st.index.contains file = false)
    (htext : s.contentOf entry source file = .ok text) (hparse : Sheet.parse text = .ok nodes)
    (hresolve : resolveImports s file text (importsIn (.ok text)) st = recorded)
    (hclaimed : recorded.2.Claimed (recorded.1.flatMap fun d => d.target.paths) (fresh, st₁))
    (hnew : st₂.index.contains file = false) (h : Stores s entry source st₁ st₂) :
    Stores s entry source st (st₂.commit file recorded.1) := by
  obtain ⟨hrecorded, -, hindex⟩ :=
    recorded_resolveImports s file text (importsIn (.ok text)) st
  have hfailed := @not_answerable_of_failed s entry file source text st (importsIn (.ok text))
  rw [hresolve] at hrecorded hindex hfailed
  have hentries := PathTable.entries_insert_perm recorded.1 hnew
  have hcommit : ∀ e ∈ st₂.index.entries, e ∈ (st₂.commit file recorded.1).index.entries :=
    fun e he => hentries.mem_iff.2 (List.mem_cons_of_mem _ he)
  have hbefore : st₁.index = st.index := hclaimed.index.trans hindex
  obtain ⟨hframe, hkept, hstored, hentered⟩ := h
  rw [hbefore] at hframe hkept hentered
  rw [hclaimed.cache] at hframe hstored hentered
  -- Only what is kept for this file can be touched by its own question.
  have hother : ∀ p : Path, p.same file = false →
      (entriesOf recorded.2.cache).get? p = (entriesOf st.cache).get? p :=
    fun p hp => hrecorded.get?_of_not_same hp
  refine ⟨?frame, fun e he => hcommit e (hkept e he), ?stored, ?entered⟩
  case frame =>
    rintro p (hnot | hin)
    · simp only [WalkState.commit, PathTable.contains_insert, Bool.or_eq_false_iff] at hnot
      rw [Path.same_comm] at hnot
      exact (hframe p (.inl hnot.2)).trans (hother p hnot.1)
    · refine (hframe p (.inr hin)).trans (hother p ?_)
      rw [← Bool.not_eq_true]
      intro hsame
      rw [PathTable.contains_congr hsame, hfile] at hin
      cases hin
  case stored =>
    intro e he
    rcases hstored e he with he | hstored
    · exact hrecorded.stored htext hparse (hentries.mem_iff.2 List.mem_cons_self) he
    · exact .inr (hstored.mono hcommit)
  case entered =>
    intro e he
    rcases List.mem_cons.1 (hentries.mem_iff.1 he) with rfl | he
    · refine .inr ⟨hfile, ?_, ?_⟩
      · rw [htext]
        exact hrecorded.eq_freshOf htext
      · rw [htext]
        intro hresolved hcacheable hfail hanswer
        -- The visits below have not touched what is kept for the file either.
        exact hfailed hresolved htext hcacheable hfail
          (hanswer.of_frame (hframe file (.inl hnew)))
    · refine (hentered e he).imp_right ?_
      rintro ⟨hold, hlater⟩
      refine ⟨hold, hlater.of_recorded hrecorded ?_⟩
      rw [← Bool.not_eq_true]
      intro hsame
      rw [← PathTable.contains_congr hsame, contains_of_mem he] at hnew
      cases hnew

/-- The moves of a walk store the records of the files that they enter. -/
theorem moves_store (s : Setting) (entry : Path) (source : Text) :
    Moves s entry source fun _ => Stores s entry source where
  nil _ := ⟨fun _ _ => rfl, fun _ he => he, fun _ he => .inl he, fun _ he => .inl he⟩
  append _ _ _ _ _ _ _ h h' := h.trans h'
  unread _ file e hawaits hread := by
    apply Stores.fail _ (hawaits.fresh file List.mem_cons_self)
    rw [hread]
    rfl
  unparsed _ file text e hawaits htext hparse := by
    apply Stores.fail _ (hawaits.fresh file List.mem_cons_self)
    simp [htext, importsIn, hparse]
  commit _ file _ _ _ _ _ _ hawaits htext hparse hresolve hclaimed hnew hbelow :=
    .commit (hawaits.fresh file List.mem_cons_self) htext hparse hresolve hclaimed hnew hbelow

theorem exists_cache_of_fromSource {w : Walk} {k : Cache}
    (h : fromSource s budget (some k) entry source = some (w, cache')) :
    ∃ k', cache' = some k' := by
  have hmoves : Moves s (s.fs.cwd.absoluteFrom entry) source fun _ st st' =>
      (∃ k, st.cache = some k) → ∃ k', st'.cache = some k' := by
    refine ⟨fun _ h => h, fun _ _ _ _ _ _ _ h h' hcache => h' (h hcache), fun _ _ _ _ _ h => h,
      fun _ _ _ _ _ _ _ h => h, ?_⟩
    intro st file text _ recorded _ st₁ _ _ _ _ hresolve hclaimed _ hbelow ⟨k, hk⟩
    obtain ⟨hrecorded, -⟩ := frame_resolveImports s file text (importsIn (.ok text)) st
    rw [hresolve, hk] at hrecorded
    apply hbelow
    rw [hclaimed.cache]
    exact hrecorded.exists_cache
  obtain ⟨st, hst, -, rfl⟩ := hmoves.of_fromSource h
  exact hst ⟨k, rfl⟩

/-- A walk leaves in its cache what was kept before and what it has stored. A file that the cache
cannot answer for is resolved afresh, and it cannot answer for a file with a failed import. -/
theorem stored_of_fromSource {w : Walk}
    (h : fromSource s budget cache entry source = some (w, cache')) :
    (∀ e ∈ (entriesOf cache').entries, e ∈ (entriesOf cache).entries ∨
      Stored s (s.fs.cwd.absoluteFrom entry) source w.index e.1 e.2) ∧
    ∀ e ∈ w.index.entries, Entered s (s.fs.cwd.absoluteFrom entry) source cache cache' e := by
  obtain ⟨st, hstores, rfl, rfl⟩ := (moves_store s _ source).of_fromSource h
  exact ⟨hstores.stored, fun e he =>
    ((hstores.entered e he).resolve_left List.not_mem_nil).2⟩

/-- A file with a failed import has the records that its imports come to, if the cache keeps
none. -/
theorem freshOf_of_failed {w : Walk} (hresolved : ∀ k, cache = some k → k.IsResolved)
    (h : fromSource s budget cache entry source = some (w, cache')) :
    ∀ e ∈ w.index.entries, (∃ d ∈ e.2, d.target.isFailed = true) →
      e.2 = freshOf s e.1 (importsIn (s.contentOf (s.fs.cwd.absoluteFrom entry) source e.1)) := by
  have hkeeps : Keeps s (s.fs.cwd.absoluteFrom entry) source Cache.IsResolved
      fun file content dependencies => (∃ d ∈ dependencies, d.target.isFailed = true) →
        dependencies = freshOf s file (importsIn content) := by
    refine ⟨fun file content hnone _ => by rw [hnone]; rfl, ?_⟩
    intro file text cache dependencies cache' _ hrecorded hcache
    refine ⟨?_, hrecorded.isResolved hcache⟩
    rintro ⟨d, hd, hfail⟩
    cases hrecorded with
    | served hserved =>
      rw [isResolved_of_served (hcache _ rfl) hserved d hd] at hfail
      cases hfail
    | uncached => rfl
    | kept => rfl
    | missed => rfl
  exact (records_of_fromSource hkeeps hresolved h).1

end Walk

end StyleImports
