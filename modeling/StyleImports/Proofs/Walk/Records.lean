import StyleImports.Proofs.Cache.Log
import StyleImports.Proofs.Graph.Origins
import StyleImports.Proofs.Sheet.Positions
import StyleImports.Proofs.Walk.Visits

/-!
# Records of imports

The records of a file list its imports one by one, with their positions and specifiers
(`Dependency.Lists`). A walk enters such records only, without a cache and with one that is faithful
(`Cache.IsFaithful`), and leaves a faithful cache faithful (`lists_of_fromSource`); so it does with
whatever else a cache keeps up (`records_of_fromSource`). Each import then has its own record under
its position and specifier (`Index.lookup_of_lists`).
-/

set_option autoImplicit false

namespace StyleImports

open Setting (importsIn)

/-! ## Lists of records -/

/-- Records that stand for some imports one by one. -/
def Dependency.Lists (imports : List Sheet.Import) (dependencies : List Dependency) : Prop :=
  dependencies.map (fun d => (d.position, d.specifier)) =
    imports.map fun i => (i.position, i.specifier)

theorem Setting.place_resolve (s : Setting) (file : Path) (i : Sheet.Import) :
    (s.resolve file i).dependency.position = i.position ∧
      (s.resolve file i).dependency.specifier = i.specifier := by
  rw [resolve]
  split <;> exact ⟨rfl, rfl⟩

theorem Walk.lists_freshOf (s : Setting) (file : Path) (imports : List Sheet.Import) :
    Dependency.Lists imports (freshOf s file imports) := by
  simp only [Dependency.Lists, freshOf, List.map_map]
  refine List.map_congr_left fun i _ => ?_
  simp [s.place_resolve file i]

theorem Setting.nodup_positions (content : Except FileError Text) :
    ((importsIn content).map Sheet.Import.position).Nodup := by
  cases content with
  | error e => exact .nil
  | ok text =>
    simp only [importsIn]
    cases hparse : Sheet.parse text with
    | error e => exact .nil
    | ok nodes =>
      refine List.pairwise_map.2 ((Sheet.importsOf_ascending hparse).imp fun hless heq => ?_)
      rw [heq] at hless
      exact Nat.lt_irrefl _ hless

/-- Every import of a text has its own record under its position and specifier. -/
theorem Index.lookup_of_lists {index : Index} {file : Path} {content : Except FileError Text}
    {dependencies : List Dependency} (hget : index.get? file = some dependencies)
    (hlists : Dependency.Lists (importsIn content) dependencies) {k : Nat} {i : Sheet.Import}
    (hi : (importsIn content)[k]? = some i) :
    ∃ d, dependencies[k]? = some d ∧ index.lookup file i.position i.specifier = some d := by
  have hplace : (dependencies[k]?).map (fun d => (d.position, d.specifier)) =
      some (i.position, i.specifier) := by
    rw [← List.getElem?_map, hlists, List.getElem?_map, hi]
    rfl
  obtain ⟨d, hd, heq⟩ := Option.map_eq_some_iff.1 hplace
  simp only [Prod.mk.injEq] at heq
  refine ⟨d, hd, ?_⟩
  have hmem := List.mem_of_getElem? hd
  have hnodup : (dependencies.map Dependency.position).Nodup := by
    have hpositions := congrArg (List.map Prod.fst) hlists
    simp only [List.map_map, Function.comp_def] at hpositions
    rw [hpositions]
    exact Setting.nodup_positions content
  simp only [lookup, hget]
  cases hfind : dependencies.find? fun d =>
      d.position = i.position && d.specifier = i.specifier with
  | none =>
    have hnone := List.find?_eq_none.1 hfind d hmem
    simp [heq] at hnone
  | some found =>
    have hfound := List.find?_some hfind
    simp only [Bool.and_eq_true, decide_eq_true_eq] at hfound
    have hsame : found = d := List.inj_on_of_nodup_map hnodup
      (List.mem_of_find?_eq_some hfind) hmem (hfound.1.trans heq.1.symm)
    rw [hsame]

/-! ## Caches -/

namespace Setting

/-- A text that a walk may visit: its source, or the text of a file. -/
def Reads (s : Setting) (source text : Text) : Prop :=
  text = source ∨ ∃ p, s.fs.readText p = .ok text

theorem reads_of_contentOf {s : Setting} {entry file : Path} {source text : Text}
    (h : s.contentOf entry source file = .ok text) : s.Reads source text := by
  rw [contentOf] at h
  split at h
  · cases h
    exact .inl rfl
  · exact .inr ⟨file, h⟩

end Setting

/-- What a cache keeps for a text that a walk may visit lists the imports of the text, and texts
with different imports have different digests. -/
structure Cache.IsFaithful (s : Setting) (source : Text) (cache : Cache) : Prop where
  lists : ∀ e ∈ cache.entries.entries, ∀ text, s.Reads source text →
    e.2.content = Sha256.ofText text → Dependency.Lists (importsIn (.ok text)) e.2.dependencies
  apart : ∀ a b, s.Reads source a → s.Reads source b → Sha256.ofText a = Sha256.ofText b →
    importsIn (.ok a) = importsIn (.ok b)

namespace Walk

variable {s : Setting} {entry file : Path} {source text : Text} {budget : Nat}
  {st st' : WalkState}

theorem entries_askCache (s : Setting) (cache : Cache) (file : Path) (text : Text) :
    ∀ e ∈ (askCache s cache file text).2.entries.entries, e ∈ cache.entries.entries :=
  fun _ he => Cache.mem_entries_get he

/-- What a cache serves is an entry for the file, for the digest of the text, and all that it leads
to is there. -/
theorem exists_entry_of_askCache {cache : Cache} {dependencies : List Dependency}
    (h : (askCache s cache file text).1 = some dependencies) :
    ∃ e ∈ cache.entries.entries, e.1.same file = true ∧ e.2.content = Sha256.ofText text ∧
      (∀ d ∈ e.2.dependencies, ∀ p ∈ d.target.paths, s.fs.isFile p = true) ∧
      dependencies = e.2.dependencies := by
  obtain ⟨kept, hkept, hcontent, -, hlive, rfl⟩ := Cache.get_eq_some.1 h
  obtain ⟨key, hentry, hsame⟩ := PathTable.exists_of_get? hkept
  exact ⟨(key, kept), hentry, hsame, hcontent, hlive, rfl⟩

theorem lists_askCache {cache : Cache} (hcache : cache.IsFaithful s source)
    (hreads : s.Reads source text) {dependencies : List Dependency}
    (h : (askCache s cache file text).1 = some dependencies) :
    Dependency.Lists (importsIn (.ok text)) dependencies := by
  obtain ⟨e, he, _, hdigest, _, rfl⟩ := exists_entry_of_askCache h
  exact hcache.lists e he text hreads hdigest

/-- The records of a file list its imports, and a faithful cache stays so. -/
theorem lists_of_recorded (hreads : s.Reads source text) {cache cache' : Option Cache}
    {dependencies : List Dependency}
    (h : Recorded s file text (importsIn (.ok text)) cache dependencies cache')
    (hcache : ∀ k, cache = some k → k.IsFaithful s source) :
    Dependency.Lists (importsIn (.ok text)) dependencies ∧
      ∀ k, cache' = some k → k.IsFaithful s source := by
  have hasked : ∀ k, cache = some k → (askCache s k file text).2.IsFaithful s source :=
    fun k hk => ⟨fun e he => (hcache k hk).lists e (entries_askCache s k file text e he),
      (hcache k hk).apart⟩
  have hfresh := lists_freshOf s file (importsIn (.ok text))
  cases h with
  | uncached => exact ⟨hfresh, hcache⟩
  | served hserved =>
    refine ⟨lists_askCache (hcache _ rfl) hreads hserved, ?_⟩
    rintro k ⟨⟩
    exact hasked _ rfl
  | kept =>
    refine ⟨hfresh, ?_⟩
    rintro k ⟨⟩
    refine ⟨fun e he other hother hdigest => ?_, (hasked _ rfl).apart⟩
    rcases PathTable.mem_entries_insert he with ⟨_, hnew⟩ | hold
    · rw [hnew] at hdigest ⊢
      rw [← (hasked _ rfl).apart text other hreads hother hdigest]
      exact hfresh
    · exact (hasked _ rfl).lists e hold other hother hdigest
  | missed =>
    refine ⟨hfresh, ?_⟩
    rintro k ⟨⟩
    exact hasked _ rfl

/-! ## Walks -/

section
variable {Q : Cache → Prop} {R : Path → Except FileError Text → List Dependency → Prop}

/-- Whatever a cache of a certain kind has a part in, the records of a file are of a certain kind,
and the cache stays of its kind. -/
structure Keeps (s : Setting) (entry : Path) (source : Text) (Q : Cache → Prop)
    (R : Path → Except FileError Text → List Dependency → Prop) : Prop where
  none : ∀ file content, importsIn content = [] → R file content []
  recorded : ∀ file text cache dependencies cache', s.contentOf entry source file = .ok text →
    Recorded s file text (importsIn (.ok text)) cache dependencies cache' →
    (∀ k, cache = some k → Q k) → R file (.ok text) dependencies ∧ ∀ k, cache' = some k → Q k

/-- What becomes of a state with such a cache: the cache stays of its kind, and so are new
records. -/
structure Records (s : Setting) (entry : Path) (source : Text) (Q : Cache → Prop)
    (R : Path → Except FileError Text → List Dependency → Prop) (st st' : WalkState) : Prop where
  cache : ∀ k, st'.cache = some k → Q k
  entered : ∀ e ∈ st'.index.entries, e ∈ st.index.entries ∨
    R e.1 (s.contentOf entry source e.1) e.2

theorem Records.trans {st₁ st₂ : WalkState} (h : Records s entry source Q R st st₁)
    (h' : Records s entry source Q R st₁ st₂) : Records s entry source Q R st st₂ where
  cache := h'.cache
  entered e he := (h'.entered e he).elim (h.entered e) .inr

theorem Records.commit {dependencies : List Dependency} (hnew : st.index.contains file = false)
    (hrecords : R file (s.contentOf entry source file) dependencies)
    (hcache : ∀ k, st.cache = some k → Q k) :
    Records s entry source Q R st (st.commit file dependencies) where
  cache := hcache
  entered e he := by
    rcases List.mem_cons.1 ((PathTable.entries_insert_perm dependencies hnew).mem_iff.1 he) with
      rfl | he
    · exact .inr hrecords
    · exact .inl he

theorem Records.fail (hkeeps : Keeps s entry source Q R) (finding : Finding)
    (hnew : st.index.contains file = false)
    (hnone : importsIn (s.contentOf entry source file) = [])
    (hcache : ∀ k, st.cache = some k → Q k) :
    Records s entry source Q R st (st.fail file finding) :=
  have h : Records s entry source Q R (st.report file finding)
      ((st.report file finding).commit file []) :=
    commit hnew (hkeeps.none file _ hnone) hcache
  ⟨h.cache, h.entered⟩

theorem Keeps.moves (hkeeps : Keeps s entry source Q R) : Moves s entry source fun _ st st' =>
    (∀ k, st.cache = some k → Q k) → Records s entry source Q R st st' where
  nil st hcache := ⟨hcache, fun _ he => .inl he⟩
  append files more st st₁ st₂ _ _ h h' hcache := (h hcache).trans (h' (h hcache).cache)
  unread st file e hawaits hread hcache := by
    have hnone : importsIn (s.contentOf entry source file) = [] := by
      rw [hread]
      rfl
    exact .fail hkeeps _ (hawaits.fresh file List.mem_cons_self) hnone hcache
  unparsed st file text e hawaits htext hparse hcache := by
    have hnone : importsIn (s.contentOf entry source file) = [] := by
      simp [htext, importsIn, hparse]
    exact .fail hkeeps _ (hawaits.fresh file List.mem_cons_self) hnone hcache
  commit st file text nodes recorded fresh st₁ st₂ hawaits htext _ hresolve hclaimed hnew hbelow
      hcache := by
    obtain ⟨hrecorded, -, hindex⟩ :=
      recorded_resolveImports s file text (importsIn (.ok text)) st
    rw [hresolve] at hrecorded hindex
    obtain ⟨hrecords, hkept⟩ := hkeeps.recorded file text _ _ _ htext hrecorded hcache
    have hvisited : Records s entry source Q R st₁ st₂ := by
      refine hbelow ?_
      rw [hclaimed.cache]
      exact hkept
    have hcommit : Records s entry source Q R st₂ (st₂.commit file recorded.1) :=
      .commit hnew (htext ▸ hrecords) hvisited.cache
    obtain ⟨hcache', hentered⟩ := hvisited.trans hcommit
    rw [hclaimed.index, hindex] at hentered
    exact ⟨hcache', hentered⟩

/-- A walk enters records of the kind that is kept, and leaves the cache of its kind. -/
theorem records_of_fromSource {cache cache' : Option Cache} {w : Walk}
    (hkeeps : Keeps s (s.fs.cwd.absoluteFrom entry) source Q R)
    (hcache : ∀ k, cache = some k → Q k)
    (h : fromSource s budget cache entry source = some (w, cache')) :
    (∀ e ∈ w.index.entries,
      R e.1 (s.contentOf (s.fs.cwd.absoluteFrom entry) source e.1) e.2) ∧
    ∀ k, cache' = some k → Q k := by
  obtain ⟨st, hmoves, rfl, rfl⟩ := hkeeps.moves.of_fromSource h
  have hrecords := hmoves hcache
  exact ⟨fun e he => (hrecords.entered e he).resolve_left List.not_mem_nil, hrecords.cache⟩

end

/-- Without a cache, the records of every file of a graph are what its imports come to. -/
theorem freshOf_of_fromSource {cache : Option Cache} {w : Walk}
    (h : fromSource s budget none entry source = some (w, cache)) :
    ∀ e ∈ w.index.entries,
      e.2 = freshOf s e.1 (importsIn (s.contentOf (s.fs.cwd.absoluteFrom entry) source e.1)) := by
  have hkeeps : Keeps s (s.fs.cwd.absoluteFrom entry) source (fun _ => False)
      fun file content dependencies => dependencies = freshOf s file (importsIn content) := by
    refine ⟨fun _ _ hnone => by rw [hnone]; rfl, ?_⟩
    intro file text cache dependencies cache' _ hrecorded hcache
    cases cache with
    | none =>
      cases hrecorded
      exact ⟨rfl, hcache⟩
    | some k => exact (hcache k rfl).elim
  exact (records_of_fromSource hkeeps (fun k hk => by cases hk) h).1

/-- A file with a dynamic import has the records that its imports come to, whatever a cache
keeps. -/
theorem freshOf_of_dynamic {cache cache' : Option Cache} {w : Walk}
    (h : fromSource s budget cache entry source = some (w, cache')) :
    ∀ e ∈ w.index.entries,
      isCacheable (importsIn (s.contentOf (s.fs.cwd.absoluteFrom entry) source e.1)) = false →
      e.2 = freshOf s e.1 (importsIn (s.contentOf (s.fs.cwd.absoluteFrom entry) source e.1)) := by
  have hkeeps : Keeps s (s.fs.cwd.absoluteFrom entry) source (fun _ => True)
      fun file content dependencies => isCacheable (importsIn content) = false →
        dependencies = freshOf s file (importsIn content) := by
    refine ⟨fun file content hnone _ => by rw [hnone]; rfl, ?_⟩
    intro file text cache dependencies cache' _ hrecorded _
    refine ⟨fun hdynamic => ?_, fun _ _ => trivial⟩
    cases hrecorded with
    | served _ hcacheable =>
      rw [hcacheable] at hdynamic
      cases hdynamic
    | uncached => rfl
    | kept => rfl
    | missed => rfl
  exact (records_of_fromSource hkeeps (fun _ _ => trivial) h).1

/-- The records of every file of a graph list the imports of the file, one by one, and a faithful
cache is left faithful. -/
theorem lists_of_fromSource {cache cache' : Option Cache} {w : Walk}
    (hcache : ∀ k, cache = some k → k.IsFaithful s source)
    (h : fromSource s budget cache entry source = some (w, cache')) :
    (∀ e ∈ w.index.entries, Dependency.Lists
      (importsIn (s.contentOf (s.fs.cwd.absoluteFrom entry) source e.1)) e.2) ∧
    ∀ k, cache' = some k → k.IsFaithful s source := by
  have hkeeps : Keeps s (s.fs.cwd.absoluteFrom entry) source (fun k => k.IsFaithful s source)
      fun _ content => Dependency.Lists (importsIn content) :=
    ⟨fun _ _ hnone => by rw [hnone]; rfl, fun _ _ _ _ _ htext =>
      lists_of_recorded (Setting.reads_of_contentOf htext)⟩
  exact records_of_fromSource hkeeps hcache h

end Walk

end StyleImports
