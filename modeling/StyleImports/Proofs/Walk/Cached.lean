import StyleImports.Proofs.Graph.Origins
import StyleImports.Proofs.Walk.Sequential

/-!
# Walks with any cache

What a cache has a part in is which records a file gets (`Recorded`) and nothing else: the notes are
the same, as no note is made of imports that a cache may serve (`frame_resolveImports`).

A visit that ends goes from a file to the files that it claims and on to theirs. What holds of each
of these moves holds of every visit (`visit_induction`), whatever a cache serves.

So a walk visits every file that it claims, and it claims every path that a record of its graph
leads to: the graph of a walk is closed, its records lead to its own files (`contains_of_lookup`).
-/

set_option autoImplicit false

namespace StyleImports

namespace WalkState

/-- The state with another cache. -/
def withCache (st : WalkState) (cache : Option Cache) : WalkState := { st with cache := cache }

theorem takeAll_withCache (st : WalkState) (cache : Option Cache) (file : Path)
    (notes : List Note) :
    (st.withCache cache).takeAll file notes = (st.takeAll file notes).withCache cache := by
  induction notes generalizing st with
  | nil => rfl
  | cons n notes ih =>
    have hstep := ih (st.take file n)
    cases n <;> exact hstep

theorem takeAll_frame (st : WalkState) (file : Path) (notes : List Note) :
    (st.takeAll file notes).seen = st.seen ∧ (st.takeAll file notes).index = st.index := by
  induction notes generalizing st with
  | nil => exact ⟨rfl, rfl⟩
  | cons n notes ih =>
    obtain ⟨hseen, hindex⟩ := ih (st.take file n)
    cases n <;> exact ⟨hseen, hindex⟩

end WalkState

namespace Walk

variable {s : Setting} {file : Path} {text : Text} {budget : Nat} {st st' : WalkState}

/-! ## Imports of a file -/

/-- Where the imports of a file lead when no cache is asked. -/
def freshOf (s : Setting) (file : Path) (imports : List Sheet.Import) : List Dependency :=
  imports.map fun i => (s.resolve file i).dependency

/-- The notes about the imports of a file. -/
def notesOf (s : Setting) (file : Path) (imports : List Sheet.Import) : List Note :=
  (imports.map (s.resolve file)).flatMap Resolution.notes

theorem notesOf_cacheable {imports : List Sheet.Import} (h : isCacheable imports = true) :
    notesOf s file imports = [] := by
  rw [notesOf, List.flatMap_eq_nil_iff]
  intro r hr
  obtain ⟨i, hi, rfl⟩ := List.mem_map.1 hr
  have hstatic : Glob.isDynamic i.specifier = false := by simpa using List.all_eq_true.1 h i hi
  rw [Setting.resolve_of_static hstatic]
  rfl

/-- The answer of a cache for a file with the given source, and the cache after the question. -/
def askCache (s : Setting) (cache : Cache) (file : Path) (source : Text) :
    Option (List Dependency) × Cache :=
  cache.get file (Sha256.ofText source) s.options.fingerprint s.fs.isFile

/-- The records of a file, and the cache after they are found: without the cache, served by it, or
resolved because it has none, and then kept or not. Only static imports have to do with the cache,
and it keeps no import that failed. -/
inductive Recorded (s : Setting) (file : Path) (source : Text) (imports : List Sheet.Import) :
    Option Cache → List Dependency → Option Cache → Prop where
  | uncached (cache : Option Cache) :
      Recorded s file source imports cache (freshOf s file imports) cache
  | served {cache : Cache} {dependencies : List Dependency} :
      (askCache s cache file source).1 = some dependencies → isCacheable imports = true →
      Recorded s file source imports (some cache) dependencies
        (some (askCache s cache file source).2)
  | kept (cache : Cache) : isCacheable imports = true →
      (∀ d ∈ freshOf s file imports, d.target.isFailed = false) →
      Recorded s file source imports (some cache) (freshOf s file imports)
        (some ((askCache s cache file source).2.insert file
          ⟨Sha256.ofText source, s.options.fingerprint, freshOf s file imports⟩))
  | missed (cache : Cache) :
      Recorded s file source imports (some cache) (freshOf s file imports)
        (some (askCache s cache file source).2)

theorem Recorded.exists_cache {source : Text} {imports : List Sheet.Import} {cache : Cache}
    {dependencies : List Dependency} {cache' : Option Cache}
    (h : Recorded s file source imports (some cache) dependencies cache') :
    ∃ k, cache' = some k := by
  cases h <;> exact ⟨_, rfl⟩

theorem resolveFresh_eq (s : Setting) (file : Path) (imports : List Sheet.Import)
    (st : WalkState) :
    resolveFresh s file imports st =
      (freshOf s file imports, st.takeAll file (notesOf s file imports)) := by
  rw [resolveFresh, WalkState.takeAll_flatMap, List.map_map]
  rfl

/-- Resolving the imports of a file finds its records and makes its notes. -/
theorem frame_resolveImports (s : Setting) (file : Path) (source : Text)
    (imports : List Sheet.Import) (st : WalkState) :
    Recorded s file source imports st.cache (resolveImports s file source imports st).1
        (resolveImports s file source imports st).2.cache ∧
      (resolveImports s file source imports st).2 =
        (st.takeAll file (notesOf s file imports)).withCache
          (resolveImports s file source imports st).2.cache := by
  rw [resolveImports]
  cases hcache : st.cache.filter fun _ => isCacheable imports with
  | none =>
    simp only [resolveFresh_eq]
    refine ⟨?_, rfl⟩
    rw [st.cache_takeAll]
    exact .uncached st.cache
  | some cache =>
    obtain ⟨hsome, hcacheable⟩ := Option.filter_eq_some_iff.1 hcache
    have hserved := @Recorded.served s file source imports cache
    have hkept := @Recorded.kept s file source imports cache
    have hmissed := @Recorded.missed s file source imports cache
    have hask : cache.get file (Sha256.ofText source) s.options.fingerprint s.fs.isFile =
        askCache s cache file source := rfl
    -- No notes are made of static imports.
    rw [hsome]
    simp only [hask, resolveFresh_eq, notesOf_cacheable hcacheable]
    generalize askCache s cache file source = asked at hserved hkept hmissed
    obtain ⟨answer, cache'⟩ := asked
    cases answer with
    | some dependencies => exact ⟨hserved rfl hcacheable, rfl⟩
    | none =>
      dsimp only
      split
      case isTrue hfound =>
        exact ⟨hkept hcacheable fun d hd => by simpa using List.all_eq_true.1 hfound d hd, rfl⟩
      case isFalse => exact ⟨hmissed, rfl⟩

/-- Resolving the imports of a file claims and enters nothing. -/
theorem recorded_resolveImports (s : Setting) (file : Path) (source : Text)
    (imports : List Sheet.Import) (st : WalkState) :
    Recorded s file source imports st.cache (resolveImports s file source imports st).1
        (resolveImports s file source imports st).2.cache ∧
      (resolveImports s file source imports st).2.seen = st.seen ∧
      (resolveImports s file source imports st).2.index = st.index := by
  obtain ⟨hrecorded, hframe⟩ := frame_resolveImports s file source imports st
  refine ⟨hrecorded, ?_⟩
  rw [hframe]
  exact st.takeAll_frame file (notesOf s file imports)

/-- A visit of a file that can be parsed finds its records, claims what they lead to, visits that
and commits. -/
theorem visit_of_parse {nodes : List Node} (hparse : Sheet.parse text = .ok nodes) (budget : Nat)
    (st : WalkState) :
    visit s (budget + 1) file text st =
      let recorded := resolveImports s file text (Sheet.importsOf nodes) st
      let claimed := recorded.2.claim (recorded.1.flatMap fun d => d.target.paths)
      (claimed.1.foldlM (visitRead s budget) claimed.2).map fun st =>
        st.commit file recorded.1 := by
  simp only [visit, hparse]
  rfl

/-! ## Visits by their moves -/

/-- What holds of a file that cannot be read, of visited files, and of files one after another,
holds of files that are visited in turn. -/
theorem children_induction {P : List Path → WalkState → WalkState → Prop} (nil : ∀ st, P [] st st)
    (append : ∀ files more st st₁ st₂, P files st st₁ → P more st₁ st₂ →
      P (files ++ more) st st₂)
    (unread : ∀ st file e, s.fs.readText file = .error e → P [file] st (st.fail file (.unread e)))
    (visited : ∀ st st' file text, s.fs.readText file = .ok text →
      visit s budget file text st = some st' → P [file] st st') {children : List Path}
    (h : children.foldlM (visitRead s budget) st = some st') : P children st st' := by
  induction children generalizing st with
  | nil =>
    cases h
    exact nil _
  | cons child children ih =>
    rw [List.foldlM_cons] at h
    obtain ⟨st₁, hchild, hrest⟩ := Option.bind_eq_some_iff.1 h
    refine append [child] children st st₁ st' ?_ (ih hrest)
    rw [visitRead] at hchild
    cases hcontent : s.fs.readText child with
    | error e =>
      rw [hcontent] at hchild
      cases hchild
      exact unread st child e hcontent
    | ok text =>
      rw [hcontent] at hchild
      exact visited st st₁ child text hcontent hchild

/-- What holds of a file that cannot be read or parsed, of a file whose records are found, claimed,
followed and committed, and of files one after another, holds of every visit. `T` tells the texts
that the files may be visited with. -/
theorem visit_induction {P : List Path → WalkState → WalkState → Prop} {T : Path → Text → Prop}
    (hread : ∀ file text, s.fs.readText file = .ok text → T file text)
    (nil : ∀ st, P [] st st)
    (append : ∀ files more st st₁ st₂, P files st st₁ → P more st₁ st₂ →
      P (files ++ more) st st₂)
    (unread : ∀ st file e, s.fs.readText file = .error e → P [file] st (st.fail file (.unread e)))
    (unparsed : ∀ st file text e, T file text → Sheet.parse text = .error e →
      P [file] st (st.fail file (.unparsed e)))
    (commit : ∀ st file text nodes recorded claimed st₂, T file text →
      Sheet.parse text = .ok nodes →
      recorded = resolveImports s file text (Sheet.importsOf nodes) st →
      claimed = recorded.2.claim (recorded.1.flatMap fun d => d.target.paths) →
      P claimed.1 claimed.2 st₂ → P [file] st (st₂.commit file recorded.1))
    (htext : T file text) (h : visit s budget file text st = some st') : P [file] st st' := by
  induction budget generalizing file text st st' with
  | zero => cases h
  | succ budget ih =>
    cases hparse : Sheet.parse text with
    | error e =>
      simp only [visit, hparse, Option.some.injEq] at h
      rw [← h]
      exact unparsed st file text e htext hparse
    | ok nodes =>
      rw [visit_of_parse hparse] at h
      obtain ⟨visited, hvisited, rfl⟩ := Option.map_eq_some_iff.1 h
      refine commit st file text nodes _ _ visited htext hparse rfl rfl ?_
      exact children_induction nil append unread
        (fun st st' file text hcontent hvisit => ih (hread file text hcontent) hvisit) hvisited

/-! ## Growth -/

/-- What becomes of a state when files are visited: claimed files stay claimed, what is entered is
the visited files and those that are claimed anew, and new records lead to claimed files. -/
structure Grows (files : List Path) (st st' : WalkState) : Prop where
  seen : ∀ p : Path, p.isAmong st.seen = true → p.isAmong st'.seen = true
  entered : ∀ p : Path, st'.index.contains p = true ↔
    st.index.contains p = true ∨ p.isAmong files = true ∨
      p.isAmong st.seen = false ∧ p.isAmong st'.seen = true
  leads : ∀ p dependencies, st'.index.get? p = some dependencies →
    st.index.get? p = some dependencies ∨
      ∀ d ∈ dependencies, ∀ t ∈ d.target.paths, t.isAmong st'.seen = true

theorem Grows.nil (st : WalkState) : Grows [] st st where
  seen _ h := h
  entered p := by cases h : p.isAmong st.seen <;> simp [Path.isAmong]
  leads _ _ h := .inl h

theorem Grows.append {files more : List Path} {st₁ st₂ : WalkState} (h : Grows files st st₁)
    (h' : Grows more st₁ st₂) : Grows (files ++ more) st st₂ where
  seen p hp := h'.seen p (h.seen p hp)
  entered p := by
    have hseen := h.seen p
    have hseen' := h'.seen p
    rw [h'.entered p, h.entered p, Path.isAmong_append, Bool.or_eq_true]
    simp only [← Bool.not_eq_true]
    tauto
  leads p dependencies hget := by
    rcases h'.leads p dependencies hget with hget | hleads
    · exact (h.leads p dependencies hget).imp_right
        fun hleads d hd t ht => h'.seen t (hleads d hd t ht)
    · exact .inr hleads

theorem contains_commit (st : WalkState) (file : Path) (dependencies : List Dependency) (p : Path) :
    (st.commit file dependencies).index.contains p = true ↔
      p.isAmong [file] = true ∨ st.index.contains p = true := by
  rw [WalkState.commit, PathTable.contains_insert, Bool.or_eq_true]
  simp [Path.isAmong]

theorem Grows.fail (st : WalkState) (file : Path) (finding : Finding) :
    Grows [file] st (st.fail file finding) where
  seen _ h := h
  entered p := by
    have hseen : (st.fail file finding).seen = st.seen := rfl
    rw [hseen, WalkState.fail, contains_commit, ← Bool.not_eq_true]
    simp only [WalkState.report]
    tauto
  leads p others hget := by
    rw [WalkState.fail, WalkState.commit, PathTable.get?_insert] at hget
    split at hget
    · cases hget
      exact .inr nofun
    · exact .inl hget

/-- A file is visited: its targets are claimed and visited, and it is entered with its records. -/
theorem Grows.commit {file : Path} {dependencies : List Dependency} {fresh : List Path}
    {st₁ st₂ : WalkState}
    (hclaimed : st.Claimed (dependencies.flatMap fun d => d.target.paths) (fresh, st₁))
    (h : Grows fresh st₁ st₂) : Grows [file] st (st₂.commit file dependencies) := by
  have hseen : ∀ p : Path, p.isAmong st₁.seen = true ↔
      p.isAmong fresh = true ∨ p.isAmong st.seen = true := fun p => by
    rw [hclaimed.seen, Path.isAmong_append, Bool.or_eq_true]
    simp [Path.isAmong]
  have hfresh : ∀ p : Path, p.isAmong fresh = true → p.isAmong st.seen = false := by
    intro p hp
    obtain ⟨q, hq, hsame⟩ := Path.isAmong_iff.1 hp
    rw [← Path.isAmong_congr hsame]
    exact (hclaimed.fresh q hq).2
  refine ⟨?seen, ?entered, ?leads⟩
  case seen => exact fun p hp => h.seen p ((hseen p).2 (.inr hp))
  case entered =>
    intro p
    have hmore := h.seen p
    have hnew := hfresh p
    have hbefore := hseen p
    have hsame : (st₂.commit file dependencies).seen = st₂.seen := rfl
    -- A file is claimed anew for this one, or while what was claimed for it is visited.
    rw [contains_commit, h.entered p, hclaimed.index, hsame]
    simp only [← Bool.not_eq_true] at hnew ⊢
    tauto
  case leads =>
    intro p others hget
    rw [WalkState.commit, PathTable.get?_insert] at hget
    split at hget
    · cases hget
      exact .inr fun d hd t ht =>
        h.seen t (hclaimed.covered t (List.mem_flatMap.2 ⟨d, hd, ht⟩))
    · rcases h.leads p others hget with hget | hleads
      · rw [hclaimed.index] at hget
        exact .inl hget
      · exact .inr hleads

theorem Grows.congr {files : List Path} {st₁ : WalkState} (h : Grows files st₁ st')
    (hseen : st₁.seen = st.seen) (hindex : st₁.index = st.index) : Grows files st st' := by
  obtain ⟨hgrowing, hentered, hleads⟩ := h
  rw [hseen] at hgrowing
  simp only [hseen, hindex] at hentered hleads
  exact ⟨hgrowing, hentered, hleads⟩

theorem grows_of_visit (h : visit s budget file text st = some st') : Grows [file] st st' := by
  refine visit_induction (T := fun _ _ => True) (fun _ _ _ => trivial) Grows.nil
    (fun _ _ _ _ _ => Grows.append) (fun _ _ _ _ => .fail ..) (fun _ _ _ _ _ _ => .fail ..) ?_
    trivial h
  intro st file text nodes recorded claimed st₂ _ _ hrecorded hclaim hbelow
  obtain ⟨_, hseen, hindex⟩ := recorded_resolveImports s file text (Sheet.importsOf nodes) st
  rw [← hrecorded] at hseen hindex
  have hclaimed := recorded.2.claimed_claim (recorded.1.flatMap fun d => d.target.paths)
  rw [← hclaim] at hclaimed
  exact (Grows.commit hclaimed hbelow).congr hseen hindex

/-- What becomes of a state when files are visited in turn. -/
theorem grows_of_children {children : List Path}
    (h : children.foldlM (visitRead s budget) st = some st') : Grows children st st' :=
  children_induction Grows.nil (fun _ _ _ _ _ => Grows.append) (fun _ _ _ _ => .fail ..)
    (fun _ _ _ _ _ => grows_of_visit) h

theorem contains_entry {cache cache' : Option Cache} {entry : Path} {source : Text} {w : Walk}
    (h : fromSource s budget cache entry source = some (w, cache')) :
    w.index.contains (s.fs.cwd.absoluteFrom entry) = true := by
  obtain ⟨st, hst, hw⟩ := Option.map_eq_some_iff.1 h
  cases hw
  exact ((grows_of_visit hst).entered _).2 (.inr (.inl (Path.isAmong_of_mem List.mem_cons_self)))

/-- The records of a graph lead to files of the graph. -/
theorem contains_of_lookup {cache cache' : Option Cache} {entry : Path} {source : Text} {w : Walk}
    (h : fromSource s budget cache entry source = some (w, cache')) {position : Position}
    {specifier : Text} {d : Dependency} (hd : w.index.lookup file position specifier = some d) :
    ∀ p ∈ d.target.paths, w.index.contains p = true := by
  obtain ⟨st, hst, hw⟩ := Option.map_eq_some_iff.1 h
  have hgrows := grows_of_visit hst
  have hindex : w.index = st.index := by
    cases hw
    rfl
  have hentered : ∀ p : Path, p.isAmong st.seen = true → st.index.contains p = true := by
    intro p hp
    rw [hgrows.entered p]
    cases hstart : p.isAmong (WalkState.start (s.fs.cwd.absoluteFrom entry) cache).seen with
    | true => exact .inr (.inl hstart)
    | false => exact .inr (.inr ⟨rfl, hp⟩)
  rw [hindex, Index.lookup] at hd
  rw [hindex]
  cases hget : st.index.get? file with
  | none =>
    rw [hget] at hd
    cases hd
  | some dependencies =>
    rw [hget] at hd
    rcases hgrows.leads file dependencies hget with hstart | hleads
    · cases hstart
    · exact fun p hp => hentered p (hleads d (List.mem_of_find?_eq_some hd) p hp)

end Walk

end StyleImports
