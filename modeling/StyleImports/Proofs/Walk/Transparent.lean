import StyleImports.Proofs.Walk.Cached

/-!
# Caches that make no difference

A cache is transparent to the walks of some setting if for every text it yields the records that the
imports of the text come to there (`Transparent`). A walk that ends without a cache then ends with
it, and with the same outcome (`fromSource_of_transparent`): both go through the same states, but
for the cache.
-/

set_option autoImplicit false

namespace StyleImports

open Setting (importsIn)

theorem WalkState.claim_withCache (st : WalkState) (cache : Option Cache) (paths : List Path) :
    (st.withCache cache).claim paths =
      ((st.claim paths).1, (st.claim paths).2.withCache cache) := by
  induction paths using List.reverseRecOn with
  | nil => rfl
  | append_singleton paths p ih =>
    rw [claim_append_singleton, claim_append_singleton, ih]
    cases hp : p.isAmong (st.claim paths).2.seen <;> simp [withCache, hp]

namespace Walk

variable {s : Setting} {file : Path} {text : Text} {budget : Nat} {st st' : WalkState}
  {cache : Cache} {T : Set Text} {Q : Cache → Prop}

/-- Whenever a cache of a certain kind has a part in finding the records of a text, they are what
the imports come to, and the cache stays of its kind. The files hold such texts only. -/
structure Transparent (s : Setting) (T : Set Text) (Q : Cache → Prop) : Prop where
  reads : ∀ p text, s.fs.readText p = .ok text → text ∈ T
  recorded : ∀ file text cache dependencies cache', text ∈ T → Q cache →
    Recorded s file text (importsIn (.ok text)) (some cache) dependencies cache' →
    dependencies = freshOf s file (importsIn (.ok text)) ∧ ∀ k, cache' = some k → Q k

theorem Recorded.cache_eq_none {source : Text} {imports : List Sheet.Import}
    {dependencies : List Dependency} {cache' : Option Cache}
    (h : Recorded s file source imports none dependencies cache') : cache' = none := by
  cases h
  rfl

section
variable (h : Transparent s T Q)
include h

/-- The imports of a text come to the same with such a cache and without one. -/
theorem resolveImports_of_transparent (htext : text ∈ T) (hQ : Q cache) (file : Path)
    (hcache : st.cache = none) : ∃ k, Q k ∧
      resolveImports s file text (importsIn (.ok text)) (st.withCache (some cache)) =
        ((resolveImports s file text (importsIn (.ok text)) st).1,
          (resolveImports s file text (importsIn (.ok text)) st).2.withCache (some k)) := by
  obtain ⟨hrecorded, hframe⟩ :=
    frame_resolveImports s file text (importsIn (.ok text)) (st.withCache (some cache))
  obtain ⟨hfresh, hkept⟩ := h.recorded file text cache _ _ htext hQ hrecorded
  obtain ⟨k, hk⟩ := hrecorded.exists_cache
  have huncached : resolveImports s file text (importsIn (.ok text)) st =
      (freshOf s file (importsIn (.ok text)),
        st.takeAll file (notesOf s file (importsIn (.ok text)))) := by
    rw [← resolveFresh_eq, resolveImports, hcache]
    rfl
  refine ⟨k, hkept k hk, Prod.ext ?_ ?_⟩
  · rw [hfresh, huncached]
  · rw [hframe, hk, huncached, WalkState.takeAll_withCache]
    rfl

theorem children_of_transparent
    (hvisit : ∀ {file : Path} {text : Text} {st st' : WalkState} {cache : Cache}, text ∈ T →
      Q cache → st.cache = none → visit s budget file text st = some st' →
      st'.cache = none ∧ ∃ k, Q k ∧ visit s budget file text (st.withCache (some cache)) =
        some (st'.withCache (some k)))
    {children : List Path} (hQ : Q cache) (hcache : st.cache = none)
    (hchildren : children.foldlM (visitRead s budget) st = some st') :
    st'.cache = none ∧ ∃ k, Q k ∧
      children.foldlM (visitRead s budget) (st.withCache (some cache)) =
        some (st'.withCache (some k)) := by
  induction children generalizing st cache with
  | nil =>
    rw [List.foldlM_nil] at hchildren
    cases hchildren
    exact ⟨hcache, cache, hQ, by rw [List.foldlM_nil]; rfl⟩
  | cons child children ih =>
    rw [List.foldlM_cons] at hchildren
    obtain ⟨st₁, hchild, hrest⟩ := Option.bind_eq_some_iff.1 hchildren
    have hfirst : st₁.cache = none ∧ ∃ k, Q k ∧
        visitRead s budget (st.withCache (some cache)) child =
          some (st₁.withCache (some k)) := by
      rw [visitRead] at hchild ⊢
      cases hread : s.fs.readText child with
      | error e =>
        rw [hread] at hchild
        cases hchild
        exact ⟨hcache, cache, hQ, rfl⟩
      | ok text =>
        rw [hread] at hchild
        exact hvisit (h.reads child text hread) hQ hcache hchild
    obtain ⟨hcache₁, k, hk, hfirst⟩ := hfirst
    obtain ⟨hcache', k', hk', hrest⟩ := ih hk hcache₁ hrest
    refine ⟨hcache', k', hk', ?_⟩
    rw [List.foldlM_cons, hfirst]
    exact hrest

/-- A visit that ends without a cache ends alike with a transparent one. -/
theorem visit_of_transparent (htext : text ∈ T) (hQ : Q cache) (hcache : st.cache = none)
    (hvisit : visit s budget file text st = some st') :
    st'.cache = none ∧ ∃ k, Q k ∧ visit s budget file text (st.withCache (some cache)) =
      some (st'.withCache (some k)) := by
  induction budget generalizing file text st st' cache with
  | zero => cases hvisit
  | succ budget ih =>
    cases hparse : Sheet.parse text with
    | error e =>
      simp only [visit, hparse] at hvisit ⊢
      cases hvisit
      exact ⟨hcache, cache, hQ, rfl⟩
    | ok nodes =>
      have himports : Sheet.importsOf nodes = importsIn (.ok text) := by
        simp [importsIn, hparse]
      rw [visit_of_parse hparse, himports] at hvisit ⊢
      obtain ⟨k, hk, hresolved⟩ := resolveImports_of_transparent h htext hQ file hcache
      have hkept := (recorded_resolveImports s file text (importsIn (.ok text)) st).1
      rw [hresolved]
      generalize resolveImports s file text (importsIn (.ok text)) st = recorded at hvisit hkept
      obtain ⟨dependencies, st₁⟩ := recorded
      dsimp only at hvisit hkept ⊢
      rw [WalkState.claim_withCache]
      have hclaimed := st₁.claimed_claim (dependencies.flatMap fun d => d.target.paths)
      generalize st₁.claim (dependencies.flatMap fun d => d.target.paths) = claimed
        at hvisit hclaimed ⊢
      obtain ⟨visited, hvisited, rfl⟩ := Option.map_eq_some_iff.1 hvisit
      have hnone : claimed.2.cache = none := by
        rw [hcache] at hkept
        rw [hclaimed.cache, hkept.cache_eq_none]
      obtain ⟨hcache', k', hk', hbelow⟩ := children_of_transparent h ih hk hnone hvisited
      refine ⟨hcache', k', hk', ?_⟩
      dsimp only
      rw [hbelow]
      rfl

theorem fromSource_of_transparent {entry : Path} {source : Text} {w : Walk}
    {outcome : Option Cache} (hsource : source ∈ T) (hQ : Q cache)
    (hwalk : fromSource s budget none entry source = some (w, outcome)) :
    ∃ k, Q k ∧ fromSource s budget (some cache) entry source = some (w, some k) := by
  obtain ⟨st, hst, hw⟩ := Option.map_eq_some_iff.1 hwalk
  cases hw
  obtain ⟨_, k, hk, hcached⟩ := visit_of_transparent h hsource hQ rfl hst
  refine ⟨k, hk, ?_⟩
  exact Option.map_eq_some_iff.2 ⟨_, hcached, rfl⟩

end

end Walk

end StyleImports
