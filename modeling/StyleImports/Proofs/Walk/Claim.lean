import Mathlib.Data.List.Basic
import Mathlib.Data.List.Induction
import StyleImports.Proofs.Path.Table
import StyleImports.Graph.Walk

/-!
# Claiming targets

`WalkState.claim` goes through the targets of a file: all of them become dependencies, and those
that no one has claimed are claimed, each once (`Claimed`). Nothing else of the state changes.
-/

set_option autoImplicit false

namespace StyleImports.WalkState

/-- The outcome of claiming paths in a state: the fresh paths and the state after it. -/
structure Claimed (st : WalkState) (paths : List Path) (outcome : List Path × WalkState) :
    Prop where
  seen : outcome.2.seen = outcome.1.reverse ++ st.seen
  fresh : ∀ p ∈ outcome.1, p ∈ paths ∧ p.isAmong st.seen = false
  distinct : outcome.1.Pairwise fun p q => p.same q = false
  covered : ∀ p ∈ paths, p.isAmong outcome.2.seen = true
  files : outcome.2.files = paths.foldl PathSet.add st.files
  index : outcome.2.index = st.index
  diagnostics : outcome.2.diagnostics = st.diagnostics
  contexts : outcome.2.contexts = st.contexts
  cache : outcome.2.cache = st.cache

theorem claim_append_singleton (st : WalkState) (paths : List Path) (p : Path) :
    st.claim (paths ++ [p]) =
      if p.isAmong (st.claim paths).2.seen then
        ((st.claim paths).1,
          { (st.claim paths).2 with files := (st.claim paths).2.files.add p })
      else
        ((st.claim paths).1 ++ [p],
          { (st.claim paths).2 with
            files := (st.claim paths).2.files.add p
            seen := p :: (st.claim paths).2.seen }) := by
  simp only [claim, List.foldl_append, List.foldl_cons, List.foldl_nil]

theorem claimed_claim (st : WalkState) (paths : List Path) : Claimed st paths (st.claim paths) := by
  induction paths using List.reverseRecOn with
  | nil => exact ⟨rfl, by simp [claim], .nil, by simp, rfl, rfl, rfl, rfl, rfl⟩
  | append_singleton paths p ih =>
    rw [claim_append_singleton]
    split
    case isTrue hseen =>
      refine { ih with
        fresh := fun q hq => ⟨List.mem_append_left _ (ih.fresh q hq).1, (ih.fresh q hq).2⟩
        covered := fun q hq => ?_
        files := ?_ }
      · rcases List.mem_append.1 hq with hq | hq
        · exact ih.covered q hq
        · rw [List.mem_singleton.1 hq]
          exact hseen
      · rw [List.foldl_append, ← ih.files]
        rfl
    case isFalse hfresh =>
      have hnot : p.isAmong ((st.claim paths).1.reverse ++ st.seen) = false := by
        rw [← ih.seen]
        simpa using hfresh
      rw [Path.isAmong_append, Bool.or_eq_false_iff] at hnot
      refine { ih with
        seen := by simp [ih.seen]
        fresh := fun q hq => ?_
        distinct := List.pairwise_append.2
          ⟨ih.distinct, List.pairwise_singleton .., fun q hq r hr => ?_⟩
        covered := fun q hq => ?_
        files := ?_ }
      · rcases List.mem_append.1 hq with hq | hq
        · exact ⟨List.mem_append_left _ (ih.fresh q hq).1, (ih.fresh q hq).2⟩
        · rw [List.mem_singleton.1 hq]
          exact ⟨List.mem_append_right _ List.mem_cons_self, hnot.2⟩
      · rw [List.mem_singleton.1 hr]
        rw [Path.same_comm]
        exact Path.same_eq_false_of_mem hnot.1 (List.mem_reverse.2 hq)
      · rw [Path.isAmong_cons, Bool.or_eq_true]
        rcases List.mem_append.1 hq with hq | hq
        · exact .inr (ih.covered q hq)
        · rw [List.mem_singleton.1 hq]
          exact .inl (Path.same_self p)
      · rw [List.foldl_append, ← ih.files]
        rfl

theorem Claimed.isAmong_fresh {st : WalkState} {paths : List Path} {p : Path}
    {outcome : List Path × WalkState} (h : Claimed st paths outcome)
    (hseen : p.isAmong st.seen = true) : p.isAmong outcome.1 = false := by
  rw [← Bool.not_eq_true, Path.isAmong_iff]
  rintro ⟨q, hq, hsame⟩
  have hfresh := (h.fresh q hq).2
  rw [Path.isAmong_congr hsame, hseen] at hfresh
  cases hfresh

/-- What was claimed before and what is fresh are never the same. -/
theorem Claimed.pairwise_seen {st : WalkState} {paths : List Path}
    {outcome : List Path × WalkState} (h : Claimed st paths outcome)
    (hseen : st.seen.Pairwise fun p q => p.same q = false) :
    outcome.2.seen.Pairwise fun p q => p.same q = false := by
  rw [h.seen]
  refine List.pairwise_append.2 ⟨?_, hseen, fun p hp q hq => ?_⟩
  · refine List.pairwise_reverse.2 (h.distinct.imp fun hpq => ?_)
    rw [Path.same_comm]
    exact hpq
  · exact Path.same_eq_false_of_mem (h.fresh p (List.mem_reverse.1 hp)).2 hq

end StyleImports.WalkState
