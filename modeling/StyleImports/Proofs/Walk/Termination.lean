import Mathlib.Algebra.BigOperators.Group.Finset.Basic
import Mathlib.Algebra.GroupWithZero.Nat
import Mathlib.Data.Finset.Basic
import StyleImports.Proofs.Walk.Notes
import StyleImports.Proofs.Walk.Sequential

/-!
# Interleavings that end

A branch only has so much to do, and each path is claimed once. So if the paths that may ever be
claimed are finitely many, the work that is left (`Progress.work`) gets less with every step, no
interleaving goes on for ever (`acc_of_claimed`), and the walk returns with some budget
(`exists_fromSource_of_acc`).
-/

set_option autoImplicit false

namespace StyleImports.Walk

open Relation

variable {s : Setting} {entry : Path} {source : Text} {c next : Progress}

/-! ## Work -/

/-- How many steps a branch has to take, without those of the files that it claims. -/
def Branch.work (s : Setting) (b : Branch) : Nat :=
  match b.stage with
  | .claimed => (s.reading b.file (s.fs.readText b.file)).notes.length + 4
  | .opened content => (s.reading b.file content).notes.length + 3
  | .resolving _ notes => notes.length + 2
  | .waiting _ => 1

/-- How many steps are left if only the given paths can be claimed. -/
def Progress.work (s : Setting) (claimable : Finset Path) (c : Progress) : Nat :=
  (∑ f ∈ claimable \ c.state.seen.toFinset, (Branch.mk f .claimed).work s) +
    (c.branches.map (Branch.work s)).sum

theorem work_replace {claimable : Finset Path} {st st' : WalkState}
    {before branches after : List Branch} {log log' : List Event} {b : Branch}
    (hseen : st'.seen = st.seen)
    (hwork : (branches.map (Branch.work s)).sum < b.work s) :
    Progress.work s claimable ⟨st', before ++ (branches ++ after), log'⟩ <
      Progress.work s claimable ⟨st, before ++ b :: after, log⟩ := by
  simp only [Progress.work, hseen, List.map_append, List.map_cons, List.sum_append, List.sum_cons]
  omega

/-- What is claimed was to be done before and is to be done after the claim. -/
theorem sum_claim {claimable : Finset Path} {fresh seen : List Path} (w : Path → Nat)
    (hnodup : fresh.Nodup) (hfresh : ∀ p ∈ fresh, p ∈ claimable ∧ p ∉ seen) :
    (∑ f ∈ claimable \ (fresh.reverse ++ seen).toFinset, w f) + (fresh.map w).sum =
      ∑ f ∈ claimable \ seen.toFinset, w f := by
  have hsplit : claimable \ (fresh.reverse ++ seen).toFinset =
      (claimable \ seen.toFinset) \ fresh.toFinset := by
    ext p
    simp only [Finset.mem_sdiff, List.mem_toFinset, List.mem_append, List.mem_reverse, not_or]
    tauto
  have hsubset : fresh.toFinset ⊆ claimable \ seen.toFinset := fun p hp => by
    rw [List.mem_toFinset] at hp
    simpa using hfresh p hp
  rw [hsplit, ← List.sum_toFinset w hnodup, Finset.sum_sdiff hsubset]

/-- Every step leaves less work, as long as only claimable paths are claimed. -/
theorem work_step {claimable : Finset Path} (hstep : Step s c next)
    (hclaimed : ∀ p ∈ next.state.seen, p ∈ claimable) :
    next.work s claimable < c.work s claimable := by
  cases hstep with
  | @advance st _ _ _ _ before after log hadvance =>
    cases hadvance with
    | read file => exact work_replace rfl (by simp [Branch.work])
    | visit file content => exact work_replace rfl (by simp [Branch.work])
    | note file dependencies first rest n =>
      refine work_replace (by cases n <;> rfl) ?_
      simp only [Branch.work, List.map_cons, List.map_nil, List.sum_cons, List.sum_nil,
        List.length_append, List.length_cons]
      omega
    | commit file dependencies => exact work_replace rfl (by simp [Branch.work])
    | claim file dependencies =>
      have hdone := st.claimed_claim (dependencies.flatMap fun d => d.target.paths)
      generalize st.claim (dependencies.flatMap fun d => d.target.paths) = outcome
        at hdone hclaimed ⊢
      have hfresh : ∀ p ∈ outcome.1, p ∈ claimable ∧ p ∉ st.seen := fun p hp => by
        refine ⟨hclaimed p ?_, fun hseen => ?_⟩
        · rw [hdone.seen]
          exact List.mem_append_left _ (List.mem_reverse.2 hp)
        · have hnot := Path.same_eq_false_of_mem (hdone.fresh p hp).2 hseen
          rw [Path.same_self] at hnot
          cases hnot
      have hsum := sum_claim (fun f => (Branch.mk f .claimed).work s)
        (Path.nodup_of_distinct hdone.distinct) hfresh
      have hwaiting : (Branch.mk file (.waiting dependencies)).work s = 1 := rfl
      have hresolving : (Branch.mk file (.resolving dependencies [])).work s = 2 := rfl
      simp only [Progress.work, hdone.seen, List.map_append, List.map_cons, List.sum_append,
        List.sum_cons, List.map_map, Function.comp_def, hwaiting, hresolving]
      omega

/-- If only finitely many paths are ever claimed, no interleaving goes on for ever. -/
theorem acc_of_claimed {claimable : Finset Path}
    (hclaimed : ∀ c, Reachable s entry source c → ∀ p ∈ c.state.seen, p ∈ claimable)
    (hc : Reachable s entry source c) : Acc (fun next c => Step s c next) c := by
  induction hwork : c.work s claimable using Nat.strong_induction_on generalizing c with
  | _ work ih =>
    refine Acc.intro c fun next hstep => ?_
    have hnext : Reachable s entry source next := hc.tail hstep
    exact ih _ (hwork ▸ work_step hstep (hclaimed next hnext)) hnext rfl

/-! ## Budgets -/

/-- What comes later in a walk. -/
abbrev Later (s : Setting) (next c : Progress) : Prop := TransGen (Step s) c next

theorem acc_later (h : Acc (fun next c => Step s c next) c) : Acc (Later s) c := by
  refine Subrelation.accessible (fun {next c} hlater => ?_) h.transGen
  exact (transGen_swap (r := Step s)).2 hlater

theorem exists_budget_of_children {children : List Path} {st : WalkState}
    {before after : List Branch} {log : List Event} (hcache : st.cache = none)
    (hlater : ReflTransGen (Step s) c
      ⟨st, before ++ children.map (fun child => ⟨child, .claimed⟩) ++ after, log⟩)
    (hvisit : ∀ (st : WalkState) file text before after log, st.cache = none →
      Later s ⟨st, before ++ ⟨file, .opened (.ok text)⟩ :: after, log⟩ c →
      ∃ budget st', visit s budget file text st = some st') :
    ∃ budget st', children.foldlM (visitRead s budget) st = some st' := by
  induction children generalizing st before log with
  | nil => exact ⟨0, st, rfl⟩
  | cons child children ih =>
    have hread : Step s
        ⟨st, before ++ ⟨child, .claimed⟩ ::
          (children.map (fun child => ⟨child, .claimed⟩) ++ after), log⟩
        ⟨st, before ++ ⟨child, .opened (s.fs.readText child)⟩ ::
          (children.map (fun child => ⟨child, .claimed⟩) ++ after), log ++ [.read child]⟩ :=
      .advance before _ log (.read st child)
    rw [List.map_cons, List.append_assoc, List.cons_append] at hlater
    have hopened := TransGen.tail' hlater hread
    -- The child itself ends, and takes its branch out.
    have hfirst : ∃ budget st₁, visitRead s budget st child = some st₁ := by
      simp only [visitRead]
      cases hcontent : s.fs.readText child with
      | error e => exact ⟨0, _, rfl⟩
      | ok text =>
        rw [hcontent] at hopened
        exact hvisit st child text _ _ _ hcache hopened
    obtain ⟨budget, st₁, hbudget⟩ := hfirst
    obtain ⟨hcache₁, hsteps⟩ := leaves_of_visitRead hbudget hcache
    obtain ⟨log₁, hlog₁⟩ := hsteps before (children.map (fun child => ⟨child, .claimed⟩) ++ after)
      log
    have hrest := hlater.trans (by simpa using hlog₁)
    rw [← List.append_assoc] at hrest
    obtain ⟨more, st', hmore⟩ := ih hcache₁ hrest
    refine ⟨max budget more, st', ?_⟩
    rw [List.foldlM_cons]
    refine Option.bind_eq_some_iff.2 ⟨st₁, visitRead_mono (Nat.le_max_left ..) hbudget, ?_⟩
    exact foldlM_eq_some_of_imp (fun _ _ _ => visitRead_mono (Nat.le_max_right ..)) hmore

/-- A visit from which no interleaving goes on for ever returns with some budget. -/
theorem exists_visit_of_acc {st : WalkState} {file : Path} {text : Text}
    {before after : List Branch} {log : List Event} (hcache : st.cache = none)
    (hacc : Acc (Later s) ⟨st, before ++ ⟨file, .opened (.ok text)⟩ :: after, log⟩) :
    ∃ budget st', visit s budget file text st = some st' := by
  generalize hc : Progress.mk st (before ++ ⟨file, .opened (.ok text)⟩ :: after) log = c at hacc
  induction hacc generalizing st file text before after log with
  | intro c _ ih =>
    subst hc
    -- The file claims its targets first; the branch of each of them comes later.
    have hsettled := steps_settle (s := s) st before after log file (.ok text)
    rw [List.append_cons before (Branch.mk file (.waiting _))] at hsettled
    obtain ⟨budget, st₂, hchildren⟩ := exists_budget_of_children
      ((cache_settle ..).trans hcache) hsettled
      fun st file text before after log hcache hlater => ih _ hlater hcache rfl
    exact ⟨budget + 1, _, by rw [visit_succ hcache, hchildren]; rfl⟩

theorem exists_fromSource_of_acc
    (h : Acc (fun next c => Step s c next) (.start (s.fs.cwd.absoluteFrom entry) source)) :
    ∃ budget w cache, fromSource s budget none entry source = some (w, cache) := by
  have hstart : Progress.start (s.fs.cwd.absoluteFrom entry) source =
      ⟨.start (s.fs.cwd.absoluteFrom entry) none,
        [] ++ ⟨s.fs.cwd.absoluteFrom entry, .opened (.ok source)⟩ :: [], []⟩ := rfl
  rw [hstart] at h
  obtain ⟨budget, st, hvisit⟩ := exists_visit_of_acc rfl (acc_later h)
  exact ⟨budget, _, _, by rw [fromSource, hvisit]; rfl⟩

end StyleImports.Walk
