import StyleImports.Proofs.Graph.BackEdges
import StyleImports.Proofs.Render.Calls

/-!
# The order in which files are finished

A call that succeeds has put in every target of every import of its stylesheet, at once or by a call
before it. So the rendered files can be listed in the order in which the last of their targets was
put in, and each leads only to files further down the list (`Call.finishes_of_run`): a graph whose
edges the imports cover has no cycle among the rendered files.
-/

set_option autoImplicit false

namespace StyleImports.Renderer.Call

open Index.Search (Left)

variable {r : Renderer} {urls : Option UrlRebaser} {c : Call} {out out' : Rendered}
  {index : Index} {chain done files : List Path}

/-- The files that a step puts in. -/
def targetsOf (r : Renderer) (c : Call) : Sheet.Step → List Path
  | .line _ _ => []
  | .request kind position _ path =>
    match r.place c.file kind position path with
    | .ok (.files paths) => paths
    | _ => []

/-- Each edge of the file of a call leads to a file that a step of its stylesheet puts in. -/
def Covers (r : Renderer) (index : Index) (c : Call) : Prop :=
  ∀ nodes, Sheet.parse c.text = .ok nodes → ∀ e ∈ index.edgesFrom c.file,
    ∃ step ∈ Sheet.stepsOf .empty nodes, e.target ∈ c.targetsOf r step

/-- Files that are finished below a chain of others, the last one first: each leads only to files
that were finished before it, and what was put in is finished or on the chain. -/
structure Finished (index : Index) (chain done : List Path) (out : Rendered) : Prop where
  left : Left index [] done
  held : ∀ p ∈ out.imports, p.isAmong done = true ∨ p.isAmong chain = true

/-- Some files are finished, and so are those that were finished before. -/
def Finishes (index : Index) (chain done files : List Path) (out : Rendered) : Prop :=
  ∃ done', Finished index chain done' out ∧ (∀ p ∈ done, p ∈ done') ∧
    ∀ p ∈ files, p.isAmong done' = true

theorem Finished.finishes (h : Finished index chain done out) :
    Finishes index chain done [] out :=
  ⟨done, h, fun _ hp => hp, nofun⟩

theorem Finishes.append {more : List Path} (h : Finishes index chain done files out)
    (hmore : ∀ done, Finished index chain done out → Finishes index chain done more out') :
    Finishes index chain done (files ++ more) out' := by
  obtain ⟨done₁, hdone₁, hkept, hfiles⟩ := h
  obtain ⟨done₂, hdone₂, hkept₂, hfiles₂⟩ := hmore done₁ hdone₁
  refine ⟨done₂, hdone₂, fun p hp => hkept₂ p (hkept p hp), fun p hp => ?_⟩
  rcases List.mem_append.1 hp with hp | hp
  · exact Path.isAmong_mono hkept₂ (hfiles p hp)
  · exact hfiles₂ p hp

/-- A file is finished when all that it leads to is. It may have been finished before. -/
theorem Finishes.close {file : Path} (h : Finishes index (file :: chain) done files out)
    (hedges : ∀ e ∈ index.edgesFrom file, e.target ∈ files) :
    Finishes index chain done [file] out := by
  obtain ⟨done₁, ⟨hleft, hheld⟩, hkept, hfiles⟩ := h
  have hsettled : ∀ e ∈ index.edgesFrom file, e.target.isAmong done₁ = true :=
    fun e he => hfiles e.target (hedges e he)
  by_cases hfile : file.isAmong done₁ = true
  · refine ⟨done₁, ⟨hleft, fun p hp => ?_⟩, hkept, fun p hp => List.mem_singleton.1 hp ▸ hfile⟩
    rcases hheld p hp with hp | hp
    · exact .inl hp
    · rw [Path.isAmong_cons, Bool.or_eq_true] at hp
      exact hp.imp_left fun hsame => (Path.isAmong_congr hsame _).symm.trans hfile
  · have hnew : Left index [] (file :: done₁) :=
      .cons hleft (by simpa using hfile) fun e he => .inr (hsettled e he)
    refine ⟨file :: done₁, ⟨hnew, fun p hp => ?_⟩, fun p hp => List.mem_cons_of_mem _ (hkept p hp),
      fun p hp => List.mem_singleton.1 hp ▸ Path.isAmong_of_mem List.mem_cons_self⟩
    rw [Path.isAmong_cons, Bool.or_eq_true]
    rcases hheld p hp with hp | hp
    · exact .inl (.inr hp)
    · rw [Path.isAmong_cons, Bool.or_eq_true] at hp
      exact hp.imp_left .inl

section
variable (hrun : ∀ {c' : Call} {done : List Path} {out' : Rendered}, c.Calls r urls c' →
  c'.budget < c.budget → Finished index (c'.file :: c'.chain) done c'.out →
  c'.run r urls = .ok out' → Finishes index c'.chain done [c'.file] out')
include hrun

theorem finishes_of_put {i : Sheet.Import} {indent : Nat} {target : Path}
    (hcomes : c.ComesToTarget r urls i indent target out)
    (hdone : Finished index (c.file :: c.chain) done out)
    (h : c.put r urls i indent out target = .ok out') :
    Finishes index (c.file :: c.chain) done [target] out' := by
  rw [put] at h
  split at h
  case isTrue => cases h
  case isFalse hloop =>
    have hoff : target.isAmong (c.file :: c.chain) = false := by simpa using hloop
    split at h
    case isTrue hheld =>
      -- It was put in before and is not on the chain, so it is finished.
      cases h
      simp only [Bool.and_eq_true] at hheld
      obtain ⟨q, hq, hsame⟩ := Path.isAmong_iff.1 hheld.2
      refine ⟨done, hdone, fun _ hp => hp, fun p hp => ?_⟩
      rw [List.mem_singleton.1 hp, ← Path.isAmong_congr hsame]
      refine (hdone.held q hq).resolve_right fun hchain => ?_
      rw [Path.isAmong_congr hsame, hoff] at hchain
      cases hchain
    case isFalse hheld =>
      cases hread : r.fs.readText target with
      | error e =>
        rw [hread] at h
        cases h
      | ok text =>
        rw [hread] at h
        cases hbudget : c.budget with
        | zero =>
          simp only [hbudget, renderFile] at h
          cases h
        | succ budget =>
          simp only [hbudget] at h
          have hcalls := Calls.below hcomes hoff (by simpa using hheld) hread hbudget
          refine hrun hcalls (hbudget ▸ Nat.lt_succ_self budget) ⟨hdone.left, fun p hp => ?_⟩ h
          rcases Rendered.mem_imports_use hp with hp | rfl
          · refine (hdone.held p hp).imp_right fun hchain => ?_
            rw [Path.isAmong_cons, hchain, Bool.or_true]
          · exact .inr (Path.isAmong_of_mem List.mem_cons_self)

/-- All files that a step puts in are finished then. -/
theorem finishes_of_step {step : Sheet.Step} (hcomes : c.ComesTo r urls step out)
    (hdone : Finished index (c.file :: c.chain) done out)
    (h : c.step r urls out step = .ok out') :
    Finishes index (c.file :: c.chain) done (c.targetsOf r step) out' := by
  cases step with
  | line indent text =>
    cases h
    exact Finished.finishes ⟨hdone.left, hdone.held⟩
  | request kind position indent path =>
    simp only [Call.step, targetsOf] at h ⊢
    have hplaced := placed_place r c kind position path
    generalize r.place c.file kind position path = placement at hplaced h
    cases hplaced with
    | empty => cases h
    | literal =>
      cases h
      exact Finished.finishes ⟨hdone.left, hdone.held⟩
    | @files specifier hnamed hliteral =>
      cases htargets : c.targets r ⟨specifier, position, kind⟩ with
      | error e =>
        rw [htargets] at h
        cases h
      | ok targets =>
        rw [htargets] at h
        have hexecutes : c.Executes r urls ⟨specifier, position, kind⟩ indent out :=
          ⟨hcomes, hnamed, hliteral⟩
        refine of_foldlM_append_eq_ok (P := Finishes index (c.file :: c.chain) done) h
          hdone.finishes ?_
        rintro before target after out₁ out₂ rfl hbefore hput hbelow
        exact hbelow.append fun done₁ hdone₁ =>
          finishes_of_put hrun ⟨out, before, after, hexecutes, htargets, hbefore⟩ hdone₁ hput

end

/-- A call that succeeds finishes its file, if the stylesheet of every call below it covers the
edges of its file. -/
theorem finishes_of_run (hcovers : ∀ c', c.Reaches r urls c' → c'.Covers r index)
    (hdone : Finished index (c.file :: c.chain) done c.out) (h : c.run r urls = .ok out') :
    Finishes index c.chain done [c.file] out' := by
  -- The budget falls with every call, so it carries the induction.
  induction hbudget : c.budget using Nat.strongRecOn generalizing c done out' with
  | ind budget ih =>
    rw [run_eq] at h
    cases hparse : Sheet.parse c.text with
    | error fault =>
      rw [hparse] at h
      cases h
    | ok nodes =>
      rw [hparse] at h
      have hsteps : Finishes index (c.file :: c.chain) done
          ((Sheet.stepsOf .empty nodes).flatMap (c.targetsOf r)) out' := by
        refine of_foldlM_append_eq_ok (P := fun before => Finishes index (c.file :: c.chain) done
          (before.flatMap (c.targetsOf r))) h hdone.finishes ?_
        intro before step after out₁ out₂ hsteps hbefore hstep hfinishes
        rw [List.flatMap_append, List.flatMap_singleton]
        refine hfinishes.append fun done₁ hdone₁ => ?_
        refine finishes_of_step (fun hcalls hless hdone' hrun => ?_)
          ⟨nodes, before, after, hparse, hsteps, hbefore⟩ hdone₁ hstep
        exact ih _ (hbudget ▸ hless) (fun c' hreaches => hcovers c' (.head hcalls hreaches)) hdone'
          hrun rfl
      refine hsteps.close fun e he => ?_
      obtain ⟨step, hstep, hmem⟩ := hcovers c .refl nodes hparse e he
      exact List.mem_flatMap.2 ⟨step, hstep, hmem⟩

end StyleImports.Renderer.Call
