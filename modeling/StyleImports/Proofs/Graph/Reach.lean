import Mathlib.Logic.Relation
import StyleImports.Graph.Cycle

/-!
# Reachability in an import graph

`Leads index p q`: an import of `p` leads to `q`. `Reaches index p q`: a chain of imports does, or
`p` is `q`. Files are compared by their parts, so neither relation depends on how its paths are
spelled. `LeadsWithout index removed` is the graph without some of its edges.
-/

set_option autoImplicit false

namespace StyleImports

/-- Whether two edges are the same, whatever the spelling of their paths. -/
def Edge.same (e f : Edge) : Bool :=
  e.file.same f.file && e.position = f.position && e.target.same f.target

theorem Edge.same_self (e : Edge) : e.same e = true := by simp [Edge.same]

namespace Index

open Relation

variable {index : Index} {p q r : Path}

/-- An import of `p` leads to `q`. -/
def Leads (index : Index) (p q : Path) : Prop :=
  ∃ e ∈ index.edgesFrom p, e.target.same q = true

/-- A chain of imports, perhaps an empty one, leads from `p` to `q`. -/
def Reaches (index : Index) (p q : Path) : Prop := p.same q = true ∨ TransGen index.Leads p q

/-- An import of `p` that is none of the removed edges leads to `q`. -/
def LeadsWithout (index : Index) (removed : List Edge) (p q : Path) : Prop :=
  ∃ e ∈ index.edgesFrom p, (∀ r ∈ removed, r.same e = false) ∧ e.target.same q = true

/-! ## Edges of a file -/

theorem file_of_mem_edgesFrom {e : Edge} (h : e ∈ index.edgesFrom p) : e.file = p := by
  simp only [edgesFrom, edgesOf, List.mem_flatMap, List.mem_map] at h
  obtain ⟨_, _, _, _, rfl⟩ := h
  rfl

theorem edgesFrom_congr (h : p.same q = true) :
    index.edgesFrom q = (index.edgesFrom p).map fun e => { e with file := q } := by
  simp [edgesFrom, edgesOf, PathTable.get?_congr h, List.map_flatMap, Function.comp_def]

theorem mem_edgesFrom_congr (h : p.same q = true) {e : Edge} (he : e ∈ index.edgesFrom p) :
    ∃ f ∈ index.edgesFrom q, f.same e = true ∧ f.target = e.target := by
  refine ⟨{ e with file := q }, ?_, ?_, rfl⟩
  · rw [edgesFrom_congr h]
    exact List.mem_map_of_mem he
  · simp [Edge.same, file_of_mem_edgesFrom he, Path.same_symm h]

theorem contains_of_mem_edgesFrom {e : Edge} (h : e ∈ index.edgesFrom p) :
    index.contains p = true := by
  rw [PathTable.contains_eq_isSome_get?]
  cases hget : index.get? p with
  | none => simp [edgesFrom, edgesOf, hget] at h
  | some _ => rfl

/-! ## Spellings -/

theorem Edge.same_trans_left {e f g : Edge} (h : f.same e = true) :
    g.same f = g.same e := by
  simp only [Edge.same, Bool.and_eq_true, decide_eq_true_eq] at h
  simp only [Edge.same, Path.same, Path.same_iff.1 h.1.1, h.1.2, Path.same_iff.1 h.2]

theorem LeadsWithout.congr_left {removed : List Edge} (hl : index.LeadsWithout removed p r)
    (h : p.same q = true) : index.LeadsWithout removed q r := by
  obtain ⟨e, he, hremoved, ht⟩ := hl
  obtain ⟨f, hf, hsame, htarget⟩ := mem_edgesFrom_congr h he
  refine ⟨f, hf, fun g hg => ?_, htarget ▸ ht⟩
  rw [Edge.same_trans_left hsame]
  exact hremoved g hg

theorem leadsWithout_nil : index.LeadsWithout [] = index.Leads := by
  funext p q
  simp [LeadsWithout, Leads]

theorem Leads.congr_left (hl : index.Leads p r) (h : p.same q = true) : index.Leads q r := by
  rw [← leadsWithout_nil] at hl ⊢
  exact hl.congr_left h

theorem Leads.congr_right (hl : index.Leads p q) (h : q.same r = true) : index.Leads p r := by
  obtain ⟨e, he, ht⟩ := hl
  exact ⟨e, he, Path.same_trans ht h⟩

theorem transGen_congr_left (hl : TransGen index.Leads p r) (h : p.same q = true) :
    TransGen index.Leads q r := by
  obtain ⟨x, hx, hrest⟩ := TransGen.head'_iff.1 hl
  exact TransGen.head' (hx.congr_left h) hrest

theorem transGen_congr_right (hl : TransGen index.Leads p q) (h : q.same r = true) :
    TransGen index.Leads p r := by
  obtain ⟨x, hrest, hx⟩ := TransGen.tail'_iff.1 hl
  exact TransGen.tail' hrest (hx.congr_right h)

/-! ## Chains -/

theorem Reaches.refl (index : Index) (p : Path) : index.Reaches p p := .inl (Path.same_self p)

theorem Reaches.trans (hpq : index.Reaches p q) (hqr : index.Reaches q r) : index.Reaches p r := by
  rcases hpq with hpq | hpq <;> rcases hqr with hqr | hqr
  · exact .inl (Path.same_trans hpq hqr)
  · exact .inr (transGen_congr_left hqr (Path.same_symm hpq))
  · exact .inr (transGen_congr_right hpq hqr)
  · exact .inr (hpq.trans hqr)

theorem Leads.reaches (h : index.Leads p q) : index.Reaches p q := .inr (.single h)

/-- An edge whose target reaches its file again lies on a cycle. -/
theorem Leads.transGen_of_reaches (h : index.Leads p q) (hback : index.Reaches q p) :
    TransGen index.Leads p p := by
  rcases hback with hback | hback
  · exact .single (h.congr_right hback)
  · exact TransGen.head h hback

end Index

end StyleImports
