import Mathlib.Data.List.Nodup
import StyleImports.Proofs.Sheet.Tree
import StyleImports.Sheet.Imports

/-!
# Where imports stand

Each line of a stylesheet makes one node, so the imports of a stylesheet stand on lines of their own
and are listed from top to bottom (`importsOf_ascending`).
-/

set_option autoImplicit false

namespace StyleImports.Sheet

/-! ## Lines -/

theorem number_of_lineOf? {number : Nat} {row : Text} {line : Line}
    (h : lineOf? number row = some line) : line.number = number := by
  rw [lineOf?] at h
  split at h
  · cases h
  · cases h
    rfl

theorem le_number_of_mem {number : Nat} {rows : List Text} {line : Line}
    (h : line ∈ numberLines number rows) : number ≤ line.number := by
  induction rows generalizing number with
  | nil => cases h
  | cons row rows ih =>
    rw [numberLines] at h
    split at h
    case h_1 first hfirst =>
      rcases List.mem_cons.1 h with rfl | h
      · exact Nat.le_of_eq (number_of_lineOf? hfirst).symm
      · exact Nat.le_of_succ_le (ih h)
    case h_2 => exact Nat.le_of_succ_le (ih h)

theorem numberLines_ascending (number : Nat) (rows : List Text) :
    (numberLines number rows).Pairwise fun a b => a.number < b.number := by
  induction rows generalizing number with
  | nil => exact .nil
  | cons row rows ih =>
    rw [numberLines]
    split
    case h_1 line hline =>
      refine List.pairwise_cons.2 ⟨fun next hnext => ?_, ih _⟩
      rw [number_of_lineOf? hline]
      exact le_number_of_mem hnext
    case h_2 => exact ih _

/-! ## Nodes -/

/-- The line of a step that is an import. -/
def Step.requestLine? : Step → Option Nat
  | .line _ _ => none
  | .request _ position _ _ => some position.line

theorem lines_of_leafOf (line : Line) (scope : Scope) :
    (stepsOfNode scope (leafOf line)).filterMap Step.requestLine? = [] := by
  rcases leafOf_cases line with h | ⟨name, value, h⟩ <;> rw [h] <;> rfl

/-- The imports of some lines stand on these lines, in their order. -/
theorem requestLines_sublist {lines : List Line} {nodes : List Node}
    (h : nodesOf lines = .ok nodes) (scope : Scope) :
    ((stepsOf scope nodes).filterMap Step.requestLine?).Sublist (lines.map Line.number) := by
  have hbuilds := builds_of_nodesOf h
  clear h
  induction hbuilds generalizing scope with
  | nil => exact .slnil
  | request _ _ _ ih => exact (ih _).cons_cons _
  | block _ _ _ _ ihInner ih =>
    have happend := (ihInner scope.push).append (ih scope)
    rw [← List.map_append, List.takeWhile_append_dropWhile] at happend
    rw [stepsOf, List.filterMap_append, stepsOfNode, List.filterMap_cons_none rfl, List.map_cons]
    exact happend.cons _
  | leaf _ _ _ ih =>
    rw [stepsOf, List.filterMap_append, lines_of_leafOf, List.nil_append, List.map_cons]
    exact (ih _).cons _

/-! ## Imports -/

theorem importLines_sublist (steps : List Step) :
    ((steps.filterMap Step.import?).map fun i => i.position.line).Sublist
      (steps.filterMap Step.requestLine?) := by
  induction steps with
  | nil => exact .slnil
  | cons step steps ih =>
    cases himport : step.import? with
    | none =>
      rw [List.filterMap_cons_none himport]
      cases hline : step.requestLine? with
      | none => rwa [List.filterMap_cons_none hline]
      | some line =>
        rw [List.filterMap_cons_some hline]
        exact ih.cons _
    | some i =>
      have hline : step.requestLine? = some i.position.line := by
        unfold Step.import? at himport
        split at himport
        · split at himport
          · cases himport
          · cases himport
            rfl
        · cases himport
      rw [List.filterMap_cons_some himport, List.filterMap_cons_some hline, List.map_cons]
      exact ih.cons_cons _

/-- The imports of a stylesheet stand on different lines, from top to bottom. -/
theorem importsOf_ascending {source : Text} {nodes : List Node} (h : parse source = .ok nodes) :
    (importsOf nodes).Pairwise fun i j => i.position.line < j.position.line := by
  have hnumbers : ((linesOf source).map Line.number).Pairwise (· < ·) :=
    List.pairwise_map.2 (numberLines_ascending ..)
  have hlines := (importLines_sublist (stepsOf .empty nodes)).trans (requestLines_sublist h .empty)
  exact List.pairwise_map.1 (hnumbers.sublist hlines)

theorem eq_of_position_eq {source : Text} {nodes : List Node} (h : parse source = .ok nodes)
    {i j : Import} (hi : i ∈ importsOf nodes) (hj : j ∈ importsOf nodes)
    (hposition : i.position = j.position) : i = j := by
  have hnodup : ((importsOf nodes).map fun i => i.position.line).Nodup :=
    List.pairwise_map.2 ((importsOf_ascending h).imp Nat.ne_of_lt)
  exact List.inj_on_of_nodup_map hnodup hi hj (congrArg Position.line hposition)

end StyleImports.Sheet
