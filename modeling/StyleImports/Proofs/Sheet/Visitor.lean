import StyleImports.Sheet.Imports

/-!
# Visiting a stylesheet for its imports

A visitor goes down a stylesheet with one scope, in which it enters a block and leaves it again, and
collects the imports that name files. It comes to the imports of the stylesheet
(`Visitor.visit_eq`).
-/

set_option autoImplicit false

namespace StyleImports.Sheet

theorem Step.import?_eq_some {step : Step} {i : Import} :
    step.import? = some i ↔
      ∃ indent, step = .request i.kind i.position indent (some (.str i.specifier)) ∧
        i.specifier ≠ [] ∧ Specifier.isExternal i.specifier = false := by
  constructor
  · intro h
    unfold import? at h
    split at h
    case h_1 kind position indent specifier =>
      split at h
      · cases h
      case isFalse hnamed =>
        cases h
        simp only [Bool.or_eq_true, decide_eq_true_eq, not_or, Bool.not_eq_true] at hnamed
        exact ⟨indent, rfl, hnamed⟩
    · cases h
  · rintro ⟨indent, rfl, hnamed, hexternal⟩
    simp [import?, hnamed, hexternal]

/-- A visit under way: the variables, and the imports so far. -/
structure Visitor where
  scope : Scope
  imports : List Import
  deriving DecidableEq, Repr

namespace Visitor

def start : Visitor := ⟨.empty, []⟩

def collect (v : Visitor) (i : Import) : Visitor := { v with imports := v.imports ++ [i] }

mutual

/-- Visits a line and what is below it. -/
def visitNode (v : Visitor) : Node → Visitor
  | .statement _ _ _ => v
  | .assignment name value _ _ _ => { v with scope := v.scope.define name (eval v.scope value) }
  | .block _ _ _ nodes =>
    let inside := visitNodes { v with scope := v.scope.push } nodes
    { inside with scope := inside.scope.pop }
  | .request kind paths position _ =>
    match paths.head?.map (eval v.scope) with
    | some (.str specifier) =>
      if specifier = [] || Specifier.isExternal specifier then v
      else v.collect ⟨specifier, position, kind⟩
    | _ => v

def visitNodes (v : Visitor) : List Node → Visitor
  | [] => v
  | node :: rest => visitNodes (visitNode v node) rest

end

/-- The imports that a visit of a whole stylesheet collects. -/
def visit (nodes : List Node) : List Import := (visitNodes start nodes).imports

/-- Lines leave the scopes around them as they are. -/
theorem outer_foldl_after (nodes : List Node) (scope : Scope) :
    (nodes.foldl Scope.after scope).outer = scope.outer := by
  induction nodes generalizing scope with
  | nil => rfl
  | cons node rest ih =>
    rw [List.foldl_cons, ih]
    cases node <;> rfl

/-- What a block has assigned is dropped when it is left. -/
theorem pop_foldl_after (nodes : List Node) (scope : Scope) :
    (nodes.foldl Scope.after scope.push).pop = scope := by
  rw [Scope.pop, outer_foldl_after]
  rfl

theorem imports_append_of_none (v : Visitor) {step : Step} (h : step.import? = none) :
    v.imports = v.imports ++ [step].filterMap Step.import? := by
  rw [List.filterMap_cons_none h, List.filterMap_nil, List.append_nil]

mutual

theorem visitNode_eq (v : Visitor) : (node : Node) →
    visitNode v node =
      ⟨v.scope.after node, v.imports ++ (stepsOfNode v.scope node).filterMap Step.import?⟩
  | .statement text line indent => by
    rw [visitNode, stepsOfNode, ← v.imports_append_of_none rfl]
    rfl
  | .assignment name value text line indent => by
    rw [visitNode, stepsOfNode, ← v.imports_append_of_none rfl]
    rfl
  | .block header line indent nodes => by
    rw [visitNode, visitNodes_eq { v with scope := v.scope.push } nodes]
    simp only [pop_foldl_after]
    rfl
  | .request kind paths position indent => by
    have hscope : v.scope.after (.request kind paths position indent) = v.scope := rfl
    rw [visitNode, stepsOfNode, hscope]
    generalize paths.head?.map (eval v.scope) = value
    match value with
    | none => rw [← v.imports_append_of_none rfl]
    | some (.url url) => rw [← v.imports_append_of_none rfl]
    | some (.str specifier) =>
      simp only [List.filterMap_cons, List.filterMap_nil, Step.import?]
      split
      · rw [List.append_nil]
      · rfl

theorem visitNodes_eq (v : Visitor) : (nodes : List Node) →
    visitNodes v nodes = ⟨nodes.foldl Scope.after v.scope,
      v.imports ++ (stepsOf v.scope nodes).filterMap Step.import?⟩
  | [] => by simp [visitNodes, stepsOf]
  | node :: rest => by
    rw [visitNodes, visitNodes_eq (visitNode v node) rest, visitNode_eq v node]
    simp [stepsOf]

end

/-- A visit collects the imports of the stylesheet. -/
theorem visit_eq (nodes : List Node) : visit nodes = importsOf nodes := by
  rw [visit, visitNodes_eq]
  rfl

end Visitor

end StyleImports.Sheet
