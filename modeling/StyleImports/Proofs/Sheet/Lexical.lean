import Mathlib.Data.List.Basic
import Mathlib.Data.List.Induction
import StyleImports.Proofs.Sheet.Visitor

/-!
# Where names are bound

What a name stands for is told by the tree alone: by the latest assignment among the lines before,
in the innermost block that has one there (`BoundBy`), and the value of that assignment by the same
rule at its own place (`HasValue`). When a visitor comes to a line its scope holds exactly these
values (`lookup_scopeFrom`, `hasValue_iff`), and what is below a line plays no part outside it
(`ChangedBelow.exists_lineAt`).
-/

set_option autoImplicit false

namespace StyleImports

/-- The name and the expression of an assignment. -/
def Node.assigned? : Node → Option (Text × PathExpr)
  | .assignment name value _ _ _ => some (name, value)
  | _ => none

/-- A line without what is below it. -/
def Node.alone : Node → Node
  | .block header line indent _ => .block header line indent []
  | node => node

open Sheet in
/-- The step of a line itself. -/
def Node.step (scope : Scope) : Node → Step
  | .statement text _ indent => .line indent text
  | .assignment _ _ text _ indent => .line indent text
  | .request kind paths position indent =>
    .request kind position indent (paths.head?.map (eval scope))
  | .block header _ indent _ => .line indent header

namespace Sheet

/-! ## Places -/

/-- A line of a sheet, by the numbers that lead to it from the outside, with the lines that come
before it: those of the file, then those of each block around it, at last those of its own block. -/
inductive LineAt : List Node → List Nat → List (List Node) → Node → Prop where
  | here {node : Node} {rest : List Node} : LineAt (node :: rest) [0] [[]] node
  | inside {header : Text} {line indent : Nat} {inner rest : List Node} {address : List Nat}
      {context : List (List Node)} {node : Node} :
      LineAt inner address context node →
      LineAt (.block header line indent inner :: rest) (0 :: address) ([] :: context) node
  | later {first : Node} {rest : List Node} {i : Nat} {address : List Nat} {before : List Node}
      {context : List (List Node)} {node : Node} :
      LineAt rest (i :: address) (before :: context) node →
      LineAt (first :: rest) ((i + 1) :: address) ((first :: before) :: context) node

/-- None of some lines assigns a name. -/
def Free (name : Text) (lines : List Node) : Prop :=
  ∀ node ∈ lines, ∀ value, node.assigned? ≠ some (name, value)

/-- The assignment that binds a name behind some lines, and the lines before that assignment: it is
the latest one of the innermost block that has one. -/
def BoundBy (context : List (List Node)) (name : Text) (value : PathExpr)
    (place : List (List Node)) : Prop :=
  ∃ outer front node back inner, context = outer ++ (front ++ node :: back) :: inner ∧
    place = outer ++ [front] ∧ node.assigned? = some (name, value) ∧ Free name back ∧
    ∀ lines ∈ inner, Free name lines

/-- The value of an expression behind some lines. -/
inductive HasValue : List (List Node) → PathExpr → Value → Prop where
  | str {context : List (List Node)} {s : Text} : HasValue context (.str s) (.str s)
  | url {context : List (List Node)} {u : Text} : HasValue context (.url u) (.url u)
  | bound {context place : List (List Node)} {name : Text} {expr : PathExpr} {value : Value} :
      BoundBy context name expr place → HasValue place expr value →
      HasValue context (.word name) value
  | free {context : List (List Node)} {name : Text} :
      (∀ lines ∈ context, Free name lines) → HasValue context (.word name) (.str name)
  | concat {context : List (List Node)} {left right : PathExpr} {v w : Value} :
      HasValue context left v → HasValue context right w →
      HasValue context (.concat left right) (v.add w)

variable {name : Text} {expr : PathExpr} {value : Value} {node : Node} {front nodes : List Node}
  {outer context place : List (List Node)} {address : List Nat} {scope : Scope}

/-! ## Bindings -/

theorem free_nil (name : Text) : Free name [] := fun _ h => nomatch h

theorem free_concat :
    Free name (front ++ [node]) ↔
      Free name front ∧ ∀ value, node.assigned? ≠ some (name, value) := by
  simp [Free, or_imp, forall_and]

theorem boundBy_open : BoundBy (outer ++ [[]]) name expr place ↔ BoundBy outer name expr place := by
  constructor
  · rintro ⟨around, front, node, back, inner, hcontext, hplace, hassigned, hback, hinner⟩
    rcases List.eq_nil_or_concat' inner with rfl | ⟨inner, last, rfl⟩
    · obtain ⟨-, hlast⟩ := List.append_inj' hcontext rfl
      simp at hlast
    · rw [← List.cons_append, ← List.append_assoc] at hcontext
      obtain ⟨rfl, -⟩ := List.append_inj' hcontext rfl
      exact ⟨around, front, node, back, inner, rfl, hplace, hassigned, hback,
        fun lines hlines => hinner lines (List.mem_append_left _ hlines)⟩
  · rintro ⟨around, front, node, back, inner, rfl, hplace, hassigned, hback, hinner⟩
    refine ⟨around, front, node, back, inner ++ [[]], by simp, hplace, hassigned, hback, ?_⟩
    exact List.forall_mem_append.2 ⟨hinner, List.forall_mem_singleton.2 (free_nil name)⟩

theorem boundBy_line :
    BoundBy (outer ++ [front ++ [node]]) name expr place ↔
      (node.assigned? = some (name, expr) ∧ place = outer ++ [front]) ∨
      ((∀ value, node.assigned? ≠ some (name, value)) ∧
        BoundBy (outer ++ [front]) name expr place) := by
  constructor
  · rintro ⟨around, before, last, back, inner, hcontext, hplace, hassigned, hback, hinner⟩
    rcases List.eq_nil_or_concat' inner with rfl | ⟨inner, lines, rfl⟩
    · obtain ⟨rfl, hlines⟩ := List.append_inj' hcontext rfl
      rw [List.cons.injEq] at hlines
      -- The name is bound in this block: by the last line itself, or by one before it.
      rcases List.eq_nil_or_concat' back with rfl | ⟨back, final, rfl⟩
      · obtain ⟨rfl, hnode⟩ := List.append_inj' hlines.1 rfl
        cases hnode
        exact .inl ⟨hassigned, hplace⟩
      · have hsplit := hlines.1
        rw [← List.cons_append, ← List.append_assoc] at hsplit
        obtain ⟨rfl, hnode⟩ := List.append_inj' hsplit rfl
        cases hnode
        rw [free_concat] at hback
        exact .inr ⟨hback.2, outer, before, last, back, [], rfl, hplace, hassigned, hback.1,
          fun _ h => nomatch h⟩
    · rw [← List.cons_append, ← List.append_assoc] at hcontext
      obtain ⟨rfl, hlines⟩ := List.append_inj' hcontext rfl
      cases hlines
      obtain ⟨hinner, hlast⟩ := List.forall_mem_append.1 hinner
      have hlast := free_concat.1 (hlast _ (List.mem_singleton_self _))
      refine .inr ⟨hlast.2, around, before, last, back, inner ++ [front], by simp, hplace,
        hassigned, hback, ?_⟩
      exact List.forall_mem_append.2 ⟨hinner, List.forall_mem_singleton.2 hlast.1⟩
  · rintro (⟨hassigned, rfl⟩ | ⟨hnot, around, before, last, back, inner, hcontext, hplace,
      hassigned, hback, hinner⟩)
    · exact ⟨outer, front, node, [], [], rfl, rfl, hassigned, free_nil name, fun _ h => nomatch h⟩
    · rcases List.eq_nil_or_concat' inner with rfl | ⟨inner, lines, rfl⟩
      · obtain ⟨rfl, hlines⟩ := List.append_inj' hcontext rfl
        cases hlines
        exact ⟨outer, before, last, back ++ [node], [], by simp, hplace, hassigned,
          free_concat.2 ⟨hback, hnot⟩, fun _ h => nomatch h⟩
      · rw [← List.cons_append, ← List.append_assoc] at hcontext
        obtain ⟨rfl, hlines⟩ := List.append_inj' hcontext rfl
        cases hlines
        obtain ⟨hinner, hlast⟩ := List.forall_mem_append.1 hinner
        refine ⟨around, before, last, back, inner ++ [front ++ [node]], by simp, hplace, hassigned,
          hback, List.forall_mem_append.2 ⟨hinner, List.forall_mem_singleton.2 ?_⟩⟩
        exact free_concat.2 ⟨hlast _ (List.mem_singleton_self _), hnot⟩

/-- A binding is made before the lines that it is seen behind. -/
theorem BoundBy.length_lt (h : BoundBy context name expr place) :
    place.flatten.length < context.flatten.length := by
  obtain ⟨outer, front, node, back, inner, rfl, rfl, -⟩ := h
  simp

/-- A fact about lines that come before is kept by each beginning of a block and by each line. -/
@[elab_as_elim]
theorem context_induction {motive : List (List Node) → Prop} (nil : motive [])
    (opening : ∀ outer, motive outer → motive (outer ++ [[]]))
    (line : ∀ outer front node, motive (outer ++ [front]) → motive (outer ++ [front ++ [node]]))
    (context : List (List Node)) : motive context := by
  induction context using List.reverseRecOn with
  | nil => exact nil
  | append_singleton outer lines ih =>
    induction lines using List.reverseRecOn with
    | nil => exact opening outer ih
    | append_singleton front node ihLine => exact line outer front node ihLine

/-! ## Scopes -/

theorem Scope.lookup_push (scope : Scope) (name : Text) :
    scope.push.lookup name = scope.lookup name := rfl

theorem Scope.lookup_after_of_assigned (h : node.assigned? = some (name, expr)) (scope : Scope) :
    (scope.after node).lookup name = some (eval scope expr) := by
  cases node with
  | assignment =>
    cases h
    simp [Scope.after, Scope.define, Scope.lookup, Scope.findIn]
  | _ => cases h

theorem Scope.lookup_after_of_not (h : ∀ value, node.assigned? ≠ some (name, value))
    (scope : Scope) : (scope.after node).lookup name = scope.lookup name := by
  cases node with
  | assignment other expr =>
    have hne : other ≠ name := fun heq => h expr (by rw [Node.assigned?, heq])
    simp [Scope.after, Scope.define, Scope.lookup, Scope.findIn, List.findSome?_cons, hne]
  | _ => rfl

/-- The scope behind some lines. -/
def scopeFrom (scope : Scope) : List (List Node) → Scope
  | [] => scope
  | before :: inner =>
    inner.foldl (fun scope lines => lines.foldl Scope.after scope.push)
      (before.foldl Scope.after scope)

theorem scopeFrom_open (h : outer ≠ []) :
    scopeFrom scope (outer ++ [[]]) = (scopeFrom scope outer).push := by
  cases outer with
  | nil => exact absurd rfl h
  | cons before inner => simp [scopeFrom]

theorem scopeFrom_line (outer : List (List Node)) (front : List Node) (node : Node) :
    scopeFrom scope (outer ++ [front ++ [node]]) =
      (scopeFrom scope (outer ++ [front])).after node := by
  cases outer <;> simp [scopeFrom]

theorem lookup_scopeFrom_open (outer : List (List Node)) (name : Text) :
    (scopeFrom .empty (outer ++ [[]])).lookup name = (scopeFrom .empty outer).lookup name := by
  by_cases h : outer = []
  · subst h
    rfl
  · rw [scopeFrom_open h, Scope.lookup_push]

/-- The scope has the value of the assignment that binds the name. -/
theorem lookup_scopeFrom :
    (scopeFrom .empty context).lookup name = some value ↔
      ∃ expr place, BoundBy context name expr place ∧
        eval (scopeFrom .empty place) expr = value := by
  induction context using context_induction with
  | nil => simp [scopeFrom, Scope.lookup, Scope.empty, Scope.findIn, BoundBy]
  | opening outer ih => simp only [lookup_scopeFrom_open, ih, boundBy_open]
  | line outer front node ih =>
    rw [scopeFrom_line]
    simp only [boundBy_line]
    by_cases h : ∃ expr, node.assigned? = some (name, expr)
    · obtain ⟨expr, hexpr⟩ := h
      rw [Scope.lookup_after_of_assigned hexpr]
      constructor
      · intro hvalue
        exact ⟨expr, _, .inl ⟨hexpr, rfl⟩, Option.some.inj hvalue⟩
      · rintro ⟨other, place, ⟨hother, rfl⟩ | ⟨hnot, -⟩, rfl⟩
        · rw [hexpr] at hother
          cases hother
          rfl
        · exact absurd hexpr (hnot expr)
    · rw [not_exists] at h
      rw [Scope.lookup_after_of_not h, ih]
      simp [h]

theorem lookup_scopeFrom_eq_none :
    (scopeFrom .empty context).lookup name = none ↔ ∀ lines ∈ context, Free name lines := by
  induction context using context_induction with
  | nil => simp [scopeFrom, Scope.lookup, Scope.empty, Scope.findIn]
  | opening outer ih =>
    simp [lookup_scopeFrom_open, ih, or_imp, forall_and, free_nil]
  | line outer front node ih =>
    rw [scopeFrom_line]
    by_cases h : ∃ expr, node.assigned? = some (name, expr)
    · obtain ⟨expr, hexpr⟩ := h
      rw [Scope.lookup_after_of_assigned hexpr]
      simp only [List.forall_mem_append, List.forall_mem_singleton, free_concat]
      exact ⟨fun hnone => absurd hnone (Option.some_ne_none _),
        fun hfree => absurd hexpr (hfree.2.2 expr)⟩
    · rw [not_exists] at h
      rw [Scope.lookup_after_of_not h, ih]
      simp only [List.forall_mem_append, List.forall_mem_singleton, free_concat, and_iff_left h]

/-- The scope behind some lines gives an expression its value there. -/
theorem hasValue_eval (context : List (List Node)) (expr : PathExpr) :
    HasValue context expr (eval (scopeFrom .empty context) expr) := by
  induction hlen : context.flatten.length using Nat.strongRecOn generalizing context expr with
  | ind len ih =>
    induction expr with
    | str s => exact .str
    | url u => exact .url
    | concat left right ihLeft ihRight => exact .concat ihLeft ihRight
    | word name =>
      rw [eval]
      cases hlookup : (scopeFrom .empty context).lookup name with
      | none => exact .free (lookup_scopeFrom_eq_none.1 hlookup)
      | some value =>
        obtain ⟨expr, place, hbound, rfl⟩ := lookup_scopeFrom.1 hlookup
        exact .bound hbound (ih _ (hlen ▸ hbound.length_lt) place expr rfl)

theorem hasValue_iff :
    HasValue context expr value ↔ eval (scopeFrom .empty context) expr = value := by
  constructor
  · intro h
    induction h with
    | str => rfl
    | url => rfl
    | bound hbound _ ih => rw [eval, lookup_scopeFrom.2 ⟨_, _, hbound, ih⟩, Option.getD_some]
    | free hfree => rw [eval, lookup_scopeFrom_eq_none.2 hfree, Option.getD_none]
    | concat _ _ ihLeft ihRight => rw [eval, ihLeft, ihRight]
  · rintro rfl
    exact hasValue_eval context expr

/-! ## Visits -/

/-- A visit under way comes to a line. -/
inductive Visitor.ComesTo : Visitor → List Node → List Nat → Visitor → Node → Prop where
  | here {v : Visitor} {node : Node} {rest : List Node} : ComesTo v (node :: rest) [0] v node
  | inside {v w : Visitor} {header : Text} {line indent : Nat} {inner rest : List Node}
      {address : List Nat} {node : Node} :
      ComesTo { v with scope := v.scope.push } inner address w node →
      ComesTo v (.block header line indent inner :: rest) (0 :: address) w node
  | later {v w : Visitor} {first : Node} {rest : List Node} {i : Nat} {address : List Nat}
      {node : Node} :
      ComesTo (visitNode v first) rest (i :: address) w node →
      ComesTo v (first :: rest) ((i + 1) :: address) w node

theorem LineAt.ne_nil (h : LineAt nodes address context node) : context ≠ [] := by
  cases h <;> exact List.cons_ne_nil _ _

theorem LineAt.exists_cons (h : LineAt nodes address context node) :
    ∃ i below, address = i :: below := by
  cases h <;> exact ⟨_, _, rfl⟩

/-- A visit comes to each line, with the scope behind the lines before it. -/
theorem LineAt.comesTo (h : LineAt nodes address context node) (v : Visitor) :
    ∃ w, Visitor.ComesTo v nodes address w node ∧ w.scope = scopeFrom v.scope context := by
  induction h generalizing v with
  | here => exact ⟨v, .here, rfl⟩
  | inside h ih =>
    obtain ⟨w, hcomes, hscope⟩ := ih { v with scope := v.scope.push }
    refine ⟨w, .inside hcomes, hscope.trans ?_⟩
    obtain ⟨before, context, rfl⟩ := List.exists_cons_of_ne_nil h.ne_nil
    rfl
  | later _ ih =>
    obtain ⟨w, hcomes, hscope⟩ := ih (v.visitNode _)
    refine ⟨w, .later hcomes, hscope.trans ?_⟩
    rw [Visitor.visitNode_eq]
    rfl

theorem Visitor.ComesTo.unique {v w w' : Visitor} {node' : Node}
    (h : ComesTo v nodes address w node) (h' : ComesTo v nodes address w' node') :
    w' = w ∧ node' = node := by
  induction h with
  | here =>
    cases h' with
    | here => exact ⟨rfl, rfl⟩
    | inside h' => cases h'
  | inside h ih =>
    cases h' with
    | here => cases h
    | inside h' => exact ih h'
  | later _ ih =>
    cases h' with
    | later h' => exact ih h'

/-! ## What blocks leave alone -/

/-- Two sheets that differ at most in what is below the line at an address. -/
inductive ChangedBelow : List Nat → List Node → List Node → Prop where
  | here {header : Text} {line indent : Nat} {inner inner' rest : List Node} :
      ChangedBelow [0] (.block header line indent inner :: rest)
        (.block header line indent inner' :: rest)
  | inside {header : Text} {line indent : Nat} {address : List Nat}
      {inner inner' rest : List Node} :
      ChangedBelow address inner inner' →
      ChangedBelow (0 :: address) (.block header line indent inner :: rest)
        (.block header line indent inner' :: rest)
  | later {first : Node} {i : Nat} {address : List Nat} {rest rest' : List Node} :
      ChangedBelow (i :: address) rest rest' →
      ChangedBelow ((i + 1) :: address) (first :: rest) (first :: rest')

/-- What is below a line plays no part outside it. -/
theorem ChangedBelow.exists_lineAt {block : List Nat} {nodes' : List Node}
    (hchanged : ChangedBelow block nodes nodes') (h : LineAt nodes address context node)
    (houtside : block <+: address → block = address) (scope : Scope) :
    ∃ context' node', LineAt nodes' address context' node' ∧ node'.alone = node.alone ∧
      scopeFrom scope context' = scopeFrom scope context := by
  induction hchanged generalizing address context scope with
  | here =>
    cases h with
    | here => exact ⟨_, _, .here, rfl, rfl⟩
    | inside h =>
      have heq := houtside (List.prefix_append [0] _)
      cases heq
      cases h
    | later h => exact ⟨_, _, .later h, rfl, rfl⟩
  | inside _ ih =>
    cases h with
    | here => exact ⟨_, _, .here, rfl, rfl⟩
    | inside h =>
      obtain ⟨context', node', h', halone, hscope⟩ := ih h (by simpa using houtside) scope.push
      refine ⟨_, node', .inside h', halone, ?_⟩
      obtain ⟨_, _, rfl⟩ := List.exists_cons_of_ne_nil h.ne_nil
      obtain ⟨_, _, rfl⟩ := List.exists_cons_of_ne_nil h'.ne_nil
      exact hscope
    | later h => exact ⟨_, _, .later h, rfl, rfl⟩
  | @later first _ _ _ _ _ ih =>
    cases h with
    | here => exact ⟨_, _, .here, rfl, rfl⟩
    | inside h => exact ⟨_, _, .inside h, rfl, rfl⟩
    | later h =>
      obtain ⟨context', node', h', halone, hscope⟩ :=
        ih h (by simpa using houtside) (scope.after first)
      obtain ⟨_, _, rfl⟩ := List.exists_cons_of_ne_nil h'.ne_nil
      exact ⟨_, node', .later h', halone, hscope⟩

/-! ## Imports -/

theorem lineAt_cons (first : Node) (rest : List Node) :
    LineAt (first :: rest) address context node ↔
      LineAt [first] address context node ∨
      ∃ i below before around, address = (i + 1) :: below ∧ context = (first :: before) :: around ∧
        LineAt rest (i :: below) (before :: around) node := by
  constructor
  · rintro (_ | h | h)
    · exact .inl .here
    · exact .inl (.inside h)
    · exact .inr ⟨_, _, _, _, rfl, rfl, h⟩
  · rintro ((_ | h | h) | ⟨_, _, _, _, rfl, rfl, h⟩)
    · exact .here
    · exact .inside h
    · cases h
    · exact .later h

theorem mem_step_iff {step : Step} (scope : Scope)
    (hnode : ∀ header line indent inner, node ≠ .block header line indent inner) :
    step ∈ [node.step scope] ↔ ∃ address context line,
      LineAt [node] address context line ∧ step = line.step (scopeFrom scope context) := by
  rw [List.mem_singleton]
  constructor
  · rintro rfl
    exact ⟨_, _, _, .here, rfl⟩
  · rintro ⟨_, _, _, _ | _ | h, rfl⟩
    · rfl
    · exact absurd rfl (hnode _ _ _ _)
    · cases h

mutual

/-- The steps of a line are its own and those of the lines below it, each in the scope behind the
lines before it. -/
theorem mem_stepsOfNode {step : Step} (scope : Scope) : (node : Node) →
    (step ∈ stepsOfNode scope node ↔ ∃ address context line,
      LineAt [node] address context line ∧ step = line.step (scopeFrom scope context))
  | .statement text line indent => by
    show step ∈ [(Node.statement text line indent).step scope] ↔ _
    exact mem_step_iff scope (by simp)
  | .assignment name value text line indent => by
    show step ∈ [(Node.assignment name value text line indent).step scope] ↔ _
    exact mem_step_iff scope (by simp)
  | .request kind paths position indent => by
    show step ∈ [(Node.request kind paths position indent).step scope] ↔ _
    exact mem_step_iff scope (by simp)
  | .block header line indent nodes => by
    rw [stepsOfNode, List.mem_cons, mem_stepsOf scope.push nodes]
    constructor
    · rintro (rfl | ⟨address, context, line, h, rfl⟩)
      · exact ⟨_, _, _, .here, rfl⟩
      · refine ⟨_, _, line, .inside h, ?_⟩
        obtain ⟨_, _, rfl⟩ := List.exists_cons_of_ne_nil h.ne_nil
        rfl
    · rintro ⟨_, _, line, _ | h | h, rfl⟩
      · exact .inl rfl
      · refine .inr ⟨_, _, line, h, ?_⟩
        obtain ⟨_, _, rfl⟩ := List.exists_cons_of_ne_nil h.ne_nil
        rfl
      · cases h

theorem mem_stepsOf {step : Step} (scope : Scope) : (nodes : List Node) →
    (step ∈ stepsOf scope nodes ↔ ∃ address context line,
      LineAt nodes address context line ∧ step = line.step (scopeFrom scope context))
  | [] => by
    constructor
    · intro h
      cases h
    · rintro ⟨_, _, _, h, -⟩
      cases h
  | node :: rest => by
    rw [stepsOf, List.mem_append, mem_stepsOfNode scope node, mem_stepsOf (scope.after node) rest]
    simp only [lineAt_cons node rest, or_and_right, exists_or]
    refine or_congr_right ⟨?_, ?_⟩
    · rintro ⟨address, context, line, h, rfl⟩
      obtain ⟨i, below, rfl⟩ := h.exists_cons
      obtain ⟨before, around, rfl⟩ := List.exists_cons_of_ne_nil h.ne_nil
      exact ⟨_, _, line, ⟨i, below, before, around, rfl, rfl, h⟩, rfl⟩
    · rintro ⟨_, _, line, ⟨i, below, before, around, rfl, rfl, h⟩, rfl⟩
      exact ⟨_, _, line, h, rfl⟩

end

theorem import?_step_eq_some {i : Import} :
    (node.step scope).import? = some i ↔ ∃ expr paths indent,
      node = .request i.kind (expr :: paths) i.position indent ∧
        eval scope expr = .str i.specifier ∧ i.specifier ≠ [] ∧
        Specifier.isExternal i.specifier = false := by
  rw [Step.import?_eq_some]
  constructor
  · rintro ⟨indent, hstep, hnamed⟩
    cases node with
    | request kind paths position indent =>
      cases paths with
      | nil => simp [Node.step] at hstep
      | cons expr paths =>
        simp only [Node.step, List.head?_cons, Option.map_some, Step.request.injEq,
          Option.some.injEq] at hstep
        obtain ⟨rfl, rfl, rfl, hvalue⟩ := hstep
        exact ⟨expr, paths, indent, rfl, hvalue, hnamed⟩
    | _ => cases hstep
  · rintro ⟨expr, paths, indent, rfl, hvalue, hnamed⟩
    exact ⟨indent, by simp [Node.step, hvalue], hnamed⟩

/-- A visitor comes to each line of a sheet once. A name then has the value of the latest assignment
among the lines before in the innermost block that has one there, which was evaluated by the same
rule at its own place; a name that no line before assigns stands for itself. What is below a line
does not change what is seen outside it. The imports of the sheet, which the visitor collects, are
exactly those whose first path has by this rule a text that can name a file. -/
theorem Visitor.lexically_scoped (sheet : List Node) :
    (∀ {address context node}, LineAt sheet address context node →
      ∃ v, (∀ w other, ComesTo start sheet address w other ↔ w = v ∧ other = node) ∧
        (∀ name value, v.scope.lookup name = some value ↔
          ∃ expr place, BoundBy context name expr place ∧ HasValue place expr value) ∧
        (∀ name, v.scope.lookup name = none ↔ ∀ lines ∈ context, Free name lines) ∧
        ∀ expr value, eval v.scope expr = value ↔ HasValue context expr value) ∧
    (∀ {block sheet' address context node}, ChangedBelow block sheet sheet' →
      LineAt sheet address context node → (block <+: address → block = address) →
        ∃ v v' node', ComesTo start sheet address v node ∧
          ComesTo start sheet' address v' node' ∧ v'.scope = v.scope ∧
          node'.alone = node.alone) ∧
    visit sheet = importsOf sheet ∧
    ∀ i, i ∈ importsOf sheet ↔ ∃ address context expr paths indent,
      LineAt sheet address context (.request i.kind (expr :: paths) i.position indent) ∧
        HasValue context expr (.str i.specifier) ∧ i.specifier ≠ [] ∧
        Specifier.isExternal i.specifier = false := by
  refine ⟨fun {address context node} h => ?comes, fun hchanged h houtside => ?outside,
    visit_eq sheet, fun i => ?imports⟩
  case comes =>
    -- The scope of the visit at a line is the one told by the lines before it.
    obtain ⟨v, hcomes, hscope⟩ := h.comesTo start
    refine ⟨v, fun w other => ⟨hcomes.unique, ?_⟩, ?_, ?_, ?_⟩
    · rintro ⟨rfl, rfl⟩
      exact hcomes
    · intro name value
      rw [hscope]
      simp only [hasValue_iff]
      exact lookup_scopeFrom
    · intro name
      rw [hscope]
      exact lookup_scopeFrom_eq_none
    · intro expr value
      rw [hscope]
      exact hasValue_iff.symm
  case outside =>
    obtain ⟨context', node', h', halone, hscope'⟩ := hchanged.exists_lineAt h houtside start.scope
    obtain ⟨v, hcomes, hscope⟩ := h.comesTo start
    obtain ⟨w, hcomes', hw⟩ := h'.comesTo start
    exact ⟨v, w, node', hcomes, hcomes', by rw [hw, hscope', hscope], halone⟩
  case imports =>
    rw [importsOf, List.mem_filterMap]
    simp only [mem_stepsOf, hasValue_iff]
    constructor
    · rintro ⟨_, ⟨address, context, node, h, rfl⟩, hstep⟩
      obtain ⟨expr, paths, indent, rfl, himport⟩ := import?_step_eq_some.1 hstep
      exact ⟨address, context, expr, paths, indent, h, himport⟩
    · rintro ⟨address, context, expr, paths, indent, h, himport⟩
      have hstep := import?_step_eq_some.2 ⟨expr, paths, indent, rfl, himport⟩
      exact ⟨_, ⟨address, context, _, h, rfl⟩, hstep⟩

/-- A block that assigns a name again, by the value the name had before the block. -/
def shadowingSheet (inner : List Node) : List Node :=
  [.assignment "$a" (.str "x") "$a = 'x'" 1 0, .block ".b" 2 0 inner,
    .request .always [.word "$a"] ⟨5, 1⟩ 0]

def shadowingLines : List Node :=
  [.assignment "$a" (.concat (.word "$a") (.str "y")) "$a = $a + 'y'" 3 2,
    .request .always [.word "$a"] ⟨4, 3⟩ 2]

theorem Visitor.lexically_scoped_shadowing :
    (∃ v context node, ComesTo start (shadowingSheet shadowingLines) [1, 1] v node ∧
      LineAt (shadowingSheet shadowingLines) [1, 1] context node ∧
      (v.scope.lookup "$a" = none ↔ ∀ lines ∈ context, Free "$a" lines)) ∧
    (∃ v v' node, ComesTo start (shadowingSheet shadowingLines) [2] v node ∧
      ComesTo start (shadowingSheet []) [2] v' node ∧ v'.scope = v.scope) ∧
    ∃ address context expr paths indent, LineAt (shadowingSheet shadowingLines) address context
      (.request .always (expr :: paths) ⟨4, 3⟩ indent) ∧ HasValue context expr (.str "xy") := by
  obtain ⟨hcomes, houtside, -, himports⟩ := lexically_scoped (shadowingSheet shadowingLines)
  have hinside : LineAt (shadowingSheet shadowingLines) [1, 1] _ _ :=
    .later (.inside (.later .here))
  have hbehind : LineAt (shadowingSheet shadowingLines) [2] _ _ := .later (.later .here)
  have hchanged : ChangedBelow [1] (shadowingSheet shadowingLines) (shadowingSheet []) :=
    .later .here
  refine ⟨?_, ?_, ?_⟩
  · obtain ⟨v, hat, -, hfree, -⟩ := hcomes hinside
    exact ⟨v, _, _, (hat v _).2 ⟨rfl, rfl⟩, hinside, hfree "$a"⟩
  · obtain ⟨v, v', node', hv, hv', hscope, halone⟩ := houtside hchanged hbehind (by decide)
    have hnode : node' = .request .always [.word "$a"] ⟨5, 1⟩ 0 := by
      cases node' <;> simp_all [Node.alone]
    exact ⟨v, v', _, hv, hnode ▸ hv', hscope⟩
  · obtain ⟨address, context, expr, paths, indent, hline, hvalue, -⟩ :=
      (himports ⟨"xy", ⟨4, 3⟩, .always⟩).1 (by decide +kernel)
    exact ⟨address, context, expr, paths, indent, hline, hvalue⟩

end Sheet

end StyleImports
