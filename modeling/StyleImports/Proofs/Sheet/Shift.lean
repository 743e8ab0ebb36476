import StyleImports.Proofs.Sheet.Tree

/-!
# Lines further down

The number of a line is only carried along: lines that stand further down make the same tree with
its numbers raised, or the same error (`nodesOf_shift`), and so does a text whose lines are numbered
from a later one (`parseFrom_add`).
-/

set_option autoImplicit false

namespace StyleImports

/-! ## Raised line numbers -/

def Position.shift (n : Nat) (p : Position) : Position := { p with line := p.line + n }

def ParseError.shift (n : Nat) (e : ParseError) : ParseError :=
  { e with position := e.position.shift n }

def Sheet.Line.shift (n : Nat) (line : Line) : Line := { line with number := line.number + n }

namespace Node

mutual

/-- A line and what is below it, `n` lines further down. -/
def shift (n : Nat) : Node → Node
  | .statement text line indent => .statement text (line + n) indent
  | .assignment name value text line indent => .assignment name value text (line + n) indent
  | .request kind paths position indent => .request kind paths (position.shift n) indent
  | .block header line indent nodes => .block header (line + n) indent (shiftAll n nodes)

def shiftAll (n : Nat) : List Node → List Node
  | [] => []
  | node :: rest => shift n node :: shiftAll n rest

end

end Node

namespace Sheet

variable {line : Line} {lines : List Line} {n : Nat}

@[simp] theorem Line.shift_number (line : Line) (n : Nat) :
    (line.shift n).number = line.number + n := rfl

@[simp] theorem Line.shift_indent (line : Line) (n : Nat) : (line.shift n).indent = line.indent :=
  rfl

@[simp] theorem Line.shift_content (line : Line) (n : Nat) :
    (line.shift n).content = line.content := rfl

/-- What is read `n` lines further down. -/
def shifted (n : Nat) : Except ParseError (List Node) → Except ParseError (List Node)
  | .ok nodes => .ok (Node.shiftAll n nodes)
  | .error e => .error (e.shift n)

/-! ## Lines -/

theorem numberLines_add (number n : Nat) (rows : List Text) :
    numberLines (number + n) rows = (numberLines number rows).map (Line.shift n) := by
  induction rows generalizing number with
  | nil => rfl
  | cons row rows ih =>
    have hline : lineOf? (number + n) row = (lineOf? number row).map (Line.shift n) := by
      simp only [lineOf?]
      split <;> rfl
    rw [numberLines, numberLines, hline, Nat.add_right_comm, ih]
    cases lineOf? number row <;> rfl

theorem readImport_shift (line : Line) (kind : ImportKind) (n : Nat) :
    readImport (line.shift n) kind =
      match readImport line kind with
      | .ok node => .ok (node.shift n)
      | .error e => .error (e.shift n) := by
  simp only [readImport, Line.shift]
  split
  · rfl
  · split <;> rfl

theorem leafOf_shift (line : Line) (n : Nat) : leafOf (line.shift n) = (leafOf line).shift n := by
  simp only [leafOf, Line.shift]
  split
  · rfl
  · split
    · rfl
    · split <;> rfl

theorem firstIndent_shift (lines : List Line) (n : Nat) :
    firstIndent (lines.map (Line.shift n)) = firstIndent lines := by
  cases lines <;> rfl

theorem takeWhile_shift (lines : List Line) (n depth : Nat) :
    ((lines.map (Line.shift n)).takeWhile fun next => depth ≤ next.indent) =
      (lines.takeWhile fun next => depth ≤ next.indent).map (Line.shift n) :=
  List.takeWhile_map ..

theorem dropWhile_shift (lines : List Line) (n depth : Nat) :
    ((lines.map (Line.shift n)).dropWhile fun next => depth ≤ next.indent) =
      (lines.dropWhile fun next => depth ≤ next.indent).map (Line.shift n) :=
  List.dropWhile_map ..

/-! ## Trees -/

/-- Lines further down make the same tree further down, or the same error. -/
theorem nodesOf_shift (lines : List Line) (n : Nat) :
    nodesOf (lines.map (Line.shift n)) = shifted n (nodesOf lines) := by
  induction lines using nodesOf.induct with
  | case1 => simp [nodesOf, shifted, Node.shiftAll]
  | case2 line rest kind hkind e hread =>
    simp [nodesOf, hkind, readImport_shift, hread, shifted]
  | case3 line rest kind hkind node hread e hrest ih =>
    rw [hrest] at ih
    simp [nodesOf, hkind, readImport_shift, hread, hrest, ih, shifted]
  | case4 line rest kind hkind node hread more hrest ih =>
    rw [hrest] at ih
    simp [nodesOf, hkind, readImport_shift, hread, hrest, ih, shifted, Node.shiftAll]
  | case5 line rest hkind hdeeper e hinner ihInner =>
    rw [hinner] at ihInner
    simp [nodesOf, hkind, hdeeper, firstIndent_shift, takeWhile_shift, hinner, ihInner, shifted]
  | case6 line rest hkind hdeeper inner hinner e hrest ihInner ih =>
    rw [hinner] at ihInner
    rw [hrest] at ih
    simp [nodesOf, hkind, hdeeper, firstIndent_shift, takeWhile_shift, dropWhile_shift, hinner,
      ihInner, hrest, ih, shifted]
  | case7 line rest hkind hdeeper inner hinner more hrest ihInner ih =>
    rw [hinner] at ihInner
    rw [hrest] at ih
    simp [nodesOf, hkind, hdeeper, firstIndent_shift, takeWhile_shift, dropWhile_shift, hinner,
      ihInner, hrest, ih, shifted, Node.shiftAll, Node.shift]
  | case8 line rest hkind hflat e hrest ih =>
    rw [hrest] at ih
    simp [nodesOf, hkind, hflat, firstIndent_shift, hrest, ih, shifted]
  | case9 line rest hkind hflat more hrest ih =>
    rw [hrest] at ih
    simp [nodesOf, hkind, hflat, firstIndent_shift, hrest, ih, shifted, leafOf_shift,
      Node.shiftAll]

/-- The tree of a text whose lines are numbered from `number` on. -/
def parseFrom (number : Nat) (source : Text) : Except ParseError (List Node) :=
  nodesOf (numberLines number (Text.lines (stripComments source)))

theorem parse_eq_parseFrom (source : Text) : parse source = parseFrom 1 source := rfl

theorem parseFrom_add (number n : Nat) (source : Text) :
    parseFrom (number + n) source = shifted n (parseFrom number source) := by
  rw [parseFrom, numberLines_add, nodesOf_shift]
  rfl

end Sheet

end StyleImports
