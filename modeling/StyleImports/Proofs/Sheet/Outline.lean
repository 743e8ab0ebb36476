import Mathlib.Data.List.Forall2
import Mathlib.Data.List.TakeWhile
import StyleImports.Proofs.Path.Parent
import StyleImports.Proofs.Sheet.Positions
import StyleImports.Proofs.Sheet.Tree

/-!
# The outline of a stylesheet

The outline of a tree of lines lists its nodes from top to bottom, the header of a block before what
is below it. The outline of a stylesheet is the list of its lines that are not blank: each makes one
node, with its number, its indentation and its text (`outline_of_lines`, `linesOf_eq`), and what is
below a block is deeper than its header (`outline_of_parse`).
-/

set_option autoImplicit false

namespace StyleImports

namespace Text

variable {p : Char → Bool} {t u : Text} {c : Char}

theorem dropEndWhile_of_all (h : t.all p = true) : dropEndWhile p t = [] := by
  induction t with
  | nil => rfl
  | cons c t ih =>
    simp only [List.all_cons, Bool.and_eq_true] at h
    rw [dropEndWhile, ih h.2]
    simp [h.1]

theorem dropEndWhile_append (h : dropEndWhile p u ≠ []) :
    dropEndWhile p (t ++ u) = t ++ dropEndWhile p u := by
  induction t with
  | nil => rfl
  | cons c t ih =>
    rw [List.cons_append, dropEndWhile, ih]
    obtain ⟨first, rest, hu⟩ := List.exists_cons_of_ne_nil h
    rw [hu]
    cases t <;> rfl

theorem exists_dropEndWhile_cons (h : p c = false) :
    ∃ kept, dropEndWhile p (c :: t) = c :: kept := by
  rw [dropEndWhile]
  cases dropEndWhile p t with
  | nil => exact ⟨[], by simp [h]⟩
  | cons first rest => exact ⟨first :: rest, rfl⟩

theorem exists_of_not_all (h : ¬ t.all p = true) :
    ∃ front c rest, t = front ++ c :: rest ∧ (∀ d ∈ front, p d = true) ∧ p c = false := by
  induction t with
  | nil => exact absurd rfl h
  | cons c t ih =>
    by_cases hc : p c = true
    · obtain ⟨front, d, rest, rfl, hfront, hd⟩ := ih (by simpa [hc] using h)
      exact ⟨c :: front, d, rest, rfl, by simpa [hc] using hfront, hd⟩
    · exact ⟨[], c, t, rfl, by simp, by simpa using hc⟩

/-- A row that is not blank has blanks at its start, and what is left of it trimmed starts the rest
of it. -/
structure Trims (row blanks kept rest : Text) : Prop where
  eq_append : row = blanks ++ rest
  takeWhile : row.takeWhile isBlank = blanks
  atEnd : trimEnd row = blanks ++ kept
  whole : trim row = kept
  ne_nil : kept ≠ []
  isPrefix : kept <+: rest

theorem exists_trims {row : Text} (h : ¬ row.all isBlank = true) :
    ∃ blanks kept rest, Trims row blanks kept rest := by
  obtain ⟨blanks, c, rest, rfl, hblanks, hc⟩ := exists_of_not_all h
  obtain ⟨kept, hkept⟩ := exists_dropEndWhile_cons (t := rest) hc
  have hend : Text.trimEnd (blanks ++ c :: rest) = blanks ++ c :: kept := by
    rw [Text.trimEnd, dropEndWhile_append (by simp [hkept]), hkept]
  have hstop : ∀ tail first, (c :: tail).head? = some first → isBlank first = false := by
    rintro tail first ⟨⟩
    exact hc
  refine ⟨blanks, c :: kept, c :: rest, rfl, ?_, hend, ?_, by simp, ?_⟩
  · exact (Text.takeWhile_append_stop hblanks (hstop rest)).1
  · rw [Text.trim, hend, Text.trimStart]
    exact (Text.takeWhile_append_stop hblanks (hstop kept)).2
  · rw [← hkept]
    exact dropEndWhile_isPrefix (c :: rest)

end Text

theorem exists_of_mem_of_forall₂ {α β : Type} {R : α → β → Prop} {xs : List α} {ys : List β}
    (h : List.Forall₂ R xs ys) {y : β} (hy : y ∈ ys) : ∃ x ∈ xs, R x y := by
  induction h with
  | nil => cases hy
  | cons hR _ ih =>
    rcases List.mem_cons.1 hy with rfl | hy
    · exact ⟨_, List.mem_cons_self, hR⟩
    · obtain ⟨x, hx, hxy⟩ := ih hy
      exact ⟨x, List.mem_cons_of_mem _ hx, hxy⟩

/-! ## Nodes -/

namespace Node

/-- The number of the line that a node stands on. -/
def line : Node → Nat
  | statement _ line _ => line
  | assignment _ _ _ line _ => line
  | request _ _ position _ => position.line
  | block _ line _ _ => line

def indent : Node → Nat
  | statement _ _ indent => indent
  | assignment _ _ _ _ indent => indent
  | request _ _ _ indent => indent
  | block _ _ indent _ => indent

/-- The text of a line, which an import does not keep. -/
def text? : Node → Option Text
  | statement text _ _ => some text
  | assignment _ _ text _ _ => some text
  | request _ _ _ _ => none
  | block header _ _ _ => some header

/-- The kind and the place of an import. -/
def request? : Node → Option (ImportKind × Position)
  | request kind _ position _ => some (kind, position)
  | _ => none

mutual

def outlineOf : Node → List Node
  | .block header line indent nodes => .block header line indent nodes :: outline nodes
  | node => [node]

/-- The nodes of a tree from top to bottom, the header of a block before what is below it. -/
def outline : List Node → List Node
  | [] => []
  | node :: rest => outlineOf node ++ outline rest

end

/-- A block has lines below it, all of them deeper than its header. -/
def IsNested : Node → Prop
  | .block _ _ indent nodes => nodes ≠ [] ∧ ∀ below ∈ outline nodes, indent < below.indent
  | _ => True

end Node

namespace Sheet

open Node (outline)

/-! ## Lines -/

/-- The rows of a text that are not blank, each with its number; comments are blanked before. -/
def rowsOf (source : Text) : List (Text × Nat) :=
  ((Text.lines (stripComments source)).zipIdx 1).filter fun row => !row.1.all Text.isBlank

theorem lineOf?_eq (number : Nat) (row : Text) :
    lineOf? number row =
      if row.all Text.isBlank then none
      else some ⟨number, (row.takeWhile Text.isBlank).length, Text.trim row⟩ := by
  split
  case isTrue hblank =>
    rw [lineOf?, Text.trimEnd, Text.dropEndWhile_of_all hblank]
    rfl
  case isFalse hblank =>
    obtain ⟨blanks, kept, rest, htrims⟩ := Text.exists_trims hblank
    have hlength : (Text.trimEnd row).length - kept.length = blanks.length := by
      rw [htrims.atEnd, List.length_append, Nat.add_sub_cancel]
    have hkept : Text.trimStart (Text.trimEnd row) = kept := htrims.whole
    obtain ⟨c, more, hcons⟩ := List.exists_cons_of_ne_nil htrims.ne_nil
    rw [hcons] at hlength hkept
    simp only [lineOf?, hkept, hlength, htrims.takeWhile, htrims.whole, hcons]

theorem numberLines_eq (number : Nat) (rows : List Text) :
    numberLines number rows =
      ((rows.zipIdx number).filter fun row => !row.1.all Text.isBlank).map fun row =>
        ⟨row.2, (row.1.takeWhile Text.isBlank).length, Text.trim row.1⟩ := by
  induction rows generalizing number with
  | nil => rfl
  | cons row rows ih =>
    rw [numberLines, lineOf?_eq, List.zipIdx_cons, List.filter_cons]
    by_cases hblank : row.all Text.isBlank = true
    · simp [hblank, ih]
    · simp [hblank, ih]

theorem linesOf_eq (source : Text) :
    linesOf source = (rowsOf source).map fun row =>
      ⟨row.2, (row.1.takeWhile Text.isBlank).length, Text.trim row.1⟩ :=
  numberLines_eq 1 _

/-! ## Trees -/

/-- A node is what a line is read as. -/
structure Line.Makes (line : Line) (node : Node) : Prop where
  number : node.line = line.number
  indent : node.indent = line.indent
  text : ∀ t, node.text? = some t → t = line.content
  request : ∀ kind position, node.request? = some (kind, position) →
    position.column = line.indent + 1 ∧ kind.keyword <+: line.content

variable {line : Line} {lines : List Line} {nodes : List Node} {source : Text}

theorem keyword_of_importKind? {content : Text} {kind : ImportKind}
    (h : importKind? content = some kind) : kind.keyword <+: content := by
  obtain ⟨rest, rfl, _⟩ := exists_rest_of_importKind? h
  exact List.prefix_append _ _

theorem Line.makes_leafOf (line : Line) : line.Makes (leafOf line) := by
  rcases leafOf_cases line with h | ⟨name, value, h⟩ <;> rw [h] <;>
    exact ⟨rfl, rfl, by simp [Node.text?, eq_comm], nofun⟩

theorem outlineOf_leafOf (line : Line) : Node.outlineOf (leafOf line) = [leafOf line] := by
  rcases leafOf_cases line with h | ⟨name, value, h⟩ <;> rw [h] <;> rfl

/-- The nodes of a tree are its lines, each once and in order. -/
theorem outline_of_lines (h : nodesOf lines = .ok nodes) :
    List.Forall₂ Line.Makes lines (outline nodes) := by
  have hbuilds := builds_of_nodesOf h
  clear h
  induction hbuilds with
  | nil => exact .nil
  | @request line rest kind paths nodes hkind hread _ ih =>
    have hmakes : line.Makes (.request kind paths ⟨line.number, line.indent + 1⟩ line.indent) := by
      refine ⟨rfl, rfl, by simp [Node.text?], fun kind' position hrequest => ?_⟩
      cases hrequest
      exact ⟨rfl, keyword_of_importKind? hkind⟩
    exact .cons hmakes ih
  | @block line rest inner nodes hkind hdeeper _ _ ihInner ih =>
    have hmakes : line.Makes (.block line.content line.number line.indent inner) :=
      ⟨rfl, rfl, by simp [Node.text?, eq_comm], by simp [Node.request?]⟩
    have hbelow : List.Forall₂ Line.Makes rest (outline inner ++ outline nodes) := by
      have happend := List.rel_append ihInner ih
      dsimp only at happend
      rwa [List.takeWhile_append_dropWhile] at happend
    exact .cons hmakes hbelow
  | leaf _ _ _ ih =>
    rw [outline, outlineOf_leafOf]
    exact .cons (Line.makes_leafOf _) ih

/-- What is below a block is deeper than its header. -/
theorem isNested_of_lines (h : nodesOf lines = .ok nodes) :
    ∀ node ∈ outline nodes, node.IsNested := by
  have hbuilds := builds_of_nodesOf h
  clear h
  induction hbuilds with
  | nil => simp [outline]
  | request _ _ _ ih => exact List.forall_mem_cons.2 ⟨trivial, ih⟩
  | @block line rest inner nodes hkind hdeeper hinner _ ihInner ih =>
    -- The first line after the header is deeper, so it is among the lines below.
    obtain ⟨next, more, rfl⟩ : ∃ next more, rest = next :: more :=
      List.exists_cons_of_ne_nil fun hnil => by simp [hnil, firstIndent] at hdeeper
    have hmakes := outline_of_lines hinner.nodesOf_eq
    have hinnerNe : inner ≠ [] := by
      rintro rfl
      rw [List.takeWhile_cons_of_pos (by simp [firstIndent])] at hmakes
      cases hmakes
    have hdeep : ∀ below ∈ outline inner, line.indent < below.indent := by
      intro below hbelow
      obtain ⟨made, hmade, hbelow⟩ := exists_of_mem_of_forall₂ hmakes hbelow
      rw [hbelow.indent]
      have := List.mem_takeWhile_imp hmade
      simp only [decide_eq_true_eq] at this
      omega
    refine List.forall_mem_cons.2 ⟨⟨hinnerNe, hdeep⟩, ?_⟩
    exact List.forall_mem_append.2 ⟨ihInner, ih⟩
  | @leaf line rest nodes _ _ _ ih =>
    have hleaf : (leafOf line).IsNested := by
      rcases leafOf_cases line with h | ⟨name, value, h⟩ <;> rw [h] <;> trivial
    rw [outline, outlineOf_leafOf]
    exact List.forall_mem_cons.2 ⟨hleaf, ih⟩

/-! ## Stylesheets -/

/-- A node stands for a row of text: it has its number, is indented by the blanks at its start, and
keeps its text without the blanks around it, unless it is an import. -/
structure StandsFor (row : Text × Nat) (node : Node) : Prop where
  number : node.line = row.2
  indent : node.indent = (row.1.takeWhile Text.isBlank).length
  text : ∀ t, node.text? = some t → t = Text.trim row.1

/-- The nodes of a stylesheet are its rows that are not blank, each once and in order. Every block
has lines below it, which are deeper than its header. -/
theorem outline_of_parse (h : parse source = .ok nodes) :
    List.Forall₂ StandsFor (rowsOf source) (outline nodes) ∧
      ∀ node ∈ outline nodes, node.IsNested := by
  refine ⟨?_, isNested_of_lines h⟩
  have hmakes := outline_of_lines h
  rw [linesOf_eq, List.forall₂_map_left_iff] at hmakes
  exact hmakes.imp fun row node hmade => ⟨hmade.number, hmade.indent, hmade.text⟩

def irregularSource : Text := "a\n    b\n\n  c = 'd' // e\n  @import c\n   f\n@require('g')\n"

/-- The third line is less deep than the second and deeper than the first. -/
theorem outline_of_parse_irregular : ∃ nodes,
    parse irregularSource = .ok nodes ∧
    rowsOf irregularSource = [("a", 1), ("    b", 2), ("  c = 'd' ", 4), ("  @import c", 5),
      ("   f", 6), ("@require('g')", 7)].map (fun row => (row.1.toList, row.2)) ∧
    List.Forall₂ StandsFor (rowsOf irregularSource) (outline nodes) ∧
    ∀ node ∈ outline nodes, node.IsNested := by
  have hok : (parse irregularSource).isOk = true := by decide +kernel
  cases h : parse irregularSource with
  | error e =>
    rw [h] at hok
    cases hok
  | ok nodes => exact ⟨nodes, rfl, by decide +kernel, outline_of_parse h⟩

end Sheet

end StyleImports
