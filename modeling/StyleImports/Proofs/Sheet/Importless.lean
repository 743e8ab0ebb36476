import StyleImports.Proofs.Sheet.Outline
import StyleImports.Sheet.Imports

/-!
# Stylesheets without imports

A stylesheet none of whose rows starts an import can be read, whatever its rows hold: every row that
is not blank makes a line, a row that looks like an assignment or has deeper rows below it as well.
Run from top to bottom it writes its rows, each once and in order
(`exists_parse_of_importless`), and asks for nothing.
-/

set_option autoImplicit false

namespace StyleImports.Sheet

variable {lines : List Line} {source row : Text}

/-! ## Rows -/

/-- An import keyword stands first on a row, after blanks, and ends there. -/
def StartsImport (row : Text) : Prop :=
  ∃ (kind : ImportKind) (rest : Text), Text.trim row = kind.keyword ++ rest ∧
    endsKeyword rest = true

/-- No row of the text starts an import; comments are blanked before. -/
def IsImportless (source : Text) : Prop :=
  ∀ row ∈ Text.lines (stripComments source), ¬ StartsImport row

/-- The row with a space for each blank at its start, and without the blanks at its end. -/
def respaced (row : Text) : Text :=
  List.replicate (row.takeWhile Text.isBlank).length ' ' ++ Text.trim row

/-- The rows that are not blank, respaced and each closed by a line feed; comments are blanked
before. -/
def respacedRows (source : Text) : Text :=
  (rowsOf source).flatMap fun row => respaced row.1 ++ ['\n']

theorem importKind?_eq_none_iff : importKind? (Text.trim row) = none ↔ ¬ StartsImport row := by
  constructor
  · rintro hnone ⟨kind, rest, hrow, hends⟩
    have hprefix : kind.keyword.isPrefixOf? (kind.keyword ++ rest) = some rest :=
      List.isPrefixOf?_eq_some_iff_append_eq.2 rfl
    rw [hrow] at hnone
    cases kind with
    | always => simp [importKind?, hprefix, hends] at hnone
    | once =>
      -- The keywords differ, so the other one does not stand there.
      have hother : ImportKind.always.keyword.isPrefixOf? (ImportKind.once.keyword ++ rest) =
          none := rfl
      simp [importKind?, hother, hprefix, hends] at hnone
  · intro hstarts
    rw [Option.eq_none_iff_forall_ne_some]
    intro kind hkind
    obtain ⟨rest, hrest, hends⟩ := exists_rest_of_importKind? hkind
    exact hstarts ⟨kind, rest, hrest, hends⟩

instance (row : Text) : Decidable (StartsImport row) :=
  decidable_of_iff (importKind? (Text.trim row) ≠ none) (by
    rw [ne_eq, importKind?_eq_none_iff, not_not])

instance (source : Text) : Decidable (IsImportless source) :=
  inferInstanceAs (Decidable (∀ row ∈ Text.lines (stripComments source), ¬ StartsImport row))

/-! ## Steps -/

/-- The step that a line without an import makes. -/
def Line.step (line : Line) : Step := .line line.indent line.content

theorem stepsOfNode_leafOf (scope : Scope) (line : Line) :
    stepsOfNode scope (leafOf line) = [line.step] := by
  rcases leafOf_cases line with h | ⟨name, value, h⟩ <;> rw [h] <;> rfl

theorem Builds.steps_eq {nodes : List Node} (hbuilds : Builds lines nodes)
    (h : ∀ line ∈ lines, importKind? line.content = none) (scope : Scope) :
    stepsOf scope nodes = lines.map Line.step := by
  induction hbuilds generalizing scope with
  | nil => rfl
  | request hkind => simp [h _ List.mem_cons_self] at hkind
  | block _ _ _ _ ihInner ih =>
    obtain ⟨_, hrest⟩ := List.forall_mem_cons.1 h
    rw [stepsOf, stepsOfNode, ihInner fun below hbelow => hrest below
        ((List.takeWhile_sublist _).mem hbelow),
      ih fun below hbelow => hrest below ((List.dropWhile_sublist _).mem hbelow),
      List.cons_append, ← List.map_append, List.takeWhile_append_dropWhile]
    rfl
  | leaf _ _ _ ih =>
    rw [stepsOf, stepsOfNode_leafOf, ih (List.forall_mem_cons.1 h).2]
    rfl

theorem mem_lines_of_mem_rowsOf {numbered : Text × Nat} (h : numbered ∈ rowsOf source) :
    numbered.1 ∈ Text.lines (stripComments source) ∧ ¬ numbered.1.all Text.isBlank = true := by
  obtain ⟨hmem, hblank⟩ := List.mem_filter.1 h
  exact ⟨List.fst_mem_of_mem_zipIdx hmem, by simpa using hblank⟩

/-- A stylesheet without imports can be read, and writes its rows. -/
theorem exists_parse_of_importless (h : IsImportless source) :
    ∃ nodes, parse source = .ok nodes ∧
      ∀ scope, stepsOf scope nodes = (linesOf source).map Line.step := by
  have hlines : ∀ line ∈ linesOf source, importKind? line.content = none := by
    intro line hline
    rw [linesOf_eq] at hline
    obtain ⟨row, hrow, rfl⟩ := List.mem_map.1 hline
    exact importKind?_eq_none_iff.2 (h row.1 (mem_lines_of_mem_rowsOf hrow).1)
  cases hparse : parse source with
  | error e =>
    obtain ⟨line, hline, kind, hkind, _⟩ := exists_import_of_error hparse
    rw [hlines line hline] at hkind
    cases hkind
  | ok nodes => exact ⟨nodes, rfl, (builds_of_nodesOf hparse).steps_eq hlines⟩

theorem importsOf_of_lines {nodes : List Node}
    (h : ∀ scope, stepsOf scope nodes = lines.map Line.step) : importsOf nodes = [] := by
  rw [importsOf, h, List.filterMap_map, List.filterMap_eq_nil_iff]
  exact fun _ _ => rfl

/-- The lines of a stylesheet, written out, are its respaced rows. -/
theorem map_linesOf (source : Text) :
    ((linesOf source).map fun line => List.replicate line.indent ' ' ++ line.content) =
      (rowsOf source).map fun row => respaced row.1 := by
  rw [linesOf_eq, List.map_map]
  rfl

theorem respaced_ne_nil (h : ¬ row.all Text.isBlank = true) : respaced row ≠ [] := by
  obtain ⟨_, kept, _, htrims⟩ := Text.exists_trims h
  rw [respaced, htrims.whole]
  simp [htrims.ne_nil]

end StyleImports.Sheet
