import Mathlib.Data.List.Basic
import StyleImports.Sheet.Parse

/-!
# How lines make a tree

Lines that can be read make a tree by three rules: an import takes its own line, a block the lines
below its header, and any other line stands for itself (`Builds`, `builds_of_nodesOf`). Nothing but
an import keeps lines from being read (`exists_import_of_error`).
-/

set_option autoImplicit false

namespace StyleImports.Sheet

variable {line : Line} {lines : List Line} {nodes : List Node}

/-! ## Lines -/

/-- What an import line starts with, and that the keyword ends there. -/
theorem exists_rest_of_importKind? {content : Text} {kind : ImportKind}
    (h : importKind? content = some kind) :
    ∃ rest, content = kind.keyword ++ rest ∧ endsKeyword rest = true := by
  rw [importKind?] at h
  split at h
  case h_1 rest hrest =>
    split at h
    case isTrue hends =>
      cases h
      exact ⟨rest, (List.isPrefixOf?_eq_some_iff_append_eq.1 hrest).symm, hends⟩
    case isFalse => cases h
  case h_2 =>
    split at h
    case h_1 rest hrest =>
      split at h
      case isTrue hends =>
        cases h
        exact ⟨rest, (List.isPrefixOf?_eq_some_iff_append_eq.1 hrest).symm, hends⟩
      case isFalse => cases h
    case h_2 => cases h

theorem exists_request_of_readImport {kind : ImportKind} {node : Node}
    (h : readImport line kind = .ok node) :
    ∃ paths, node = .request kind paths ⟨line.number, line.indent + 1⟩ line.indent := by
  rw [readImport] at h
  split at h
  · cases h
  · split at h
    · cases h
    · cases h
      exact ⟨_, rfl⟩

theorem leafOf_cases (line : Line) :
    leafOf line = .statement line.content line.number line.indent ∨
      ∃ name value, leafOf line = .assignment name value line.content line.number line.indent := by
  rw [leafOf]
  split
  · exact .inl rfl
  · split
    · exact .inl rfl
    · dsimp only
      split
      · exact .inr ⟨_, _, rfl⟩
      · exact .inl rfl

/-! ## Trees -/

/-- The tree that lines make. -/
inductive Builds : List Line → List Node → Prop where
  | nil : Builds [] []
  | request {line : Line} {rest : List Line} {kind : ImportKind} {paths : List PathExpr}
      {nodes : List Node} :
      importKind? line.content = some kind →
      readImport line kind =
        .ok (.request kind paths ⟨line.number, line.indent + 1⟩ line.indent) →
      Builds rest nodes →
      Builds (line :: rest)
        (.request kind paths ⟨line.number, line.indent + 1⟩ line.indent :: nodes)
  | block {line : Line} {rest : List Line} {inner nodes : List Node} :
      importKind? line.content = none → line.indent < firstIndent rest →
      Builds (rest.takeWhile fun next => firstIndent rest ≤ next.indent) inner →
      Builds (rest.dropWhile fun next => firstIndent rest ≤ next.indent) nodes →
      Builds (line :: rest) (.block line.content line.number line.indent inner :: nodes)
  | leaf {line : Line} {rest : List Line} {nodes : List Node} :
      importKind? line.content = none → ¬ line.indent < firstIndent rest → Builds rest nodes →
      Builds (line :: rest) (leafOf line :: nodes)

theorem builds_of_nodesOf (h : nodesOf lines = .ok nodes) : Builds lines nodes := by
  induction lines using nodesOf.induct generalizing nodes with
  | case1 =>
    rw [nodesOf] at h
    cases h
    exact .nil
  | case2 line rest kind hkind e hread => simp [nodesOf, hkind, hread] at h
  | case3 line rest kind hkind node hread e hrest => simp [nodesOf, hkind, hread, hrest] at h
  | case4 line rest kind hkind node hread more hrest ih =>
    simp only [nodesOf, hkind, hread, hrest, Except.ok.injEq] at h
    obtain ⟨paths, rfl⟩ := exists_request_of_readImport hread
    exact h ▸ .request hkind hread (ih hrest)
  | case5 line rest hkind hdeeper e hinner => simp [nodesOf, hkind, hdeeper, hinner] at h
  | case6 line rest hkind hdeeper inner hinner e hrest =>
    simp [nodesOf, hkind, hdeeper, hinner, hrest] at h
  | case7 line rest hkind hdeeper inner hinner more hrest ihInner ih =>
    simp only [nodesOf, hkind, hdeeper, if_true, hinner, hrest, Except.ok.injEq] at h
    exact h ▸ .block hkind hdeeper (ihInner hinner) (ih hrest)
  | case8 line rest hkind hflat e hrest => simp [nodesOf, hkind, hflat, hrest] at h
  | case9 line rest hkind hflat more hrest ih =>
    simp only [nodesOf, hkind, hflat, if_false, hrest, Except.ok.injEq] at h
    exact h ▸ .leaf hkind hflat (ih hrest)

theorem Builds.nodesOf_eq (h : Builds lines nodes) : nodesOf lines = .ok nodes := by
  induction h with
  | nil => rw [nodesOf]
  | request hkind hread _ ih => simp only [nodesOf, hkind, hread, ih]
  | block hkind hdeeper _ _ ihInner ih => simp only [nodesOf, hkind, hdeeper, if_true, ihInner, ih]
  | leaf hkind hflat _ ih => simp only [nodesOf, hkind, hflat, if_false, ih]

/-- Lines that cannot be read hold an import that cannot be read. -/
theorem exists_import_of_error {e : ParseError} (h : nodesOf lines = .error e) :
    ∃ line ∈ lines, ∃ kind, importKind? line.content = some kind ∧
      readImport line kind = .error e := by
  induction lines using nodesOf.induct with
  | case1 =>
    rw [nodesOf] at h
    cases h
  | case2 line rest kind hkind fault hread =>
    simp only [nodesOf, hkind, hread, Except.error.injEq] at h
    exact ⟨line, List.mem_cons_self, kind, hkind, h ▸ hread⟩
  | case3 line rest kind hkind node hread fault hrest ih =>
    simp only [nodesOf, hkind, hread, hrest, Except.error.injEq] at h
    obtain ⟨below, hbelow, hfaulty⟩ := ih (h ▸ hrest)
    exact ⟨below, List.mem_cons_of_mem _ hbelow, hfaulty⟩
  | case4 line rest kind hkind node hread more hrest => simp [nodesOf, hkind, hread, hrest] at h
  | case5 line rest hkind hdeeper fault hinner ih =>
    simp only [nodesOf, hkind, hdeeper, if_true, hinner, Except.error.injEq] at h
    obtain ⟨below, hbelow, hfaulty⟩ := ih (h ▸ hinner)
    exact ⟨below, List.mem_cons_of_mem _ ((List.takeWhile_sublist _).mem hbelow), hfaulty⟩
  | case6 line rest hkind hdeeper inner hinner fault hrest ihInner ih =>
    simp only [nodesOf, hkind, hdeeper, if_true, hinner, hrest, Except.error.injEq] at h
    obtain ⟨below, hbelow, hfaulty⟩ := ih (h ▸ hrest)
    exact ⟨below, List.mem_cons_of_mem _ ((List.dropWhile_sublist _).mem hbelow), hfaulty⟩
  | case7 line rest hkind hdeeper inner hinner more hrest =>
    simp [nodesOf, hkind, hdeeper, hinner, hrest] at h
  | case8 line rest hkind hflat fault hrest ih =>
    simp only [nodesOf, hkind, hflat, if_false, hrest, Except.error.injEq] at h
    obtain ⟨below, hbelow, hfaulty⟩ := ih (h ▸ hrest)
    exact ⟨below, List.mem_cons_of_mem _ hbelow, hfaulty⟩
  | case9 line rest hkind hflat more hrest => simp [nodesOf, hkind, hflat, hrest] at h

end StyleImports.Sheet
