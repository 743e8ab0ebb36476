import StyleImports.Files.Memory
import StyleImports.Loader.Basic
import StyleImports.Proofs.Sheet.Quoted
import StyleImports.Proofs.Sheet.Shift
import StyleImports.Request.Resolver

/-!
# Imports before a source

The imports that a loader puts before a source are rows of their own: a specifier of one line is
read back as it is, whatever it holds, and no row opens a comment, a quote or a block that goes on
in the source (`parseFrom_importLines`). So the source is read as it is alone, some lines further
down (`parse_prepare`).
-/

set_option autoImplicit false

namespace StyleImports

/-- The imports of specifiers on rows of their own, from a line on. -/
def Node.importsFrom (number : Nat) (specifiers : List Text) : List Node :=
  specifiers.mapIdx fun i specifier => .request .always [.str specifier] ⟨number + i, 1⟩ 0

namespace Loader

theorem importLine_eq (specifier : Text) :
    importLine specifier = Sheet.quotedRow .always specifier ++ ['\n'] := by
  simp [importLine, quote, Sheet.quotedRow, Sheet.escaped]

/-- The imports before a source take a line each. -/
theorem parseFrom_importLines (number : Nat) {specifiers : List Text}
    (h : ∀ specifier ∈ specifiers, '\n' ∉ specifier) (source : Text) :
    Sheet.parseFrom number (specifiers.flatMap importLine ++ source) =
      Sheet.preceded (Node.importsFrom number specifiers)
        (Sheet.parseFrom (number + specifiers.length) source) := by
  induction specifiers generalizing number with
  | nil =>
    rw [List.flatMap_nil, List.nil_append, List.length_nil, Nat.add_zero]
    cases Sheet.parseFrom number source <;> rfl
  | cons specifier specifiers ih =>
    obtain ⟨hfirst, hrest⟩ := List.forall_mem_cons.1 h
    rw [List.flatMap_cons, importLine_eq, List.append_assoc, List.append_assoc,
      List.singleton_append, Sheet.parseFrom_quotedRow _ _ hfirst, ih _ hrest, List.length_cons,
      Nat.add_assoc, Nat.add_comm 1]
    cases Sheet.parseFrom (number + (specifiers.length + 1)) source with
    | error e => rfl
    | ok nodes =>
      simp [Sheet.preceded, Node.importsFrom, List.mapIdx_cons, Nat.add_comm, Nat.add_left_comm]

/-- Without a header, the specifiers that a loader is given make the first lines of a source, each
an import with the specifier as its only path. What comes after them is what the source makes by
itself, as many lines further down, be it a tree or an error. -/
theorem parse_prepare (l : Loader) (source : Text) (hheader : l.options.header = none)
    (himports : ∀ specifier ∈ l.options.imports, '\n' ∉ specifier) :
    Sheet.parse (l.prepare source) =
      match Sheet.parse source with
      | .ok nodes => .ok (Node.importsFrom 1 l.options.imports ++
          Node.shiftAll l.options.imports.length nodes)
      | .error e => .error (e.shift l.options.imports.length) := by
  have hprepare : l.prepare source = l.options.imports.flatMap importLine ++ source := by
    rw [prepare, hheader]
    rfl
  rw [hprepare, Sheet.parse_eq_parseFrom, parseFrom_importLines 1 himports, Sheet.parseFrom_add,
    Sheet.parse_eq_parseFrom]
  cases Sheet.parseFrom 1 source <;> rfl

/-- Specifiers that look like the end of a string, a comment, and the end of a statement. -/
def marked : Loader where
  fs := (Memory.empty ⟨"/p".toList⟩).fileSystem
  options := { imports := ["a\"b\\c", "// d /* e", "'f';"].map String.toList }
  resolvers := ⟨RequestTable.empty.resolver, RequestTable.empty.resolver⟩

/-- A source with a block, and one that cannot be read. -/
theorem parse_prepare_marked :
    marked.options.header = none ∧ (∀ specifier ∈ marked.options.imports, '\n' ∉ specifier) ∧
    Sheet.parse (marked.prepare "g\n  @require h\n") =
      .ok [.request .always [.str "a\"b\\c"] ⟨1, 1⟩ 0,
        .request .always [.str "// d /* e"] ⟨2, 1⟩ 0,
        .request .always [.str "'f';"] ⟨3, 1⟩ 0,
        .block "g" 4 0 [.request .once [.word "h"] ⟨5, 3⟩ 2]] ∧
    Sheet.parse (marked.prepare "\n  @require") = .error ⟨⟨5, 3⟩, .missingPath .once⟩ := by
  have himports : ∀ specifier ∈ marked.options.imports, '\n' ∉ specifier := by decide
  refine ⟨rfl, himports, ?_, ?_⟩
  · have hlines : Sheet.linesOf "g\n  @require h\n" = [⟨1, 0, "g"⟩, ⟨2, 2, "@require h"⟩] := by
      decide +kernel
    have hbuilds : Sheet.Builds [⟨1, 0, "g"⟩, ⟨2, 2, "@require h"⟩]
        [.block "g" 1 0 [.request .once [.word "h"] ⟨2, 3⟩ 2]] :=
      .block (by decide) (by decide) (.request (by decide) rfl .nil) .nil
    rw [parse_prepare marked _ rfl himports, Sheet.parse, hlines, hbuilds.nodesOf_eq]
    rfl
  · have hlines : Sheet.linesOf "\n  @require" = [⟨2, 2, "@require"⟩] := by decide +kernel
    have hkind : Sheet.importKind? "@require" = some .once := by decide
    have hread : Sheet.readImport ⟨2, 2, "@require"⟩ .once =
        .error ⟨⟨2, 3⟩, .missingPath .once⟩ := by rfl
    rw [parse_prepare marked _ rfl himports, Sheet.parse, hlines]
    simp only [Sheet.nodesOf, hkind, hread]
    rfl

end Loader

end StyleImports
