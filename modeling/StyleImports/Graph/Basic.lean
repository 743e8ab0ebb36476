import StyleImports.Path.Table
import StyleImports.Sheet.Basic

/-!
# The import graph

Every file that was visited has an entry with its imports in document order; each import knows
where it stands, what it asked for and where it leads. An edge goes from a file to each path that
one of its imports leads to.
-/

set_option autoImplicit false

namespace StyleImports

/-- Where an import leads: to one file, to several in order, or nowhere. -/
inductive Target where
  | single (path : Path)
  | many (paths : List Path)
  | failed (message : Text)
  deriving DecidableEq, Repr

namespace Target

/-- One path makes a single target; any other number makes one of many. -/
def ofPaths : List Path → Target
  | [path] => .single path
  | paths => .many paths

def paths : Target → List Path
  | single path => [path]
  | many paths => paths
  | failed _ => []

def isFailed : Target → Bool
  | failed _ => true
  | _ => false

@[simp]
theorem paths_ofPaths (ps : List Path) : (ofPaths ps).paths = ps := by
  match ps with
  | [] => rfl
  | [_] => rfl
  | _ :: _ :: _ => rfl

theorem paths_of_isFailed {target : Target} (h : target.isFailed = true) : target.paths = [] := by
  cases target with
  | single path => cases h
  | many paths => cases h
  | failed message => rfl

end Target

/-- An import of a file and where it leads. -/
structure Dependency where
  position : Position
  specifier : Text
  target : Target
  deriving DecidableEq, Repr

/-- The imports of every visited file, by file. -/
abbrev Index := PathTable (List Dependency)

/-- An import edge: the import at a position of a file leads to the target. -/
structure Edge where
  file : Path
  position : Position
  target : Path
  deriving DecidableEq, Repr

namespace Index

/-- The import at a position of a file with the given specifier. -/
def lookup (index : Index) (file : Path) (position : Position) (specifier : Text) :
    Option Dependency :=
  match index.get? file with
  | none => none
  | some dependencies =>
    dependencies.find? fun d => d.position = position && d.specifier = specifier

/-- The edges of imports of a file, in order. -/
def edgesOf (file : Path) (dependencies : List Dependency) : List Edge :=
  dependencies.flatMap fun d => d.target.paths.map fun target => ⟨file, d.position, target⟩

def edgesFrom (index : Index) (file : Path) : List Edge :=
  edgesOf file ((index.get? file).getD [])

def targets (index : Index) : List Path :=
  index.entries.flatMap fun entry => entry.2.flatMap fun d => d.target.paths

end Index

end StyleImports
