import StyleImports.Graph.Basic
import StyleImports.Specifier.Basic

/-!
# What an index says about an import

While a stylesheet is rendered, its import graph tells which files an import stands for. Where the
graph has no answer the renderer looks the import up itself; if the graph knows why, the reason is
kept for the error.
-/

set_option autoImplicit false

namespace StyleImports

/-- What becomes of an import: it stands for given files, or it is looked up. -/
inductive Decision where
  | substitute (paths : List Path)
  | defer (detail : Option Text)
  deriving DecidableEq, Repr

namespace Index

/-- What the graph says about an import of a file. URLs are left to the renderer. -/
def decision (index : Index) (file : Path) (position : Position) (specifier : Text) : Decision :=
  if Specifier.isUrl specifier then .defer none
  else
    match index.lookup file position specifier with
    | none => .defer none
    | some ⟨_, _, .failed message⟩ => .defer (some message)
    | some ⟨_, _, target⟩ => .substitute target.paths

end Index

end StyleImports
