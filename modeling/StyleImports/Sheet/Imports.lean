import StyleImports.Sheet.Scope
import StyleImports.Specifier.Basic

/-!
# What a stylesheet does

Run from top to bottom, a stylesheet writes lines and asks for imports; `stepsOf` lists both in
order, with the value that the path of each import has there. The imports that name files are the
ones whose path is a text that is neither empty nor an external URL.
-/

set_option autoImplicit false

namespace StyleImports.Sheet

/-- A line that is written, or an import with the value of its first path. -/
inductive Step where
  | line (indent : Nat) (text : Text)
  | request (kind : ImportKind) (position : Position) (indent : Nat) (path : Option Value)
  deriving DecidableEq, Repr

/-- The scope after a line: an assignment adds to it. -/
def Scope.after (scope : Scope) : Node → Scope
  | .assignment name value _ _ _ => scope.define name (eval scope value)
  | _ => scope

mutual

/-- The steps of a line and of what is below it. What a block assigns is not seen outside it. -/
def stepsOfNode (scope : Scope) : Node → List Step
  | .statement text _ indent => [.line indent text]
  | .assignment _ _ text _ indent => [.line indent text]
  | .request kind paths position indent =>
    [.request kind position indent (paths.head?.map (eval scope))]
  | .block header _ indent nodes => .line indent header :: stepsOf scope.push nodes

def stepsOf (scope : Scope) : List Node → List Step
  | [] => []
  | node :: rest => stepsOfNode scope node ++ stepsOf (scope.after node) rest

end

/-- An import that names files. -/
structure Import where
  specifier : Text
  position : Position
  kind : ImportKind
  deriving DecidableEq, Repr

/-- The import that a step asks for, if its path can name a file. -/
def Step.import? : Step → Option Import
  | .request kind position _ (some (.str specifier)) =>
    if specifier = [] || Specifier.isExternal specifier then none
    else some ⟨specifier, position, kind⟩
  | _ => none

/-- The imports of a stylesheet in document order. -/
def importsOf (nodes : List Node) : List Import := (stepsOf .empty nodes).filterMap Step.import?

end StyleImports.Sheet
