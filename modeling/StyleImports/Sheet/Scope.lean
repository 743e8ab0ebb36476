import StyleImports.Sheet.Basic

/-!
# Variables

A variable is looked up in the innermost block that has assigned it. An expression is folded to a
text or to a URL; a word without a value stands for itself, and a URL swallows the texts added to
it.
-/

set_option autoImplicit false

namespace StyleImports.Sheet

/-- What a path expression comes to. -/
inductive Value where
  | str (s : Text)
  | url (u : Text)
  deriving DecidableEq, Repr

namespace Value

/-- The text, unless the value is a URL. -/
def text? : Value → Option Text
  | str s => some s
  | url _ => none

/-- Two values with `+` between them: texts are joined, and the leftmost URL wins. -/
def add : Value → Value → Value
  | str s, str t => .str (s ++ t)
  | url u, _ => .url u
  | str _, url u => .url u

end Value

/-- The assignments of one block, the latest first. -/
abbrev Frame := List (Text × Value)

/-- The assignments visible at a line: of the innermost block, then of the blocks around it. -/
structure Scope where
  inner : Frame
  outer : List Frame
  deriving DecidableEq, Repr

namespace Scope

def empty : Scope := ⟨[], []⟩

def push (s : Scope) : Scope := ⟨[], s.inner :: s.outer⟩

/-- Leaves a block; the outermost frame stays. -/
def pop (s : Scope) : Scope :=
  match s.outer with
  | [] => s
  | frame :: outer => ⟨frame, outer⟩

def define (s : Scope) (name : Text) (value : Value) : Scope :=
  { s with inner := (name, value) :: s.inner }

def findIn (name : Text) (frame : Frame) : Option Value :=
  (frame.find? fun binding => binding.1 = name).map (·.2)

def lookup (s : Scope) (name : Text) : Option Value := (s.inner :: s.outer).findSome? (findIn name)

end Scope

def eval (scope : Scope) : PathExpr → Value
  | .str s => .str s
  | .url u => .url u
  | .word name => (scope.lookup name).getD (.str name)
  | .concat left right => (eval scope left).add (eval scope right)

end StyleImports.Sheet
