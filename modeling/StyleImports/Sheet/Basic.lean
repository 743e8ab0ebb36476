import StyleImports.Text.Basic

/-!
# Stylesheets

A stylesheet is a tree of lines by their indentation. Only what imports need is told apart: a line
that imports, with the expressions of its path, an assignment of a variable, and a line with more
indented lines below it. Any other line is kept as it is.
-/

set_option autoImplicit false

namespace StyleImports

/-- A place in a file, both numbers from one. -/
structure Position where
  line : Nat
  column : Nat
  deriving DecidableEq, Repr

namespace Position

def text (p : Position) : Text := Text.ofNat p.line ++ ":" ++ Text.ofNat p.column

def before (p q : Position) : Bool := p.line < q.line || (p.line = q.line && p.column < q.column)

end Position

/-- How often a file is put in: each time that it is imported, or the first time only. -/
inductive ImportKind where
  | always
  | once
  deriving DecidableEq, Repr

namespace ImportKind

def keyword : ImportKind → Text
  | always => "@import"
  | once => "@require"

end ImportKind

/-- The expression of an import path: a quoted text, a word or variable, the inside of `url(…)`,
or two expressions with `+` between them. -/
inductive PathExpr where
  | str (s : Text)
  | word (name : Text)
  | url (inner : Text)
  | concat (left right : PathExpr)
  deriving DecidableEq, Repr

/-- A line of a stylesheet with what is below it. Texts are without their indentation, which is
counted in characters. -/
inductive Node where
  | statement (text : Text) (line indent : Nat)
  | assignment (name : Text) (value : PathExpr) (text : Text) (line indent : Nat)
  | request (kind : ImportKind) (paths : List PathExpr) (position : Position) (indent : Nat)
  | block (header : Text) (line indent : Nat) (nodes : List Node)
  deriving Repr

/-- Why a line cannot be read. -/
inductive ParseFault where
  | missingPath (kind : ImportKind)
  | unexpected (c : Char)
  | expectedPath
  | unbalanced
  | unterminated
  deriving DecidableEq, Repr

namespace ParseFault

def message : ParseFault → Text
  | missingPath kind => kind.keyword ++ " is missing a path"
  | unexpected c => "unexpected '" ++ [c] ++ "'"
  | expectedPath => "expected a path expression"
  | unbalanced => "unbalanced parentheses"
  | unterminated => "unterminated string"

end ParseFault

/-- A fault and its place. -/
structure ParseError where
  position : Position
  fault : ParseFault
  deriving DecidableEq, Repr

namespace ParseError

def message (e : ParseError) : Text :=
  e.fault.message ++ " at line " ++ Text.ofNat e.position.line ++ ", column " ++
    Text.ofNat e.position.column

end ParseError

end StyleImports
