import StyleImports.Text.Basic

/-!
# Comments

Comments are blanked before a stylesheet is cut into lines, so that every other character keeps
its line and column: a `/* … */` comment becomes blanks, with its line feeds kept, and a `//`
comment is dropped up to the end of its line. Inside quotes nothing is a comment; inside
parentheses `//` is part of a URL. Quotes and parentheses end with the line.
-/

set_option autoImplicit false

namespace StyleImports.Sheet

/-- Where a reader of comments stands. `depth` counts the open parentheses of the line. -/
inductive CommentState where
  /-- Outside quotes and comments. -/
  | code (depth : Nat)
  /-- Inside quotes of the given kind. -/
  | quoted (quote : Char) (depth : Nat)
  /-- Inside `/* … */`; `star` is set after a star that may end it. -/
  | block (star : Bool) (depth : Nat)
  /-- After `//`. -/
  | line
  deriving DecidableEq, Repr

/-- Blanks the comments of a text, from a state. -/
def stripFrom : CommentState → Text → Text
  | _, [] => []
  | .code depth, '/' :: '*' :: rest => ' ' :: ' ' :: stripFrom (.block false depth) rest
  | .code depth, '/' :: '/' :: rest =>
    if depth = 0 then stripFrom .line rest else '/' :: stripFrom (.code depth) ('/' :: rest)
  | .code depth, c :: rest =>
    if c = '\x22' || c = '\x27' then c :: stripFrom (.quoted c depth) rest
    else if c = '(' then c :: stripFrom (.code (depth + 1)) rest
    else if c = ')' then c :: stripFrom (.code (depth - 1)) rest
    else if c = '\n' then c :: stripFrom (.code 0) rest
    else c :: stripFrom (.code depth) rest
  | .quoted quote depth, '\\' :: c :: rest =>
    -- A string ends with its line, also behind a backslash.
    if c = '\n' then '\\' :: c :: stripFrom (.code 0) rest
    else '\\' :: c :: stripFrom (.quoted quote depth) rest
  | .quoted quote depth, c :: rest =>
    if c = '\n' then c :: stripFrom (.code 0) rest
    else if c = quote then c :: stripFrom (.code depth) rest
    else c :: stripFrom (.quoted quote depth) rest
  | .block star depth, c :: rest =>
    -- Blanks keep the columns of what follows, line feeds its lines.
    let shown := if c = '\n' then '\n' else ' '
    if star && c = '/' then shown :: stripFrom (.code depth) rest
    else shown :: stripFrom (.block (c = '*') depth) rest
  | .line, c :: rest => if c = '\n' then c :: stripFrom (.code 0) rest else stripFrom .line rest

def stripComments (source : Text) : Text := stripFrom (.code 0) source

end StyleImports.Sheet
