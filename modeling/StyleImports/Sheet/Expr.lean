import StyleImports.Sheet.Basic
import StyleImports.Text.Blank

/-!
# Reading path expressions

An expression is a sum of terms: quoted texts, `url(…)`, words, and sums in parentheses. A reader
works on a cursor, the rest of a line with the number of characters before it, and a fault is
reported at such a number.

The readers that call each other are bounded by a number of steps; twice the length of the rest
and two more are enough, as every second step takes a character.
-/

set_option autoImplicit false

namespace StyleImports.Sheet

/-- The unread rest of a line and the number of characters before it. -/
structure Cursor where
  offset : Nat
  rest : Text
  deriving DecidableEq, Repr

/-- A fault and the number of characters before it. -/
abbrev LineFault := Nat × ParseFault

namespace Cursor

/-- The cursor after `n` characters. -/
def advance (c : Cursor) (n : Nat) : Cursor := ⟨c.offset + n, c.rest.drop n⟩

def skipBlanks (c : Cursor) : Cursor := c.advance (c.rest.takeWhile Text.isBlank).length

end Cursor

def isQuote (c : Char) : Bool := c = '\x22' || c = '\x27'

def isWordPart (c : Char) : Bool :=
  !Text.isBlank c && !isQuote c && c ≠ ',' && c ≠ '+' && c ≠ '(' && c ≠ ')'

/-- A quoted text after its opening quote. A backslash stands for the character after it. -/
def readQuoted (quote : Char) : Nat → Text → Option (Text × Cursor)
  | _, [] => none
  | _, ['\\'] => none
  | offset, '\\' :: c :: rest =>
    (readQuoted quote (offset + 2) rest).map fun read => (c :: read.1, read.2)
  | offset, c :: rest =>
    if c = quote then some ([], ⟨offset + 1, rest⟩)
    else (readQuoted quote (offset + 1) rest).map fun read => (c :: read.1, read.2)

def readString (c : Cursor) : Except LineFault (Text × Cursor) :=
  match c.rest with
  | [] => .error (c.offset, .unterminated)
  | quote :: rest =>
    match readQuoted quote (c.offset + 1) rest with
    | some read => .ok read
    | none => .error (c.offset, .unterminated)

/-- Whether `url(` comes next, ASCII case aside. -/
def startsUrl (t : Text) : Bool := Text.lowerAscii (t.take 4) = "url("

/-- `url(…)` with a quoted inside, or one up to the closing parenthesis and trimmed. -/
def readUrl (c : Cursor) : Except LineFault (PathExpr × Cursor) :=
  let inside := (c.advance 4).skipBlanks
  let inner :=
    if (inside.rest.head?.map isQuote).getD false then readString inside
    else
      let raw := inside.rest.takeWhile (· ≠ ')')
      .ok (Text.trim raw, inside.advance raw.length)
  match inner with
  | .error fault => .error fault
  | .ok (text, after) =>
    match after.skipBlanks with
    | ⟨offset, ')' :: rest⟩ => .ok (.url text, ⟨offset + 1, rest⟩)
    | _ => .error (c.offset, .unbalanced)

mutual

def readTerm : Nat → Cursor → Except LineFault (PathExpr × Cursor)
  | 0, c => .error (c.offset, .expectedPath)
  | steps + 1, c =>
    match c.rest with
    | [] => .error (c.offset, .expectedPath)
    | '(' :: _ =>
      match readSum steps (c.advance 1).skipBlanks with
      | .error fault => .error fault
      | .ok (inner, after) =>
        match after.skipBlanks with
        | ⟨offset, ')' :: rest⟩ => .ok (inner, ⟨offset + 1, rest⟩)
        | _ => .error (c.offset, .unbalanced)
    | first :: _ =>
      if isQuote first then
        match readString c with
        | .error fault => .error fault
        | .ok (text, after) => .ok (.str text, after)
      else if startsUrl c.rest then readUrl c
      else
        match c.rest.takeWhile isWordPart with
        | [] => .error (c.offset, .expectedPath)
        | name => .ok (.word name, c.advance name.length)

def readSum : Nat → Cursor → Except LineFault (PathExpr × Cursor)
  | 0, c => .error (c.offset, .expectedPath)
  | steps + 1, c =>
    match readTerm steps c with
    | .error fault => .error fault
    | .ok (left, after) => readSummands steps left after

/-- The further terms of a sum, added to what is there. -/
def readSummands : Nat → PathExpr → Cursor → Except LineFault (PathExpr × Cursor)
  | 0, left, c => .ok (left, c)
  | steps + 1, left, c =>
    match c.skipBlanks with
    | ⟨offset, '+' :: rest⟩ =>
      match readTerm steps (Cursor.skipBlanks ⟨offset + 1, rest⟩) with
      | .error fault => .error fault
      | .ok (right, after) => readSummands steps (.concat left right) after
    | after => .ok (left, after)

end

/-- An expression, with as many steps as the rest of the line can need. -/
def readExpr (c : Cursor) : Except LineFault (PathExpr × Cursor) :=
  readSum (2 * c.rest.length + 2) c.skipBlanks

def readWhole (c : Cursor) : Except LineFault PathExpr :=
  match readExpr c with
  | .error fault => .error fault
  | .ok (value, after) =>
    match after.skipBlanks with
    | ⟨_, []⟩ => .ok value
    | ⟨offset, c :: _⟩ => .error (offset, .unexpected c)

/-- Expressions with commas between them, at most the given number. -/
def readItems : Nat → Cursor → Except LineFault (List PathExpr)
  | 0, c => .error (c.offset, .expectedPath)
  | steps + 1, c =>
    match readExpr c with
    | .error fault => .error fault
    | .ok (value, after) =>
      match after.skipBlanks with
      | ⟨_, []⟩ => .ok [value]
      | ⟨offset, ',' :: rest⟩ =>
        match readItems steps ⟨offset + 1, rest⟩ with
        | .error fault => .error fault
        | .ok values => .ok (value :: values)
      | ⟨offset, c :: _⟩ => .error (offset, .unexpected c)

/-- The expressions that the rest of the line consists of. -/
def readList (c : Cursor) : Except LineFault (List PathExpr) := readItems (c.rest.length + 1) c

end StyleImports.Sheet
