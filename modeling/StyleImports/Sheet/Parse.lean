import StyleImports.Sheet.Comment
import StyleImports.Sheet.Expr
import StyleImports.Text.Word

/-!
# Reading stylesheets

Comments are blanked, blank lines dropped, and the rest becomes a tree: the lines directly after a
line that are indented deeper belong to it, as far as the first of them is indented. An import
takes no lines below itself; they are its siblings.
-/

set_option autoImplicit false

namespace StyleImports.Sheet

/-- A line that is not blank, without its indentation. -/
structure Line where
  number : Nat
  indent : Nat
  content : Text
  deriving DecidableEq, Repr

/-- The line that a row of text makes, unless it is blank. -/
def lineOf? (number : Nat) (row : Text) : Option Line :=
  let kept := Text.trimEnd row
  match Text.trimStart kept with
  | [] => none
  | content => some ⟨number, kept.length - content.length, content⟩

/-- The lines of rows that are numbered from `number` on. -/
def numberLines : Nat → List Text → List Line
  | _, [] => []
  | number, row :: rows =>
    match lineOf? number row with
    | some line => line :: numberLines (number + 1) rows
    | none => numberLines (number + 1) rows

def linesOf (source : Text) : List Line := numberLines 1 (Text.lines (stripComments source))

/-- A blank or a semicolon, which end a line. -/
def isEnding (c : Char) : Bool := c = ';' || Text.isBlank c

/-- Whether a keyword may end before this. -/
def endsKeyword (rest : Text) : Bool :=
  match rest with
  | [] => true
  | c :: _ => Text.isBlank c || c = '(' || isQuote c

def importKind? (content : Text) : Option ImportKind :=
  match ImportKind.always.keyword.isPrefixOf? content with
  | some rest => if endsKeyword rest then some .always else none
  | none =>
    match ImportKind.once.keyword.isPrefixOf? content with
    | some rest => if endsKeyword rest then some .once else none
    | none => none

def Line.error (line : Line) (fault : LineFault) : ParseError :=
  ⟨⟨line.number, line.indent + fault.1 + 1⟩, fault.2⟩

/-- The import of a line that starts with an import keyword. -/
def readImport (line : Line) (kind : ImportKind) : Except ParseError Node :=
  let start := kind.keyword.length
  let rest := (Text.dropEndWhile isEnding line.content).drop start
  match Cursor.skipBlanks ⟨start, rest⟩ with
  | ⟨_, []⟩ => .error (line.error (0, .missingPath kind))
  | cursor =>
    match readList cursor with
    | .error fault => .error (line.error fault)
    | .ok paths => .ok (.request kind paths ⟨line.number, line.indent + 1⟩ line.indent)

def startsName (c : Char) : Bool := c = '$' || c.isAlpha || c = '_' || c = '-'

def continuesName (c : Char) : Bool := c = '$' || Text.isWord c || c = '-'

/-- The name before an equals sign, and what follows the sign and blanks. -/
def cutAssignment? (content : Text) : Option (Text × Text) :=
  match content with
  | [] => none
  | c :: rest =>
    if startsName c then
      match Text.trimStart (rest.dropWhile continuesName) with
      | '=' :: value => some (c :: rest.takeWhile continuesName, Text.trimStart value)
      | _ => none
    else none

/-- A line without lines below it: an assignment if its value is a path expression, and otherwise a
statement. -/
def leafOf (line : Line) : Node :=
  let statement := Node.statement line.content line.number line.indent
  match cutAssignment? line.content with
  | none => statement
  | some (name, value) =>
    if value = [] || value.head? = some '=' then statement
    else
      let offset := line.content.length - value.length
      match readWhole ⟨offset, (Text.dropEndWhile isEnding line.content).drop offset⟩ with
      | .ok expr => .assignment name expr line.content line.number line.indent
      | .error _ => statement

def firstIndent : List Line → Nat
  | [] => 0
  | line :: _ => line.indent

/-- The tree of lines. The lines below a line are the longest run after it that is indented at
least as far as its first line, if that is deeper than the line itself. -/
def nodesOf : List Line → Except ParseError (List Node)
  | [] => .ok []
  | line :: rest =>
    match importKind? line.content with
    | some kind =>
      match readImport line kind with
      | .error e => .error e
      | .ok node =>
        match nodesOf rest with
        | .error e => .error e
        | .ok nodes => .ok (node :: nodes)
    | none =>
      if line.indent < firstIndent rest then
        match nodesOf (rest.takeWhile fun next => firstIndent rest ≤ next.indent) with
        | .error e => .error e
        | .ok inner =>
          match nodesOf (rest.dropWhile fun next => firstIndent rest ≤ next.indent) with
          | .error e => .error e
          | .ok nodes => .ok (.block line.content line.number line.indent inner :: nodes)
      else
        match nodesOf rest with
        | .error e => .error e
        | .ok nodes => .ok (leafOf line :: nodes)
termination_by lines => lines.length
decreasing_by
  · simp
  · exact Nat.lt_succ_of_le (List.takeWhile_sublist _).length_le
  · exact Nat.lt_succ_of_le (List.dropWhile_sublist _).length_le
  · simp

def parse (source : Text) : Except ParseError (List Node) := nodesOf (linesOf source)

end StyleImports.Sheet
