import StyleImports.Files.Basic
import StyleImports.Graph.Basic
import StyleImports.Request.Resolver

/-!
# Diagnostics

What a walk has to say about a file without stopping: it cannot be read or parsed, a pattern in it
gives no files, or an import in it closes a cycle. Diagnostics are listed by file and then by
position, those without a position first.
-/

set_option autoImplicit false

namespace StyleImports

inductive Severity where
  | warning
  | error
  deriving DecidableEq, Repr

/-- What was found about a file. -/
inductive Finding where
  | unparsed (error : ParseError)
  | unread (error : FileError)
  | unresolved (position : Position) (error : ResolveError)
  | cycle (position : Position) (target : Path)
  deriving DecidableEq, Repr

structure Diagnostic where
  file : Path
  finding : Finding
  deriving DecidableEq, Repr

namespace Diagnostic

/-- A file that cannot be used is an error; an import that cannot be followed is a warning. -/
def severity (d : Diagnostic) : Severity :=
  match d.finding with
  | .unparsed _ => .error
  | .unread _ => .error
  | .unresolved _ _ => .warning
  | .cycle _ _ => .warning

def position? (d : Diagnostic) : Option Position :=
  match d.finding with
  | .unparsed error => some error.position
  | .unread _ => none
  | .unresolved position _ => some position
  | .cycle position _ => some position

def message (d : Diagnostic) : Text :=
  match d.finding with
  | .unparsed error => error.message
  | .unread error => "Failed to read '" ++ d.file.text ++ "': " ++ error.message
  | .unresolved _ error => error.message
  | .cycle _ target =>
    "import cycle: '" ++ d.file.text ++ "' imports '" ++ target.text ++ "'"

/-- A diagnostic on one line, behind its place. -/
def text (d : Diagnostic) : Text :=
  let place :=
    match d.position? with
    | some position => ':' :: position.text
    | none => []
  d.file.text ++ place ++ ": " ++ d.message

/-- The order of optional positions: none comes first. -/
def positionBefore : Option Position → Option Position → Bool
  | none, some _ => true
  | some p, some q => p.before q
  | _, none => false

/-- The order of diagnostics: by file, then by position. -/
def before (d e : Diagnostic) : Bool :=
  d.file.before e.file || (d.file.same e.file && positionBefore d.position? e.position?)

/-- Diagnostics in their order; those of one place keep theirs. -/
def sort (ds : List Diagnostic) : List Diagnostic := ds.mergeSort fun d e => !e.before d

end Diagnostic

end StyleImports
