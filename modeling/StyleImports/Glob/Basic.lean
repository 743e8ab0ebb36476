import StyleImports.Files.Basic

/-!
# Dynamic specifiers

An import may name many files at once: its specifier then holds `*`, a group in braces or a class
in brackets. Such a specifier is cut into a directory without any of these and a pattern below it.
An existing file or directory of that very name is taken before the pattern.
-/

set_option autoImplicit false

namespace StyleImports

/-- Why a dynamic specifier gave no files. -/
inductive GlobError where
  | missingBase (pattern : Text)
  | invalidPattern (pattern : Text) (reason : Text)
  | noMatches (pattern : Text) (base : Path)
  | files (error : FileError)
  deriving DecidableEq, Repr

namespace GlobError

def message : GlobError → Text
  | missingBase pattern => "Glob '" ++ pattern ++ "' has no static base directory"
  | invalidPattern pattern reason => "Invalid glob '" ++ pattern ++ "': " ++ reason
  | noMatches pattern base => "Glob '" ++ pattern ++ "' matched no .styl files in " ++ base.text
  | files error => error.message

end GlobError

/-- A directory without pattern signs, `.` when there is none, and the pattern below it. -/
structure Glob where
  base : Text
  pattern : Text
  deriving DecidableEq, Repr

namespace Glob

/-- Whether the first opening sign is followed by a closing one. -/
def hasGroup (opening closing : Char) (t : Text) : Bool :=
  match t.dropWhile (· ≠ opening) with
  | [] => false
  | _ :: rest => closing ∈ rest

/-- A text with `*`, a group in braces or a class in brackets. -/
def isDynamic (t : Text) : Bool := '*' ∈ t || hasGroup '{' '}' t || hasGroup '[' ']' t

/-- Cuts a specifier before the first dynamic segment, at the latest before the last segment. -/
def ofSpecifier (specifier : Text) : Glob :=
  let segments := Text.splitOn '/' specifier
  let count := (segments.dropLast.takeWhile (!isDynamic ·)).length
  let base := Text.joinWith '/' (segments.take count)
  ⟨if base = [] then ['.'] else base, Text.joinWith '/' (segments.drop count)⟩

/-- The whole pattern, base included. -/
def full (glob : Glob) : Text :=
  if glob.base = ['.'] then glob.pattern else glob.base ++ '/' :: glob.pattern

/-- The base, which has to name a directory other than the current one. -/
def requireBase (glob : Glob) : Except GlobError Text :=
  if glob.base = ['.'] || glob.base = [] then .error (.missingBase glob.full) else .ok glob.base

/-- Whether a specifier is expanded as a pattern: it is dynamic and nothing is at `candidate`, the
path that it names literally. -/
def isRequest (fs : FileSystem) (candidate : Path) (specifier : Text) : Bool :=
  isDynamic specifier && !fs.isDirectory candidate && !fs.isFile candidate

end Glob

end StyleImports
