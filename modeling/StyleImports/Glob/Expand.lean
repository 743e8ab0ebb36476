import StyleImports.Glob.Basic
import StyleImports.Glob.Braces
import StyleImports.Glob.Pattern

/-!
# Expanding patterns

A pattern is expanded below a directory: the files with extension `.styl` whose path from there it
matches, in the order of their paths. Unless the pattern holds `**`, directories deeper than its
number of segments are not opened.
-/

set_option autoImplicit false

namespace StyleImports.Glob

/-- A name that ends in `.styl`, ASCII case aside, and has something before it. -/
def isStylesheetName (name : Text) : Bool := Path.hasExtension ["styl".toList] ⟨name⟩

/-- Reads every choice of the braces of a pattern; the first faulty one counts. -/
def readPatterns (pattern : Text) : Except GlobError (List (List PatternSign)) :=
  (expandBraces pattern).mapM fun choice =>
    match readPattern choice with
    | .ok signs => .ok signs
    | .error fault => .error (.invalidPattern pattern fault.message)

/-- How deep directories are opened: as far as the pattern has segments, or without a limit. -/
def depthLimit (pattern : Text) : Option Nat :=
  if Text.holds "**" pattern then none else some (Text.splitOn '/' pattern).length

/-- The matching files below a directory. `levels` bounds how many levels are opened, `limit` is
what is left of the pattern's own limit, and `above` is the path from the base, closed by a
slash unless it is empty. -/
def search (fs : FileSystem) (patterns : List (List PatternSign)) :
    Nat → Option Nat → Path → Text → Except FileError (List Path)
  | 0, _, _, _ => .ok []
  | levels + 1, limit, dir, above =>
    match fs.list dir with
    | .error e => .error e
    | .ok names =>
      names.foldl
        (fun found name =>
          match found with
          | .error e => .error e
          | .ok found =>
            let path := dir.join ⟨name⟩
            match fs.stat path with
            | .error _ => .ok found
            | .ok .directory =>
              if limit = some 1 then .ok found
              else
                let below := above ++ name ++ ['/']
                match search fs patterns levels (limit.map (· - 1)) path below with
                | .error e => .error e
                | .ok inner => .ok (found ++ inner)
            | .ok (.file _) =>
              if isStylesheetName name && patterns.any (matchesPath · (above ++ name)) then
                .ok (found ++ [path])
              else .ok found)
        (.ok [])

/-- Puts a path into an ascending list without duplicates. -/
def insertPath (p : Path) : List Path → List Path
  | [] => [p]
  | q :: rest =>
    if p.same q then q :: rest else if p.before q then p :: q :: rest else q :: insertPath p rest

/-- Paths in their order, each once. -/
def sortPaths (paths : List Path) : List Path :=
  paths.foldl (fun sorted p => insertPath p sorted) []

/-- The stylesheets below `base` that a pattern matches, in the order of their paths. -/
def expand (fs : FileSystem) (base : Path) (pattern : Text) : Except GlobError (List Path) :=
  match readPatterns pattern with
  | .error e => .error e
  | .ok patterns =>
    match search fs patterns (fs.depth + 1) (depthLimit pattern) base [] with
    | .error e => .error (.files e)
    | .ok found => .ok (sortPaths found)

end StyleImports.Glob
