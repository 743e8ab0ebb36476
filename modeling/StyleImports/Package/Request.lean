import StyleImports.Path.Basic

/-!
# Package requests

A request is a path with a query and a fragment. Its path may name a package, with or without a
scope, and a path below it.
-/

set_option autoImplicit false

namespace StyleImports

/-- A request cut into its parts; the query keeps its `?` and the fragment its `#`. -/
structure PackageRequest where
  path : Text
  query : Option Text
  fragment : Option Text
  deriving DecidableEq, Repr

namespace PackageRequest

/-- Cuts before the first `#` that has no zero character in front. -/
def cutFragment : Text → Text × Option Text
  | [] => ([], none)
  | '\x00' :: '#' :: rest =>
    let cut := cutFragment rest
    ('\x00' :: '#' :: cut.1, cut.2)
  | '#' :: rest => ([], some ('#' :: rest))
  | c :: rest =>
    let cut := cutFragment rest
    (c :: cut.1, cut.2)

/-- Cuts before the first `?`. -/
def cutQuery (t : Text) : Text × Option Text :=
  match t.dropWhile (· ≠ '?') with
  | [] => (t, none)
  | query => (t.takeWhile (· ≠ '?'), some query)

/-- The text without the zero characters that have a `#` after them. -/
def unescape : Text → Text
  | [] => []
  | '\x00' :: '#' :: rest => '#' :: unescape rest
  | c :: rest => c :: unescape rest

/-- How many characters at the start belong to the path whatever they are. -/
def skipped (t : Text) : Nat :=
  match t with
  | '/' :: _ => 1
  | '.' :: _ => 1
  | '#' :: _ => 1
  | _ => 0

/-- The parts of a request; none if it has no path. -/
def parse (t : Text) : Option PackageRequest :=
  let (rest, fragment) := cutFragment (t.drop (skipped t))
  let (path, query) := cutQuery rest
  match t.take (skipped t) ++ path with
  | [] => none
  | path => some ⟨unescape path, query, fragment⟩

/-- The name of a package and what follows it; a scope belongs to the name. -/
def packageName (t : Text) : Text × Text :=
  let first := t.takeWhile (· ≠ '/')
  match t, t.dropWhile (· ≠ '/') with
  | '@' :: _, '/' :: rest => (first ++ '/' :: rest.takeWhile (· ≠ '/'), rest.dropWhile (· ≠ '/'))
  | _, below => (first, below)

/-- What follows a name in a request for it or for a path below it. -/
def belowName? (name t : Text) : Option Text :=
  match name.isPrefixOf? t with
  | some [] => some []
  | some (c :: rest) => if c = '/' || c = '\\' then some (c :: rest) else none
  | none => none

end PackageRequest

end StyleImports
