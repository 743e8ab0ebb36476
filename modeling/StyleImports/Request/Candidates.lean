import StyleImports.Specifier.Basic

/-!
# Candidate requests

A specifier can be meant as a request to the bundler or as plain text. It is first turned into
the bundler's form, where a plain name is relative and `~` marks a package, and then tried as it
is.
-/

set_option autoImplicit false

namespace StyleImports.Request

/-- What follows the first `~`, if it comes before any `?`. -/
def afterTilde? (request : Text) : Option Text :=
  if '~' ∈ request.takeWhile (· ≠ '?') then (Text.splitFirst '~' request).map (·.2) else none

/-- The root as it stands before a path of its own: a package root is closed by a slash. -/
def closeRoot (root : Text) : Text :=
  match root.getLast? with
  | some '~' => root
  | some '/' => root
  | _ => root ++ ['/']

/-- A specifier as a path request, before a `~` in it is looked at. -/
def pathRequest (url : Text) (root : Option Text) : Text :=
  if Specifier.isDrivePath url then url
  else
    match url, root with
    | '/' :: rest, some root =>
      if (afterTilde? root).isSome then closeRoot root ++ rest else root ++ '/' :: rest
    | _, _ =>
      if "./".toList.isPrefixOf url || "../".toList.isPrefixOf url then url else "./" ++ url

/-- The bundler's form of a specifier: `name` becomes `./name`, `~pkg/a` becomes `pkg/a`, relative
paths stay, and a path from the root is joined onto `root` when there is one. -/
def ofUrl (url : Text) (root : Option Text) : Text :=
  if url = [] then []
  else
    let request := pathRequest url root
    (afterTilde? request).getD request

/-- The requests to try for a specifier, without empty ones and duplicates. -/
def candidates (specifier : Text) (root : Option Text) : List Text :=
  let first := ofUrl specifier root
  let second := if specifier = first then [] else [specifier]
  (first :: second).filter (· ≠ [])

end StyleImports.Request
