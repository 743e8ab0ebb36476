import StyleImports.Files.Basic
import StyleImports.Options.Basic
import StyleImports.Specifier.Basic

/-!
# Rebasing URLs

When a file is put into another one, a relative `url(img/a.png)` in it would be taken from the
wrong directory. Each such URL is looked for from the file that holds it, then in the search
paths, and written as the way from the directory of the entry. A URL that leads nowhere stays as it
is, and so does a variable.
-/

set_option autoImplicit false

namespace StyleImports

/-- What URLs are rebased with: the directory of the entry, and where files are looked for. -/
structure UrlRebaser where
  fs : FileSystem
  home : Path
  paths : List Path
  unchecked : Bool

namespace UrlRebaser

/-- The rebaser for an entry; its own paths come before the search paths, each of them once. -/
def ofOptions (fs : FileSystem) (entry : Path) (urls : UrlOptions) (searchPaths : List Path) :
    UrlRebaser where
  fs := fs
  home := entry.parent?.getD ⟨[]⟩
  paths := ((urls.paths ++ searchPaths).map (Path.cleanFrom fs.cwd)).foldl Path.addNew []
  unchecked := urls.unchecked

/-! ## Targets -/

/-- The file that a path leads to from a directory or from the search paths. -/
def locate (r : UrlRebaser) (dir : Path) (path : Text) : Option Path :=
  let candidates := (dir :: r.paths).map fun d => (d.join ⟨path⟩).clean
  if r.unchecked then candidates.head? else candidates.find? r.fs.isFile

/-- A character that starts the query or the fragment of a URL. -/
def startsTail (c : Char) : Bool := c = '?' || c = '#'

/-- Whether a target names no file relative to another: its path is empty or rooted, or it is a URL
with a scheme or a host. -/
def isFixed (target path : Text) : Bool :=
  path = [] || path.head? = some '/' || Specifier.hasScheme target ||
    Specifier.isSchemeRelative target

/-- A target as seen from the entry; its query and fragment stay. -/
def resolveTarget (r : UrlRebaser) (file : Path) (target : Text) : Text :=
  let path := target.takeWhile (!startsTail ·)
  if isFixed target path then target
  else
    match r.locate (file.parent?.getD file) path with
    | some found =>
      (Path.relative r.home found).forwardSlashes.text ++ target.dropWhile (!startsTail ·)
    | none => target

/-- A URL as seen from the entry: what stands before the last `!` stays. -/
def resolve (r : UrlRebaser) (file : Path) (url : Text) : Text :=
  match Text.splitLast '!' url with
  | some (loaders, target) => loaders ++ '!' :: r.resolveTarget file target
  | none => r.resolveTarget file url

/-! ## Calls -/

/-- The argument of `url(…)`, in quotes or bare. -/
inductive Argument where
  | quoted (url : Text)
  | bare (url : Text)
  deriving DecidableEq, Repr

/-- A character of a bare argument. -/
def isBare (c : Char) : Bool := c ≠ ')' && c ≠ '\x22' && c ≠ '\x27' && !Text.isBlank c

/-- The argument after `url(` and blanks, and what follows it. -/
def readArgument (t : Text) : Option (Argument × Text) :=
  match t with
  | [] => none
  | c :: rest =>
    if c = '\x22' || c = '\x27' then
      (Text.splitFirst c rest).map fun cut => (.quoted cut.1, cut.2)
    else
      match t.takeWhile isBare with
      | [] => none
      | url => some (.bare url, t.dropWhile isBare)

/-- What follows `url(`, letter case aside. -/
def afterOpening? (t : Text) : Option Text :=
  match Specifier.afterWord? "url" t with
  | some ('(' :: rest) => some rest
  | _ => none

/-- The call that a text starts with, and what follows it. -/
def readCall (t : Text) : Option (Argument × Text) :=
  match (afterOpening? t).bind fun rest => readArgument (Text.trimStart rest) with
  | none => none
  | some (argument, rest) =>
    match Text.trimStart rest with
    | ')' :: rest => some (argument, rest)
    | _ => none

/-- The new form of a call, or none for a variable. -/
def rebaseArgument (r : UrlRebaser) (file : Path) : Argument → Option Text
  | .bare ('$' :: _) => none
  | .bare url => some ("url(\x22" ++ r.resolve file url ++ "\x22)")
  | .quoted url => some ("url(\x22" ++ r.resolve file url ++ "\x22)")

/-- A character after which a call may start: no part of a longer name. -/
def endsName (c : Char) : Bool := !Text.isWord c && c ≠ '$' && c ≠ '-'

/-- Rebases the calls of a text; `atCall` tells whether one may start right here. Each step takes
a character or more, so the length of the text bounds the steps. -/
def rebaseSteps (rebased : Argument → Option Text) : Nat → Bool → Text → Text
  | 0, _, t => t
  | _ + 1, _, [] => []
  | steps + 1, atCall, c :: rest =>
    match if atCall then readCall (c :: rest) else none with
    | some (argument, after) =>
      (rebased argument).getD ((c :: rest).take (rest.length + 1 - after.length)) ++
        rebaseSteps rebased steps false after
    | none => c :: rebaseSteps rebased steps (endsName c) rest

/-- A line of a file with its URLs rebased. A call starts at the start of the line or after a
character that is part of no name and of no other call. -/
def rebase (r : UrlRebaser) (file : Path) (t : Text) : Text :=
  rebaseSteps (r.rebaseArgument file) (t.length + 1) true t

end UrlRebaser

end StyleImports
