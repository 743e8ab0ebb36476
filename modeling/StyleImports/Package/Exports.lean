import StyleImports.Package.Manifest
import StyleImports.Package.Request

/-!
# What a package exports

A manifest may name the files that a package gives out: a target for the package itself, or an
object of targets by subpath, where a key with `*` or one that ends in a slash stands for many. A
target is a path in the package, a choice by conditions, or a list of alternatives. A package that
names its exports gives out nothing else.
-/

set_option autoImplicit false

namespace StyleImports

/-- A request that is being answered: how many requests were made for it so far, and the query and
the fragment met last. -/
structure PackageTrail where
  asked : Nat
  query : Option Text
  fragment : Option Text
  deriving DecidableEq, Repr

/-- A search that leaves a trail, also where it fails. -/
abbrev PackageSearch := ExceptT PackageError (StateM PackageTrail)

namespace Exports

/-- What a target is read for: the package, the conditions, the key that led to it with what
its `*` stands for, and what is done with a target that is no path in the package. -/
structure Reader where
  directory : Path
  conditions : List Text
  key : Text
  captured : Option Text
  foreign : Option (Text → PackageSearch (Option Path))

namespace Reader

def manifest (r : Reader) : Path := Manifest.fileIn r.directory

/-- A target with what the `*` of its key stands for. -/
def fill (r : Reader) (target : Text) : Except PackageError Text :=
  match r.captured with
  | none => .ok target
  | some captured =>
    if '*' ∈ r.key || '*' ∈ target then .ok (Text.replaceChar '*' captured target)
    else if r.key.getLast? = some '/' && target.getLast? = some '/' then .ok (target ++ captured)
    else .error (.notFolder r.manifest)

/-- Whether a target leaves its package or enters another one. -/
def leaves (target : Text) : Bool :=
  (Path.mk target).parts.any fun part =>
    match part with
    | .up => true
    | .name n => Text.lowerAscii n = "node_modules"
    | _ => false

def textTarget (r : Reader) (target : Text) : PackageSearch (Option Path) :=
  if "./".toList.isPrefixOf target then
    match r.fill target with
    | .error e => throw e
    | .ok filled =>
      if leaves filled then throw (.invalidTarget filled r.key r.manifest)
      else pure (some (r.directory.follow filled))
  else
    match r.foreign with
    | some foreign =>
      if "../".toList.isPrefixOf target || target.head? = some '/' then
        throw (.invalidTarget target r.key r.manifest)
      else
        match r.fill target with
        | .error e => throw e
        | .ok filled => foreign filled
    | none => throw (.invalidTarget target r.key r.manifest)

def meets (r : Reader) (name : JsonString) : Bool :=
  match name with
  | none => false
  | some name => name = "default".toList || r.conditions.contains name

mutual

/-- The path that a target names; none if it names nothing under the conditions. -/
def target (r : Reader) : Json → PackageSearch (Option Path)
  | .str (some t) => r.textTarget t
  | .obj members => r.choice members
  | .arr [] =>
    throw (.notExported (r.captured.getD ".") r.directory r.conditions)
  | .arr items => r.alternatives items
  | _ => pure none

/-- The first target of an object whose condition holds and that names a path. -/
def choice (r : Reader) : List (JsonString × Json) → PackageSearch (Option Path)
  | [] => pure none
  | (name, value) :: rest =>
    if r.meets name then do
      match ← r.target value with
      | some path => pure (some path)
      | none => r.choice rest
    else r.choice rest

/-- The first alternative that names a path; one that fails is passed over. -/
def alternatives (r : Reader) : List Json → PackageSearch (Option Path)
  | [] => pure none
  | item :: rest => do
    match ← tryCatch (r.target item) fun _ => pure none with
    | some path => pure (some path)
    | none => r.alternatives rest

end

end Reader

/-! ## Keys -/

/-- What a key stands for many paths with: the text before its `*` or up to its final slash, and
the text after the `*`. -/
def cutKey? (key : Text) : Option (Text × Text) :=
  if "./".toList.isPrefixOf key || key.head? = some '#' then
    match Text.splitFirst '*' key with
    | some (before, after) => if '*' ∈ after then none else some (before, after)
    | none => if key.getLast? = some '/' then some (key, []) else none
  else none

/-- What a key stands for in a subpath, if it covers it. -/
def capture? (key subpath : Text) : Option Text :=
  match cutKey? key with
  | none => none
  | some (before, after) =>
    if before.isPrefixOf subpath &&
        (after = [] || (key.length ≤ subpath.length && after.isSuffixOf subpath)) then
      some ((subpath.drop before.length).take (subpath.length - before.length - after.length))
    else none

/-- How much of a key is fixed at its start. -/
def fixedLength (key : Text) : Nat :=
  match Text.splitFirst '*' key with
  | some (before, _) => before.length + 1
  | none => key.length

/-- Whether a key is more specific than the best one so far. -/
def isBetter (key : Text) : Option Text → Bool
  | none => true
  | some best =>
    if fixedLength best < fixedLength key then true
    else if fixedLength key < fixedLength best then false
    else if '*' ∉ best then true
    else if '*' ∉ key then false
    else best.length < key.length

/-- The entry whose key covers a subpath and is the most specific, with what its key stands for. -/
def bestEntry (subpath : Text) (entries : List (Text × Json)) : Option (Text × Text × Json) :=
  entries.foldl
    (fun best entry =>
      match capture? entry.1 subpath with
      | some captured =>
        if isBetter entry.1 (best.map (·.1)) then some (entry.1, captured, entry.2) else best
      | none => best)
    none

/-- The path that an object of targets by subpath names for a subpath. -/
def lookup (directory : Path) (conditions : List Text)
    (foreign : Option (Text → PackageSearch (Option Path))) (entries : List (Text × Json))
    (subpath : Text) : PackageSearch (Option Path) :=
  if subpath.getLast? = some '/' then pure none
  else
    let exact :=
      if '*' ∈ subpath then none else entries.find? fun entry => entry.1 = subpath
    match exact with
    | some (_, value) => Reader.target ⟨directory, conditions, subpath, none, foreign⟩ value
    | none =>
      match bestEntry subpath entries with
      | some (key, captured, value) =>
        Reader.target ⟨directory, conditions, key, some captured, foreign⟩ value
      | none => pure none

/-- A key that names a subpath. -/
def isSubpathKey (key : Text) : Bool := key.head? = some '.' || key.head? = some '#'

def mainTarget (exported : Json) : Option Json :=
  match exported with
  | .str _ => some exported
  | .arr _ => some exported
  | .obj _ =>
    match exported.entries.find? fun entry => entry.1 = ".".toList with
    | some (_, value) => some value
    | none =>
      if exported.entries.any fun entry =>
          "./".toList.isPrefixOf entry.1 || entry.1.head? = some '#' then none
      else some exported
  | _ => none

/-- The path that a package gives out for a subpath, `.` for the package itself. A query or a
fragment is not exported with the package itself. -/
def resolve (directory : Path) (conditions : List Text) (exported : Json) (subpath : Text) :
    PackageSearch Path := do
  let entries := exported.entries
  if entries.any (isSubpathKey ·.1) && entries.any (!isSubpathKey ·.1) then
    throw (.mixedExports (Manifest.fileIn directory))
  if subpath = "." then
    let trail ← get
    if trail.query.isSome || trail.fragment.isSome then
      throw (.notExported ("./" ++ trail.query.getD [] ++ trail.fragment.getD []) directory
        conditions)
    match mainTarget exported with
    | none => pure ()
    | some main =>
      match ← Reader.target ⟨directory, conditions, ".", none, none⟩ main with
      | some path => return path
      | none => pure ()
  match ← lookup directory conditions none entries subpath with
  | some path => return path
  | none => throw (.notExported subpath directory conditions)

end Exports

end StyleImports
