import StyleImports.Options.Basic
import StyleImports.Package.Exports
import StyleImports.Request.Resolver

/-!
# Resolving package requests

A request is first replaced by an alias, if one has its name. A path is then looked for as a file,
with and without the extensions that may be left out, and as a directory with a manifest or an index
file. Any other request names a package: the one around the asking directory by its own name, or
one in the package directories from there upwards. A package that names its exports decides by
them.

Every alias asks for a new request. The number of requests made for one is bounded, so that
aliases that lead to each other end in an error.
-/

set_option autoImplicit false

namespace StyleImports

/-- What package requests are resolved with, and whether they ask for a directory. -/
structure Packages where
  fs : FileSystem
  options : PackageOptions
  wantsDirectory : Bool

namespace Packages

/-- Asks for a request from a directory. -/
abbrev Ask := Path → Text → PackageSearch Path

/-- The first answer that something has among some candidates. -/
def firstOf {α : Type} (search : α → PackageSearch (Option Path)) :
    List α → PackageSearch (Option Path)
  | [] => pure none
  | a :: rest => do
    match ← search a with
    | some path => pure (some path)
    | none => firstOf search rest

/-- An outcome that leaves no trail. -/
def ofExcept {α : Type} : Except PackageError α → PackageSearch α
  | .ok a => pure a
  | .error e => throw e

/-! ## Aliases -/

/-- The name of an alias as it is reported: without the `$` that asks for an exact match. -/
def aliasName (key : Text) : Text := if key.getLast? = some '$' then key.dropLast else key

def aliasCovers (key request : Text) : Bool :=
  if key.getLast? = some '$' then key.dropLast = request
  else '*' ∈ key || (PackageRequest.belowName? key request).isSome

/-- A text with its first `*` replaced. -/
def fillFirst (captured t : Text) : Text :=
  match Text.splitFirst '*' t with
  | some (before, after) => before ++ captured ++ after
  | none => t

/-- What the `*` of an alias stands for in a request. -/
def aliasCapture? (key request : Text) : Option Text :=
  match Text.splitFirst '*' key with
  | none => none
  | some (before, after) =>
    match before.isPrefixOf? request with
    | none => none
    | some rest =>
      if after.isSuffixOf rest then some (rest.take (rest.length - after.length)) else none

/-- What an alias makes of a request that it covers; none if it leaves it alone. Nothing is put
after the value of an alias that is a file. -/
def aliased? (p : Packages) (key value request : Text) : Option Text :=
  if key.getLast? ≠ some '$' && '*' ∈ key then
    (aliasCapture? key request).map fun captured => fillFirst captured value
  else
    match request.drop (aliasName key).length with
    | [] => some value
    | tail =>
      let target := Path.followed ⟨value⟩
      if p.fs.isFile target then none
      else
        match tail.dropWhile fun c => c = '/' || c = '\\' with
        | [] => some value
        | tail => some (target.follow tail).text

/-- Whether a request is the value of an alias already, or lies below it. -/
def isAliased (value request : Text) : Bool :=
  match value.isPrefixOf? request with
  | some [] => true
  | some (c :: _) => c = '/'
  | none => false

/-- The answer that an alias leads to. An alias that covers a request and leads nowhere ends the
search. -/
def byAlias (p : Packages) (ask : Ask) (dir : Path) (request : Text) :
    PackageSearch (Option Path) :=
  firstOf
    (fun entry => do
      let (key, value) := entry
      if !aliasCovers key request || isAliased value request then pure none
      else
        match p.aliased? key value request with
        | none => pure none
        | some changed =>
          let found ← tryCatch (some <$> ask dir changed) fun e =>
            if e.isMissing then pure none else throw e
          match found with
          | some path => pure (some path)
          -- What the alias leads to is missing: no other alias is tried.
          | none => throw (.aliasNotFound request (aliasName key)))
    p.options.aliases

/-! ## Files and directories -/

/-- A file, or what an alias makes of its path. -/
def exactFile (p : Packages) (ask : Ask) (path : Path) : PackageSearch (Option Path) := do
  match ← p.byAlias ask path path.text with
  | some found => pure (some found)
  | none => pure (if p.fs.isFile path then some path else none)

def withExtension (p : Packages) (ask : Ask) (path : Path) : PackageSearch (Option Path) :=
  firstOf (fun ending => p.exactFile ask ⟨path.text ++ ending⟩) p.options.extensions

def asFile (p : Packages) (ask : Ask) (path : Path) : PackageSearch (Option Path) := do
  match ← p.exactFile ask path with
  | some found => pure (some found)
  | none => p.withExtension ask path

def indexFile (p : Packages) (ask : Ask) (dir : Path) : PackageSearch (Option Path) :=
  firstOf (fun name => p.asFile ask (dir.follow name)) p.options.mainFiles

/-- A main file as a path in its package. -/
def mainPath (main : Text) : Text :=
  if "./".toList.isPrefixOf main || "../".toList.isPrefixOf main then main else "./" ++ main

/-- The main file of a directory by its manifest, or its index file. -/
def asDirectory (p : Packages) (ask : Ask) (dir : Path) : PackageSearch (Option Path) := do
  let manifest ← ofExcept (Manifest.load p.fs dir)
  let mains := (manifest.map fun m => m.mains p.options.mainFields).getD []
  let main ← firstOf
    (fun main => do
      let path := dir.follow (mainPath main)
      match ← p.asFile ask path with
      | some found => pure (some found)
      | none => p.indexFile ask path)
    mains
  match main with
  | some found => pure (some found)
  | none => p.indexFile ask dir

/-- What a path names; a request that ends in a slash asks for a directory. -/
def atPath (p : Packages) (ask : Ask) (path : Path) (request : Text) :
    PackageSearch (Option Path) := do
  if p.wantsDirectory then
    return if p.fs.isDirectory path then some path else none
  if request.getLast? ≠ some '/' then
    match ← p.asFile ask path with
    | some found => return some found
    | none => pure ()
  if p.fs.isDirectory path then p.asDirectory ask path else pure none

/-- An answer, or the error that a request has none. -/
def orMissing (request : Text) (found : Option Path) : PackageSearch Path :=
  match found with
  | some path => pure path
  | none => throw (.notFound request)

/-! ## Packages -/

def atExport (p : Packages) (ask : Ask) (request : Text) (path : Path) :
    PackageSearch (Option Path) := do
  return some (← orMissing request (← p.atPath ask path []))

/-- What a manifest exports for a subpath; none if it names no exports. -/
def exported (p : Packages) (ask : Ask) (manifest : Manifest) (request below : Text) :
    PackageSearch (Option Path) :=
  match manifest.field? "exports" with
  | none => pure none
  | some exports => do
    p.atExport ask request
      (← Exports.resolve manifest.directory p.options.conditions exports ('.' :: below))

/-- What the package around a directory exports under its own name. -/
def inOwnPackage (p : Packages) (ask : Ask) (dir : Path) (request : Text) :
    PackageSearch (Option Path) := do
  match ← ofExcept (Manifest.around p.fs dir) with
  | none => pure none
  | some manifest =>
    match manifest.name?.bind fun name => PackageRequest.belowName? name request with
    | none => pure none
    | some below => p.exported ask manifest request below

/-- The package directory of a name at a directory: below it, or the directory itself if it has
that name. -/
def home? (p : Packages) (dir : Path) (name : Text) : Option Path :=
  if name ≠ "node_modules" && dir.fileName? = some name then some dir
  else if p.fs.isDirectory (dir.join ⟨name⟩) then some (dir.join ⟨name⟩)
  else none

/-- The package directories from a directory upwards, one name after the other. -/
def homes (p : Packages) (dir : Path) : List Path :=
  p.options.directories.flatMap fun name =>
    ((dir :: dir.ancestors).filter p.fs.isDirectory).filterMap fun above => p.home? above name

/-- Whether a package directory can hold what a request names, when the package itself is no
directory in it. -/
def mayHold (p : Packages) (package : Path) (name below : Text) : Bool :=
  below = [] &&
    (name.head? ≠ some '@' ||
      match package.parent? with
      | some scope => p.fs.isDirectory scope
      | none => true)

/-- What a request names in a package directory; the result tells whether the search ends. -/
def inHome (p : Packages) (ask : Ask) (request name below : Text) (home : Path) :
    PackageSearch (Bool × Option Path) := do
  let package := home.follow name
  if name ≠ [] then
    if p.fs.isDirectory package then
      match ← ofExcept (Manifest.load p.fs package) with
      | none => pure ()
      | some manifest =>
        match ← p.exported ask manifest request below with
        | some found => return (true, some found)
        | none => pure ()
    else if !p.mayHold package name below then return (false, none)
  let path := home.follow request
  if p.wantsDirectory then
    return (true, if p.fs.isDirectory path then some path else none)
  let first ←
    if p.fs.isDirectory path then do
      match ← p.byAlias ask path path.text with
      | some found => pure (some found)
      | none => p.asDirectory ask path
    else pure none
  match first with
  | some found => return (true, some found)
  | none =>
    match ← p.asFile ask path with
    | some found => return (true, some found)
    | none =>
      match ← p.asDirectory ask path with
      | some found => return (true, some found)
      | none => return (false, none)

/-- What a request names in the first package directory that ends the search. -/
def inHomes (p : Packages) (ask : Ask) (request name below : Text) :
    List Path → PackageSearch (Option Path)
  | [] => pure none
  | home :: rest => do
    match ← p.inHome ask request name below home with
    | (true, found) => pure found
    | (false, _) => p.inHomes ask request name below rest

def inPackages (p : Packages) (ask : Ask) (dir : Path) (request : Text) : PackageSearch Path := do
  let (name, below) := PackageRequest.packageName request
  match ← p.inOwnPackage ask dir request with
  | some found => pure found
  | none => orMissing request (← p.inHomes ask request name below (p.homes dir))

/-! ## Imports of a package -/

/-- What a package gives to a package that imports it by name. -/
def fromImport (p : Packages) (ask : Ask) (dir : Path) (request : Text) : PackageSearch Path := do
  let (name, below) := PackageRequest.packageName request
  let packages := (p.homes dir).map fun home => home.follow name
  match packages.find? p.fs.isDirectory with
  | none => throw (.notFound request)
  | some package =>
    let manifest ← ofExcept (Manifest.load p.fs package)
    match manifest.bind fun m => m.field? "exports" with
    | some exports => Exports.resolve package p.options.conditions exports ('.' :: below)
    | none => ask package ('.' :: below)

/-- What a name that starts with `#` stands for in the package around a directory. -/
def byImports (p : Packages) (ask : Ask) (dir : Path) (request : Text) :
    PackageSearch (Option Path) := do
  match ← ofExcept (Manifest.around p.fs dir) with
  | none => pure none
  | some manifest =>
    match manifest.field? "imports" with
    | some (.obj members) =>
      let file := Manifest.fileIn manifest.directory
      if request = "#" || "#/".toList.isPrefixOf request then throw (.invalidImport request file)
      let foreign := fun target => some <$> p.fromImport ask manifest.directory target
      match ← Exports.lookup manifest.directory p.options.conditions (some foreign)
          (Json.entries (.obj members)) request with
      | some path => p.atExport ask request path
      | none => throw (.unknownImport request file)
    | _ => pure none

/-! ## Requests -/

def answerPath (p : Packages) (ask : Ask) (dir : Path) (request : Text) : PackageSearch Path := do
  match ← p.byAlias ask dir request with
  | some found => return found
  | none => pure ()
  match (Path.mk request).parts.head? with
  | some .root => orMissing request (← p.atPath ask ⟨request⟩ request)
  | some (.name _) =>
    if request.head? = some '#' then
      match ← p.byImports ask dir request with
      | some found => return found
      | none => pure ()
    p.inPackages ask dir request
  | some _ =>
    orMissing request
      (← p.atPath ask (dir.follow request) (if request = "." then "./" else request))
  | none => p.inPackages ask dir request

/-- The most requests that are made for one. -/
def requestLimit : Nat := 64

/-- A request with the number of requests that may be nested in it. A fragment can be part of the
path, which is tried first. -/
def request (p : Packages) : Nat → Ask
  | 0, _, _ => throw .recursion
  | nested + 1, dir, request => do
    let ask : Ask := p.request nested
    modify fun trail => { trail with asked := trail.asked + 1 }
    if requestLimit < (← get).asked then throw .recursion
    match PackageRequest.parse request with
    | none => throw (.emptyRequest request)
    | some parsed =>
      modify fun trail =>
        { trail with
          query := parsed.query.or trail.query
          fragment := parsed.fragment.or trail.fragment }
      let trail ← get
      match trail.query, trail.fragment with
      | none, some fragment =>
        set { trail with fragment := none }
        tryCatch (p.answerPath ask dir (parsed.path ++ fragment)) fun _ => do
          modify fun trail => { trail with fragment := some fragment }
          p.answerPath ask dir parsed.path
      | _, _ => p.answerPath ask dir parsed.path

/-- The answer to a request with its query and fragment at its end. -/
def answer (p : Packages) (dir : Path) (request : Text) : Except PackageError Path :=
  match (p.request (requestLimit + 1) dir request).run.run ⟨0, none, none⟩ with
  | (.error e, _) => .error e
  | (.ok path, trail) =>
    match Manifest.check p.fs path with
    | .error e => .error e
    | .ok () => .ok ⟨path.clean.text ++ trail.query.getD [] ++ trail.fragment.getD []⟩

def stylesheetEndings : List Text := ["styl", "css"]

/-- The resolver for package requests; one that asks for files answers with stylesheets only. -/
def resolver (p : Packages) : Resolver := fun dir request =>
  match p.answer dir request with
  | .error e => .error (.notFound request dir e.message)
  | .ok path =>
    if !p.wantsDirectory && !path.hasExtension stylesheetEndings then
      .error (.notStylesheet request path)
    else .ok [path]

/-- The resolvers for the files and the directories of packages. -/
def resolvers (fs : FileSystem) (options : PackageOptions) : Resolvers where
  file := resolver ⟨fs, options, false⟩
  context := resolver ⟨fs, options, true⟩

end Packages

end StyleImports
