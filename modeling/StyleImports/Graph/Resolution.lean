import StyleImports.Graph.Diagnostic
import StyleImports.Lookup.Directories
import StyleImports.Sheet.Imports

/-!
# Resolving an import of a file

A static import is looked up in directories, unless it asks for a package, and then asked for from
the resolver. A dynamic one is expanded below the directory that its base resolves to. The result
depends on the file system, the resolvers, the options, the path of the file and the import alone.
-/

set_option autoImplicit false

namespace StyleImports

/-- The options of a walk: search paths, the root of requests from the root, and a digest of all
options that change an answer. -/
structure WalkOptions where
  paths : List Path
  root : Option Text
  fingerprint : Text
  deriving DecidableEq, Repr

/-- What imports are resolved with. -/
structure Setting where
  fs : FileSystem
  resolvers : Resolvers
  options : WalkOptions

/-- The outcome for one import: where it leads, the directories that were searched for a pattern,
and why a pattern led nowhere. -/
structure Resolution where
  dependency : Dependency
  contexts : List Path
  failure : Option ResolveError
  deriving DecidableEq, Repr

namespace Setting

/-- The directory of a file; a path without one stands for itself. -/
def directoryOf (file : Path) : Path := file.parent?.getD file

/-- Whether an import of a file is expanded as a pattern. -/
def isPattern (s : Setting) (file : Path) (specifier : Text) : Bool :=
  Glob.isRequest s.fs ((directoryOf file).join ⟨specifier⟩).clean specifier

def resolveStatic (s : Setting) (file : Path) (specifier : Text) :
    Except ResolveError (List Path) :=
  let found :=
    if Specifier.isModule specifier then none
    else Lookup.resolve ⟨s.fs, s.options.paths⟩ specifier file
  match found with
  | some paths => .ok paths
  | none =>
    Request.resolveAll s.resolvers.file (directoryOf file) specifier
      (Request.candidates specifier s.options.root)

/-- The directory below which a pattern with the given base is expanded: the resolver's answer, or
else the directory of that name next to the file. -/
def resolveBase (s : Setting) (file : Path) (base : Text) : Except ResolveError Path :=
  let dir := directoryOf file
  let answer := Request.resolveAll s.resolvers.context dir base
    (Request.candidates base s.options.root)
  match answer with
  | .ok (found :: _) => .ok found
  | answer =>
    let beside := (dir.join ⟨base⟩).clean
    if Specifier.isModule base || !s.fs.isDirectory beside then
      match answer with
      | .error e => .error e
      | .ok _ => .error (.noCandidates base)
    else .ok beside

/-- The files below a directory that a pattern matches; there has to be one. -/
def expandBelow (s : Setting) (base : Path) (specifier pattern : Text) :
    Except ResolveError (List Path) :=
  match Glob.expand s.fs base pattern with
  | .error e => .error (.glob e)
  | .ok [] => .error (.glob (.noMatches specifier base))
  | .ok found => .ok found

/-- The files of an import that is a pattern, with the directories that were searched. -/
def resolvePattern (s : Setting) (file : Path) (specifier : Text) :
    List Path × Except ResolveError (List Path) :=
  let glob := Glob.ofSpecifier specifier
  match glob.requireBase with
  | .error e => ([], .error (.glob e))
  | .ok base =>
    match s.resolveBase file base with
    | .error e => ([], .error e)
    | .ok dir => ([dir.asDependency], s.expandBelow dir specifier glob.pattern)

/-- Where an answer leads. -/
def targetOf (specifier : Text) : Except ResolveError (List Path) → Target
  | .ok [] => .failed ("'" ++ specifier ++ "' resolved to no files")
  | .ok paths => .ofPaths (paths.map Path.asDependency)
  | .error e => .failed e.message

/-- Resolves an import of a file. -/
def resolve (s : Setting) (file : Path) (i : Sheet.Import) : Resolution :=
  if s.isPattern file i.specifier then
    let (contexts, answer) := s.resolvePattern file i.specifier
    let failure :=
      match answer with
      | .error e => some e
      | .ok _ => none
    ⟨⟨i.position, i.specifier, targetOf i.specifier answer⟩, contexts, failure⟩
  else
    ⟨⟨i.position, i.specifier, targetOf i.specifier (s.resolveStatic file i.specifier)⟩, [], none⟩

end Setting

end StyleImports
