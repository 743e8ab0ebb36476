import StyleImports.Graph.Walk
import StyleImports.Options.Fingerprint
import StyleImports.Render.Inline

/-!
# Compiling a stylesheet

A loader puts its configured text and imports before an entry, walks the import graph of the result
and renders it with the files that the walk found. What comes out is the text, the graph with its
diagnostics, and what has to be watched for changes. Without the walk ahead every import is left to
the renderer.
-/

set_option autoImplicit false

namespace StyleImports

structure Loader where
  fs : FileSystem
  options : Options
  resolvers : Resolvers

/-- A compiled entry: its text, its import graph, the stylesheets and directories to watch, and the
names of the files it is made of, the entry first. -/
structure Compiled where
  code : Text
  index : Index
  diagnostics : List Diagnostic
  files : PathSet
  contexts : PathSet
  sources : List Text

/-- Why there is no compiled entry. -/
inductive LoadError where
  | unreadEntry (path : Path) (error : FileError)
  | render (error : RenderError)
  deriving DecidableEq, Repr

namespace LoadError

def message : LoadError → Text
  | unreadEntry path error =>
    "Failed to read entry '" ++ path.text ++ "': " ++ error.message
  | render error => error.message

end LoadError

/-- Why a compilation stops: it fails, or its budget is spent. -/
inductive LoadStop where
  | failed (error : LoadError)
  | tooDeep
  deriving DecidableEq, Repr

namespace Loader

/-- A specifier in quotes, as a stylesheet reads it. -/
def quote (specifier : Text) : Text :=
  let escaped := specifier.flatMap fun c => if c = '\\' || c = '\x22' then ['\\', c] else [c]
  '\x22' :: (escaped ++ ['\x22'])

/-- The header of an entry, closed by a line feed. -/
def headerLine : Option Text → Text
  | none => []
  | some header => if header.getLast? = some '\n' then header else header ++ ['\n']

def importLine (specifier : Text) : Text :=
  ImportKind.always.keyword ++ ' ' :: quote specifier ++ ['\n']

/-- The header, an import for each configured specifier, and the source itself. -/
def prepare (l : Loader) (source : Text) : Text :=
  headerLine l.options.header ++ l.options.imports.flatMap importLine ++ source

def absolute (l : Loader) (p : Path) : Path := l.fs.cwd.absoluteFrom p

/-- The root that sources are named from. -/
def sourceRoot (l : Loader) : Path :=
  match l.options.root with
  | some root => l.absolute root
  | none => l.fs.cwd

def setting (l : Loader) : Setting where
  fs := l.fs
  resolvers := l.resolvers
  options := ⟨l.options.searchPaths, l.options.rootRequest, l.options.fingerprint⟩

/-- What the entry is rendered with, given its import graph. -/
def renderer (l : Loader) (index : Option Index) : Renderer where
  fs := l.fs
  paths := l.options.searchPaths
  includeCss := l.options.includeCss
  urls := if l.options.urls.enabled then some l.options.urls else none
  index := index

def walk (l : Loader) (budget : Nat) (cache : Option Cache) (entry : Path) (source : Text) :
    Option (Walk × Option Cache) :=
  Walk.fromSource l.setting budget cache (l.absolute entry) (l.prepare source)

/-- The compiled entry of a finished walk and render. -/
def assemble (l : Loader) (entry : Path) (walk : Option Walk) (out : Rendered) : Compiled :=
  let files := (walk.map Walk.files).getD .empty
  { code := out.code
    index := (walk.map Walk.index).getD .empty
    diagnostics := (walk.map Walk.diagnostics).getD []
    files := (out.imports.map Path.asDependency).foldl PathSet.add files
    contexts := (walk.map Walk.contexts).getD .empty
    sources := (entry :: out.imports).map fun p => Specifier.sourceName l.sourceRoot p.text }

def finish (l : Loader) (entry : Path) (walk : Option Walk) (code : Text) :
    Except LoadStop Compiled :=
  match (l.renderer (walk.map Walk.index)).render entry code with
  | .error (.failed e) => .error (.failed (.render e))
  | .error .tooDeep => .error .tooDeep
  | .ok out => .ok (l.assemble entry walk out)

/-- Compiles an entry with the given source; the cache is returned as its walk leaves it. -/
def compile (l : Loader) (budget : Nat) (cache : Option Cache) (entry : Path) (source : Text) :
    Except LoadStop Compiled × Option Cache :=
  let entry := l.absolute entry
  if l.options.preresolve then
    match Walk.fromSource l.setting budget cache entry (l.prepare source) with
    | none => (.error .tooDeep, cache)
    | some (walk, cache) => (l.finish entry (some walk) (l.prepare source), cache)
  else (l.finish entry none (l.prepare source), cache)

def readEntry (l : Loader) (entry : Path) : Except LoadError Text :=
  match l.fs.readText (l.absolute entry) with
  | .ok text => .ok text
  | .error e => .error (.unreadEntry (l.absolute entry) e)

def compileFile (l : Loader) (budget : Nat) (cache : Option Cache) (entry : Path) :
    Except LoadStop Compiled × Option Cache :=
  match l.readEntry entry with
  | .error e => (.error (.failed e), cache)
  | .ok source => l.compile budget cache (l.absolute entry) source

def walkFile (l : Loader) (budget : Nat) (cache : Option Cache) (entry : Path) :
    Except LoadStop Walk × Option Cache :=
  match l.readEntry entry with
  | .error e => (.error (.failed e), cache)
  | .ok source =>
    match l.walk budget cache (l.absolute entry) source with
    | none => (.error .tooDeep, cache)
    | some (walk, cache) => (.ok walk, cache)

end Loader

end StyleImports
