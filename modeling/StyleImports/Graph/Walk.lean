import StyleImports.Cache.Basic
import StyleImports.Digest.Sha256
import StyleImports.Graph.Cycle
import StyleImports.Graph.Resolution
import StyleImports.Sheet.Parse

/-!
# Walking the import graph

A walk starts from an entry with its source. A file is parsed, its imports are resolved, the files
that they lead to and that no one has claimed yet are claimed and visited in turn, and the file is
then entered into the index. A file that cannot be read or parsed has no imports and is reported.
Once every file is done, the edges that close a cycle are reported too.

The budget of a walk bounds how deep visits may be nested; a walk that exceeds it has no result.
With a cache, the imports of a file whose content was seen before are served from it, unless one
of them is dynamic.
-/

set_option autoImplicit false

namespace StyleImports

/-- What a walk yields: the graph, the diagnostics in their order, every stylesheet that an import
leads to and every directory that a pattern was expanded below. -/
structure Walk where
  index : Index
  diagnostics : List Diagnostic
  files : PathSet
  contexts : PathSet

/-- The entry of a walk that cannot be read. -/
structure UnreadFile where
  path : Path
  error : FileError
  deriving DecidableEq, Repr

def UnreadFile.message (e : UnreadFile) : Text :=
  "Failed to read file '" ++ e.path.text ++ "': " ++ e.error.message

/-- A walk under way: the files claimed so far and what was found. -/
structure WalkState where
  seen : List Path
  index : Index
  diagnostics : List Diagnostic
  files : PathSet
  contexts : PathSet
  cache : Option Cache

namespace WalkState

/-- The start of a walk, with its entry claimed. -/
def start (entry : Path) (cache : Option Cache) : WalkState :=
  ⟨[entry], .empty, [], .empty, .empty, cache⟩

/-- Enters a file with its imports into the index. -/
def commit (st : WalkState) (file : Path) (dependencies : List Dependency) : WalkState :=
  { st with index := st.index.insert file dependencies }

def report (st : WalkState) (file : Path) (finding : Finding) : WalkState :=
  { st with diagnostics := st.diagnostics ++ [⟨file, finding⟩] }

def fail (st : WalkState) (file : Path) (finding : Finding) : WalkState :=
  (st.report file finding).commit file []

/-- Notes the directories and the failure of a resolved import. -/
def note (file : Path) (st : WalkState) (r : Resolution) : WalkState :=
  let st := { st with contexts := r.contexts.foldl PathSet.add st.contexts }
  match r.failure with
  | none => st
  | some e => st.report file (.unresolved r.dependency.position e)

/-- Claims the paths that imports lead to; the fresh ones are returned in order. -/
def claim (st : WalkState) (paths : List Path) : List Path × WalkState :=
  paths.foldl
    (fun claimed path =>
      let (fresh, st) := claimed
      let st := { st with files := st.files.add path }
      if path.isAmong st.seen then (fresh, st)
      else (fresh ++ [path], { st with seen := path :: st.seen }))
    ([], st)

end WalkState

namespace Walk

/-- Imports that a cache may serve: none of them is dynamic. -/
def isCacheable (imports : List Sheet.Import) : Bool :=
  imports.all fun i => !Glob.isDynamic i.specifier

/-- Resolves the imports of a file and notes what happened. -/
def resolveFresh (s : Setting) (file : Path) (imports : List Sheet.Import) (st : WalkState) :
    List Dependency × WalkState :=
  let resolutions := imports.map (s.resolve file)
  (resolutions.map Resolution.dependency, resolutions.foldl (WalkState.note file) st)

/-- Resolves the imports of a file with the given source, from the cache if it can serve them. The
cache keeps the outcome unless an import failed. -/
def resolveImports (s : Setting) (file : Path) (source : Text) (imports : List Sheet.Import)
    (st : WalkState) : List Dependency × WalkState :=
  match st.cache.filter fun _ => isCacheable imports with
  | none => resolveFresh s file imports st
  | some cache =>
    let content := Sha256.ofText source
    match cache.get file content s.options.fingerprint s.fs.isFile with
    | (some dependencies, cache) => (dependencies, { st with cache := some cache })
    | (none, cache) =>
      let (dependencies, st) := resolveFresh s file imports { st with cache := some cache }
      if dependencies.all fun d => !d.target.isFailed then
        let entry := ⟨content, s.options.fingerprint, dependencies⟩
        (dependencies, { st with cache := some (cache.insert file entry) })
      else (dependencies, st)

/-- Visits a file with its source, and every unclaimed file that it leads to. -/
def visit (s : Setting) : Nat → Path → Text → WalkState → Option WalkState
  | 0, _, _, _ => none
  | budget + 1, file, source, st =>
    match Sheet.parse source with
    | .error e => some (st.fail file (.unparsed e))
    | .ok nodes =>
      let (dependencies, st) := resolveImports s file source (Sheet.importsOf nodes) st
      let (children, st) := st.claim (dependencies.flatMap fun d => d.target.paths)
      let visited := children.foldlM
        (fun st child =>
          match s.fs.readText child with
          | .error e => some (st.fail child (.unread e))
          | .ok text => visit s budget child text st)
        st
      visited.map fun st => st.commit file dependencies

def cycles (index : Index) (entry : Path) : List Diagnostic :=
  (index.backEdges entry).map fun edge => ⟨edge.file, .cycle edge.position edge.target⟩

def ofState (entry : Path) (st : WalkState) : Walk where
  index := st.index
  diagnostics := Diagnostic.sort (st.diagnostics ++ cycles st.index entry)
  files := st.files
  contexts := st.contexts

/-- More nested visits than a machine can hold. -/
def depthLimit : Nat := Nat.pow 2 48

/-- Walks from an entry with the given source; the cache is returned as the walk leaves it. -/
def fromSource (s : Setting) (budget : Nat) (cache : Option Cache) (entry : Path) (source : Text) :
    Option (Walk × Option Cache) :=
  let entry := s.fs.cwd.absoluteFrom entry
  (visit s budget entry source (.start entry cache)).map fun st => (ofState entry st, st.cache)

def fromFile (s : Setting) (budget : Nat) (cache : Option Cache) (entry : Path) :
    Except UnreadFile (Option (Walk × Option Cache)) :=
  let entry := s.fs.cwd.absoluteFrom entry
  match s.fs.readText entry with
  | .error e => .error ⟨entry, e⟩
  | .ok source => .ok (fromSource s budget cache entry source)

end Walk

end StyleImports
