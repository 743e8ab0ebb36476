import Mathlib.Logic.Relation
import StyleImports.Graph.Walk

/-!
# Interleaved walks

A walk has many branches in flight, one for each file that was claimed and is not yet in the index.
A branch reads its file, parses it and resolves its imports, claims the targets that no one has
claimed, and commits its imports to the index. Each of these is one step, and so is every note that
a branch makes while it resolves; any branch may take the next step (`Step`).

An interleaving is a run of steps from `Progress.start`. It is complete when no branch is in
flight. The walk of `Walk.fromSource` is the interleaving in which the branch that was claimed last
goes first. Here a branch may commit before the files that it has claimed are done, so every order
that waits for them is among the interleavings.
-/

set_option autoImplicit false

namespace StyleImports

/-- What a branch tells the others while it resolves: a directory to watch, or a finding. -/
inductive Note where
  | context (dir : Path)
  | finding (finding : Finding)
  deriving DecidableEq, Repr

namespace Note

def context? : Note → Option Path
  | context dir => some dir
  | finding _ => none

def finding? : Note → Option Finding
  | context _ => none
  | finding f => some f

end Note

def Resolution.notes (r : Resolution) : List Note :=
  r.contexts.map .context ++
    (r.failure.map fun e => .finding (.unresolved r.dependency.position e)).toList

/-- What the content of a file comes to: its imports as they are resolved, and the notes. -/
structure Reading where
  dependencies : List Dependency
  notes : List Note
  deriving DecidableEq, Repr

namespace Reading

/-- The paths that the imports lead to. -/
def targets (r : Reading) : List Path := r.dependencies.flatMap fun d => d.target.paths

/-- The directories to watch. -/
def contexts (r : Reading) : List Path := r.notes.filterMap Note.context?

end Reading

namespace Setting

/-- What a file with the given content comes to. A file that cannot be read or parsed has no
imports. -/
def reading (s : Setting) (file : Path) : Except FileError Text → Reading
  | .error e => ⟨[], [.finding (.unread e)]⟩
  | .ok text =>
    match Sheet.parse text with
    | .error e => ⟨[], [.finding (.unparsed e)]⟩
    | .ok nodes =>
      let resolutions := (Sheet.importsOf nodes).map (s.resolve file)
      ⟨resolutions.map Resolution.dependency, resolutions.flatMap Resolution.notes⟩

/-- The content of a file in a walk from an entry with the given source. -/
def contentOf (s : Setting) (entry : Path) (source : Text) (file : Path) : Except FileError Text :=
  if file.same entry then .ok source else s.fs.readText file

/-- What a file comes to in a walk from an entry with the given source. -/
def readingOf (s : Setting) (entry : Path) (source : Text) (file : Path) : Reading :=
  s.reading file (s.contentOf entry source file)

end Setting

def WalkState.take (st : WalkState) (file : Path) : Note → WalkState
  | .context dir => { st with contexts := st.contexts.add dir }
  | .finding finding => st.report file finding

namespace Walk

/-! ## Branches -/

/-- How far a branch is: its file is claimed, its content is there, its imports are resolved but
some notes are not made, or its targets are claimed too. -/
inductive Stage where
  | claimed
  | opened (content : Except FileError Text)
  | resolving (dependencies : List Dependency) (notes : List Note)
  | waiting (dependencies : List Dependency)

/-- The visit of a file under way. -/
structure Branch where
  file : Path
  stage : Stage

/-- What is counted: a file is read, and a file with its content is visited. -/
inductive Event where
  | read (file : Path)
  | visit (file : Path)
  deriving DecidableEq, Repr

namespace Event

def read? : Event → Option Path
  | read file => some file
  | visit _ => none

def visit? : Event → Option Path
  | read _ => none
  | visit file => some file

/-- The event of going through the content of a file. -/
def ofContent (file : Path) : Except FileError Text → List Event
  | .error _ => []
  | .ok _ => [.visit file]

end Event

/-- One step of a branch: what becomes of the shared state, which branches take its place, and what
happens. -/
inductive Advance (s : Setting) :
    WalkState → Branch → WalkState → List Branch → List Event → Prop where
  | read (st : WalkState) (file : Path) :
      Advance s st ⟨file, .claimed⟩ st [⟨file, .opened (s.fs.readText file)⟩] [.read file]
  | visit (st : WalkState) (file : Path) (content : Except FileError Text) :
      Advance s st ⟨file, .opened content⟩ st
        [⟨file, .resolving (s.reading file content).dependencies (s.reading file content).notes⟩]
        (Event.ofContent file content)
  | note (st : WalkState) (file : Path) (dependencies : List Dependency) (first rest : List Note)
      (n : Note) :
      Advance s st ⟨file, .resolving dependencies (first ++ n :: rest)⟩ (st.take file n)
        [⟨file, .resolving dependencies (first ++ rest)⟩] []
  | claim (st : WalkState) (file : Path) (dependencies : List Dependency) :
      Advance s st ⟨file, .resolving dependencies []⟩
        (st.claim (dependencies.flatMap fun d => d.target.paths)).2
        (⟨file, .waiting dependencies⟩ ::
          (st.claim (dependencies.flatMap fun d => d.target.paths)).1.map fun child =>
            ⟨child, .claimed⟩) []
  | commit (st : WalkState) (file : Path) (dependencies : List Dependency) :
      Advance s st ⟨file, .waiting dependencies⟩ (st.commit file dependencies) [] []

/-! ## Interleavings -/

/-- A walk under way: the shared state, the branches in flight and what happened. -/
structure Progress where
  state : WalkState
  branches : List Branch
  log : List Event

namespace Progress

/-- A walk that starts from an entry with the given source. -/
def start (entry : Path) (source : Text) : Progress :=
  ⟨.start entry none, [⟨entry, .opened (.ok source)⟩], []⟩

/-- The files that were read, in order. -/
def reads (c : Progress) : List Path := c.log.filterMap Event.read?

/-- The files that were visited, in order. -/
def visits (c : Progress) : List Path := c.log.filterMap Event.visit?

end Progress

/-- Some branch takes a step. -/
inductive Step (s : Setting) : Progress → Progress → Prop where
  | advance {st st' : WalkState} {branch : Branch} {branches : List Branch} {events : List Event}
      (before after : List Branch) (log : List Event) :
      Advance s st branch st' branches events →
      Step s ⟨st, before ++ branch :: after, log⟩
        ⟨st', before ++ (branches ++ after), log ++ events⟩

/-- Steps of any number. -/
abbrev Steps (s : Setting) : Progress → Progress → Prop := Relation.ReflTransGen (Step s)

/-- What interleavings of a walk from an entry with the given source lead to. -/
def Reachable (s : Setting) (entry : Path) (source : Text) (c : Progress) : Prop :=
  Steps s (.start (s.fs.cwd.absoluteFrom entry) source) c

end Walk

end StyleImports
