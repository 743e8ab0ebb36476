import StyleImports.Files.Basic
import StyleImports.Path.Table

/-!
# Files in memory

A memory file system stores files under cleaned paths, relative ones seen from its working
directory. There are no directories of their own: a path is a directory when a stored file lies
below it. A path can be a file and a directory at once; it then counts as a file.
-/

set_option autoImplicit false

namespace StyleImports

/-- Files in memory. -/
structure Memory where
  cwd : Path
  files : PathTable Bytes

namespace Memory

def empty (cwd : Path) : Memory := ⟨cwd, .empty⟩

/-- The path under which a file is stored. -/
def place (m : Memory) (p : Path) : Path := Path.cleanFrom m.cwd p

/-- Stores a file, in place of one that is there. -/
def add (m : Memory) (p : Path) (content : Bytes) : Memory :=
  { m with files := m.files.insert (m.place p) content }

def has (m : Memory) (p : Path) : Bool := m.files.contains (m.place p)

def remove (m : Memory) (p : Path) : Memory := { m with files := m.files.erase (m.place p) }

/-- Whether a stored file lies strictly below a cleaned path. -/
def isAbove (m : Memory) (p : Path) : Bool :=
  m.files.keys.any fun file => !file.same p && file.startsWith p

/-- The name of the entry of directory `p` that a stored file lies in or is. -/
def entryName? (p file : Path) : Option Text :=
  if file.startsWith p then (file.parts.drop p.parts.length).head?.map Part.text else none

/-- Puts a name into an ascending list without duplicates. -/
def insertName (name : Text) : List Text → List Text
  | [] => [name]
  | other :: rest =>
    if name = other then other :: rest
    else if List.lex name other fun a b => a.toNat < b.toNat then name :: other :: rest
    else other :: insertName name rest

/-- The names of the entries of a directory, ascending. -/
def entryNames (m : Memory) (p : Path) : List Text :=
  (m.files.keys.filterMap (entryName? p)).foldl (fun names name => insertName name names) []

def read (m : Memory) (p : Path) : Except FileError Bytes :=
  match m.files.get? (m.place p) with
  | some content => .ok content
  | none => .error (.notFound (m.place p))

def stat (m : Memory) (p : Path) : Except FileError FileKind :=
  match m.files.get? (m.place p) with
  | some content => .ok (.file content.length)
  | none => if m.isAbove (m.place p) then .ok .directory else .error (.notFound (m.place p))

def list (m : Memory) (p : Path) : Except FileError (List Text) :=
  match m.entryNames (m.place p) with
  | [] => .error (.notFound (m.place p))
  | names => .ok names

/-- The largest number of parts of a stored path. -/
def depth (m : Memory) : Nat := (m.files.keys.map (·.parts.length)).foldl max 0

def fileSystem (m : Memory) : FileSystem where
  cwd := m.cwd
  read := m.read
  stat := m.stat
  list := m.list
  depth := m.depth
  size := m.files.size

end Memory

end StyleImports
