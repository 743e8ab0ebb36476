import StyleImports.Files.Basic

/-!
# Files on a disk

A disk holds files and directories by the names on the way from the root. A path is walked name by
name, as the system does: every name but the last has to be a directory, `..` goes back up, and a
slash at the end asks for a directory. Faults are reported with the path as it was given.
-/

set_option autoImplicit false

namespace StyleImports

/-- Files and directories by the names on the way to them. The root is always a directory. -/
structure Disk where
  cwd : Path
  files : List (List Text × Bytes)
  directories : List (List Text)

namespace Disk

/-- The names of an absolute path, as far as its text tells. -/
def namesOf (p : Path) : List Text :=
  p.clean.parts.filterMap fun part =>
    match part with
    | .name n => some n
    | _ => none

/-- The names of a directory and of every directory on the way to it. -/
def wayTo (names : List Text) : List (List Text) := (List.range (names.length + 1)).map names.take

def empty (cwd : Path) : Disk := ⟨cwd, [], wayTo (namesOf cwd)⟩

def fileAt? (d : Disk) (names : List Text) : Option Bytes :=
  (d.files.find? fun file => file.1 = names).map (·.2)

def isDirectoryAt (d : Disk) (names : List Text) : Bool := names = [] || names ∈ d.directories

def kindAt? (d : Disk) (names : List Text) : Option FileKind :=
  match d.fileAt? names with
  | some content => some (.file content.length)
  | none => if d.isDirectoryAt names then some .directory else none

/-- Follows segments from a place on the disk. -/
def follow (d : Disk) : List Text → List Text → Except SystemFault (List Text)
  | names, [] => .ok names
  | names, segment :: rest =>
    match d.kindAt? names with
    | none => .error .noEntry
    | some (.file _) => .error .notDirectory
    | some .directory =>
      if Path.isIdle segment then follow d names rest
      else if segment = ['.', '.'] then follow d names.dropLast rest
      else follow d (names ++ [segment]) rest

/-- The place that relative paths are followed from. -/
def start (d : Disk) (p : Path) : List Text := if p.isAbsolute then [] else namesOf d.cwd

/-- The names that a path leads to, whether or not something is there. -/
def walk (d : Disk) (p : Path) : Except SystemFault (List Text) :=
  if p.text = [] then .error .noEntry
  else if '\x00' ∈ p.text then .error .zeroByte
  else d.follow (d.start p) (Text.splitOn '/' p.text)

/-- What a path leads to, with its names. -/
def lookUp (d : Disk) (p : Path) : Except SystemFault (List Text × FileKind) :=
  match d.walk p with
  | .error fault => .error fault
  | .ok names =>
    match d.kindAt? names with
    | none => .error .noEntry
    | some kind => .ok (names, kind)

/-- A fault as an error: a missing entry is reported on its own. -/
def errorOf (action : FileAction) (p : Path) : SystemFault → FileError
  | .noEntry => .notFound p
  | fault => .refused action p fault

def read (d : Disk) (p : Path) : Except FileError Bytes :=
  match d.lookUp p with
  | .error fault => .error (errorOf .read p fault)
  | .ok (_, .directory) => .error (errorOf .read p .isDirectory)
  | .ok (names, .file _) => .ok ((d.fileAt? names).getD [])

def stat (d : Disk) (p : Path) : Except FileError FileKind :=
  match d.lookUp p with
  | .error fault => .error (errorOf .stat p fault)
  | .ok (_, kind) => .ok kind

/-- The last names of the entries directly in a directory, in the order of their creation. -/
def entryNames (d : Disk) (names : List Text) : List Text :=
  (d.directories ++ d.files.map (·.1)).filterMap fun entry =>
    if entry ≠ [] && entry.dropLast = names then entry.getLast? else none

def list (d : Disk) (p : Path) : Except FileError (List Text) :=
  match d.lookUp p with
  | .error fault => .error (errorOf .list p fault)
  | .ok (_, .file _) => .error (errorOf .list p .notDirectory)
  | .ok (names, .directory) => .ok (d.entryNames names)

/-- The largest number of names on the way to an entry. -/
def depth (d : Disk) : Nat :=
  ((d.directories ++ d.files.map (·.1)).map List.length).foldl max 0

def fileSystem (d : Disk) : FileSystem where
  cwd := d.cwd
  read := d.read
  stat := d.stat
  list := d.list
  depth := d.depth
  size := d.files.length

/-! ## Changes -/

def putFile (d : Disk) (names : List Text) (content : Bytes) : Disk :=
  { d with files := (d.files.filter fun file => file.1 ≠ names) ++ [(names, content)] }

/-- Stores a file and the directories on the way to it. -/
def add (d : Disk) (p : Path) (content : Bytes) : Disk :=
  let names := namesOf (d.cwd.join p)
  let fresh := (wayTo names.dropLast).filter (· ∉ d.directories)
  { d with directories := d.directories ++ fresh }.putFile names content

/-- Removes a file; its directory stays. -/
def remove (d : Disk) (p : Path) : Disk :=
  match d.lookUp p with
  | .ok (names, .file _) => { d with files := d.files.filter fun file => file.1 ≠ names }
  | _ => d

/-- Writes a file into an existing directory. A path that ends in a slash, `.` or `..` asks for a
directory, which cannot be written. -/
def write (d : Disk) (p : Path) (content : Bytes) : Except SystemFault Disk :=
  if p.text = [] then .error .noEntry
  else if '\x00' ∈ p.text then .error .zeroByte
  else
    let segments := Text.splitOn '/' p.text
    let last := segments.getLastD []
    match d.follow (d.start p) segments.dropLast with
    | .error fault => .error fault
    | .ok above =>
      match d.kindAt? above with
      | none => .error (if last = [] then .isDirectory else .noEntry)
      | some (.file _) => .error (if last = [] then .isDirectory else .notDirectory)
      | some .directory =>
        if Path.isIdle last || last = ['.', '.'] then .error .isDirectory
        else if d.isDirectoryAt (above ++ [last]) then .error .isDirectory
        else .ok (d.putFile (above ++ [last]) content)

end Disk

end StyleImports
