import StyleImports.Path.Spelling
import StyleImports.Text.Utf8

/-!
# Files

The library sees the files of a project through a `FileSystem`: it reads a file, asks what a path
is, and lists a directory. A file system in memory and a disk offer the same operations and differ
in how they say that one failed.
-/

set_option autoImplicit false

namespace StyleImports

/-- What was being done to a path when the system refused it. -/
inductive FileAction where
  | read
  | stat
  | list
  deriving DecidableEq, Repr

namespace FileAction

def verb : FileAction → Text
  | read => "read"
  | stat => "stat"
  | list => "read directory"

end FileAction

/-- Why the system refused. -/
inductive SystemFault where
  | noEntry
  | notDirectory
  | isDirectory
  | zeroByte
  deriving DecidableEq, Repr

namespace SystemFault

def message : SystemFault → Text
  | noEntry => "No such file or directory (os error 2)"
  | notDirectory => "Not a directory (os error 20)"
  | isDirectory => "Is a directory (os error 21)"
  | zeroByte => "file name contained an unexpected NUL byte"

end SystemFault

/-- Why a file operation failed. -/
inductive FileError where
  /-- Nothing is at the path. -/
  | notFound (path : Path)
  /-- The system refused the action on the path. -/
  | refused (action : FileAction) (path : Path) (fault : SystemFault)
  /-- The file at the path is not UTF-8. -/
  | notText (path : Path) (fault : Utf8Fault)
  deriving DecidableEq, Repr

namespace FileError

def message : FileError → Text
  | notFound path => "File not found: " ++ path.text
  | refused action path fault =>
    "I/O error: Failed to " ++ action.verb ++ " " ++ path.text ++ ": " ++ fault.message
  | notText path fault =>
    "Runtime error: Invalid UTF-8 in " ++ path.text ++ ": " ++ fault.message

end FileError

/-- What a path names. -/
inductive FileKind where
  | file (size : Nat)
  | directory
  deriving DecidableEq, Repr

/-- The operations on files that the library uses. `depth` bounds how many names an existing path
can have, so that a search below a directory ends; `size` is the number of files. -/
structure FileSystem where
  cwd : Path
  read : Path → Except FileError Bytes
  stat : Path → Except FileError FileKind
  list : Path → Except FileError (List Text)
  depth : Nat
  size : Nat

namespace FileSystem

def isDirectory (fs : FileSystem) (p : Path) : Bool :=
  match fs.stat p with
  | .ok .directory => true
  | _ => false

def isFile (fs : FileSystem) (p : Path) : Bool :=
  match fs.stat p with
  | .ok (.file _) => true
  | _ => false

def exists? (fs : FileSystem) (p : Path) : Bool := (fs.stat p).isOk

def readText (fs : FileSystem) (p : Path) : Except FileError Text :=
  match fs.read p with
  | .error e => .error e
  | .ok bytes =>
    match Text.ofUtf8 bytes with
    | .ok text => .ok text
    | .error fault => .error (.notText p fault)

end FileSystem

end StyleImports
