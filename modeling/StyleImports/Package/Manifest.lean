import StyleImports.Files.Basic
import StyleImports.Json.Read
import StyleImports.Package.Error

/-!
# Manifests

A directory is a package when it holds a readable `package.json`. A manifest that is no JSON
document is an error wherever it is asked for.
-/

set_option autoImplicit false

namespace StyleImports

/-- The members of the manifest of a directory. -/
structure Manifest where
  directory : Path
  fields : List (Text × Json)

namespace Manifest

def fileIn (dir : Path) : Path := dir.join ⟨"package.json"⟩

def field? (m : Manifest) (name : Text) : Option Json :=
  (m.fields.find? fun entry => entry.1 = name).map (·.2)

def name? (m : Manifest) : Option Text := (m.field? "name").bind Json.text?

/-- The main files, by the fields that are looked at. -/
def mains (m : Manifest) (fields : List Text) : List Text :=
  fields.filterMap fun field => (m.field? field).bind Json.text?

def withoutMark (t : Text) : Text :=
  match t with
  | '\ufeff' :: rest => rest
  | t => t

/-- The document of a manifest; numbers and texts in it have to be sound throughout. -/
def parse (t : Text) : Option Json :=
  (Json.parse (withoutMark t)).filter (Json.isPlain Json.nestingLimit)

/-- The manifest of a directory, none if it cannot be read. -/
def load (fs : FileSystem) (dir : Path) : Except PackageError (Option Manifest) :=
  match fs.read (fileIn dir) with
  | .error _ => .ok none
  | .ok bytes =>
    match Text.ofUtf8 bytes with
    | .error _ => .error (.invalidManifest (fileIn dir))
    | .ok text =>
      match parse text with
      | none => .error (.invalidManifest (fileIn dir))
      | some document => .ok (some ⟨dir, document.entries⟩)

def loadFirst (fs : FileSystem) : List Path → Except PackageError (Option Manifest)
  | [] => .ok none
  | dir :: rest =>
    match load fs dir with
    | .error e => .error e
    | .ok (some manifest) => .ok (some manifest)
    | .ok none => loadFirst fs rest

/-- The manifest of the nearest package around a path. -/
def around (fs : FileSystem) (p : Path) : Except PackageError (Option Manifest) :=
  loadFirst fs ((p :: p.ancestors).dropWhile fun dir => !fs.isDirectory dir)

/-- The directories from a path up to the one that holds its packages; none if there is no such. -/
def insidePackages (p : Path) : Option (List Path) :=
  let way := p :: p.ancestors
  let isHome := fun dir : Path => dir.fileName? = some "node_modules".toList
  if way.any isHome then some (way.takeWhile (!isHome ·)) else none

/-- Whether every manifest that tells about a file is sound: those of its package, or of the
nearest package around it. -/
def check (fs : FileSystem) (p : Path) : Except PackageError Unit :=
  match insidePackages p with
  | some dirs =>
    match (dirs.filter fs.isDirectory).mapM (load fs) with
    | .ok _ => .ok ()
    | .error e => .error e
  | none =>
    match around fs p with
    | .ok _ => .ok ()
    | .error e => .error e

end Manifest

end StyleImports
