import StyleImports.Glob.Expand
import StyleImports.Json.Read
import StyleImports.Specifier.Basic

/-!
# Looking imports up in directories

An import is looked up in the directory of the file that holds it and then in the search paths:
first under its own name, with `.styl` added to a name without a stylesheet extension, then as a
directory with an index file, and last as a package below `node_modules` that names its main file.
At each step the first directory with an answer decides.
-/

set_option autoImplicit false

namespace StyleImports

/-- The files in which imports are looked up and the search paths. -/
structure Lookup where
  fs : FileSystem
  paths : List Path

namespace Lookup

/-- The specifier with `.styl` added, unless it ends in `.styl` or `.css`, ASCII case aside. -/
def withExtension (specifier : Text) : Text :=
  if Text.endsWithAscii ".styl" specifier || Text.endsWithAscii ".css" specifier then specifier
  else specifier ++ ".styl"

/-- The directory of a file, then the search paths, each of them once. -/
def directories (l : Lookup) (file : Path) : List Path :=
  let own :=
    match file.parent? with
    | some dir => [Path.cleanFrom l.fs.cwd dir]
    | none => []
  (l.paths.map (Path.cleanFrom l.fs.cwd)).foldl Path.addNew own

/-- The stylesheets that a pattern with its directory matches. -/
def globAt (l : Lookup) (candidate : Path) : Option (List Path) :=
  let glob := Glob.ofSpecifier candidate.text
  let base := Path.clean ⟨glob.base⟩
  if l.fs.isDirectory base then
    match Glob.expand l.fs base glob.pattern with
    | .ok (first :: rest) => some (first :: rest)
    | _ => none
  else none

/-- The file that a path names, or the stylesheets that it matches if its specifier is dynamic and
nothing is there under its own name. -/
def fileAt (l : Lookup) (path : Path) (specifier : Text) : Option (List Path) :=
  let candidate := path.clean
  if Glob.isRequest l.fs candidate specifier then l.globAt candidate
  else if l.fs.isFile candidate then some [candidate]
  else none

/-- What a specifier names: an absolute one by itself, any other from the first directory where
something is found. -/
def find (l : Lookup) (specifier : Text) (file : Path) : Option (List Path) :=
  if Specifier.isAbsolute specifier then l.fileAt ⟨specifier⟩ specifier
  else (l.directories file).findSome? fun dir => l.fileAt (dir.join ⟨specifier⟩) specifier

/-- The name without a `.styl` or `.STYL` at its end. -/
def stem (name : Text) : Text :=
  if ".styl".toList.isSuffixOf name || ".STYL".toList.isSuffixOf name then
    name.take (name.length - 5)
  else name

/-- The index file of a directory: `index.styl`, or the stylesheet with the directory's name. -/
def indexFile (l : Lookup) (name : Text) (file : Path) : Option (List Path) :=
  match l.find (name ++ "/index.styl") file with
  | some found => some found
  | none =>
    match (Path.mk name).fileName? with
    | none => none
    | some last => l.find (name ++ '/' :: stem last ++ ".styl") file

/-- The main file that a manifest names in its only field `main`. -/
def mainOf (manifest : Text) : Option Text :=
  match (Json.parse manifest).bind (Json.record? ["main"]) with
  | some [some (.str main)] => main
  | _ => none

/-- The main file of a package directory, or its index file if the manifest names none. -/
def package (l : Lookup) (dir : Text) (file : Path) : Option (List Path) :=
  match (l.find (dir ++ "/package.json") file).bind List.head? with
  | none => l.indexFile dir file
  | some manifest =>
    match manifest.parent? with
    | none => none
    | some home =>
      match l.fs.readText manifest with
      | .error _ => l.indexFile home.text file
      | .ok text =>
        match mainOf text with
        | none => l.indexFile home.text file
        | some main =>
          let entry := (home.join ⟨main⟩).clean
          if l.fs.isFile entry then some [entry] else none

/-- An index file, or a package unless the name itself leads through `node_modules`. -/
def index (l : Lookup) (name : Text) (file : Path) : Option (List Path) :=
  match l.indexFile name file with
  | some found => some found
  | none =>
    if Text.holds "node_modules" name then none
    else l.package ("node_modules/" ++ name) file

/-- The files that an import in `file` names. -/
def resolve (l : Lookup) (specifier : Text) (file : Path) : Option (List Path) :=
  match l.find (withExtension specifier) file with
  | some found => some found
  | none => l.index specifier file

end Lookup

end StyleImports
