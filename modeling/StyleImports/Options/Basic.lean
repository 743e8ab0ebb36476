import StyleImports.Path.Basic

/-!
# Options

The options of a loader: where imports are looked up, what is put before a stylesheet, how packages
are resolved and whether URLs are rebased.
-/

set_option autoImplicit false

namespace StyleImports

/-- How requests for packages are resolved: replacements of requests by name in the order of the
names, the conditions and the fields of a manifest that are looked at, the names of index files,
the extensions that may be left out, and the directories that hold packages. -/
structure PackageOptions where
  aliases : List (Text × Text) := []
  conditions : List Text := ["styl", "stylus", "style"]
  mainFields : List Text := ["styl", "style", "stylus", "main"]
  mainFiles : List Text := ["index"]
  extensions : List Text := [".styl", ".css"]
  directories : List Text := ["node_modules"]
  deriving DecidableEq, Repr

/-- How URLs in imported files are rebased: whether at all, whether without looking for the
file, and where a file is looked for besides the search paths. -/
structure UrlOptions where
  enabled : Bool := true
  unchecked : Bool := false
  paths : List Path := []
  deriving DecidableEq, Repr

/-- The options of a loader. -/
structure Options where
  /-- Search directories. -/
  paths : List Path := []
  /-- Specifiers imported at the top of every entry. -/
  imports : List Text := []
  /-- Search directories after `paths`. -/
  included : List Path := []
  /-- Whether imports of `.css` files are put in. -/
  includeCss : Bool := false
  /-- Whether imports are resolved ahead of rendering. -/
  preresolve : Bool := true
  /-- Text before every entry. -/
  header : Option Text := none
  /-- The root of requests from the root and of the list of sources. -/
  root : Option Path := none
  packages : PackageOptions := {}
  urls : UrlOptions := {}
  deriving DecidableEq, Repr

namespace Options

/-- The search directories, each of them once. -/
def searchPaths (o : Options) : List Path := (o.paths ++ o.included).foldl Path.addNew []

/-- The root as the start of a request. -/
def rootRequest (o : Options) : Option Text := o.root.map Path.text

end Options

end StyleImports
