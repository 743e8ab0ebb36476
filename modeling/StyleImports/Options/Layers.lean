import StyleImports.Files.Basic
import StyleImports.Options.Json
import StyleImports.Options.Variable

/-!
# Options in layers

Options come from the defaults, a configuration file, environment variables and the command line,
each laid over the ones before it: objects are merged member by member and any other value is
replaced. The lists of the command line are added to the lists below them.
-/

set_option autoImplicit false

namespace StyleImports.Options

/-! ## Laying values over each other -/

mutual

/-- A value laid over another one; with `append` a list is added to the list below it. -/
def overlay (append : Bool) : Json → Json → Json
  | .obj lower, .obj upper =>
    .obj (overlayMembers append lower upper ++
      upper.filter fun member => !lower.any fun under => under.1 = member.1)
  | .arr lower, .arr upper => .arr (if append then lower ++ upper else upper)
  | _, upper => upper

/-- The members of an object, each under the member of that name in another one. -/
def overlayMembers (append : Bool) :
    List (JsonString × Json) → List (JsonString × Json) → List (JsonString × Json)
  | [], _ => []
  | (name, value) :: rest, upper =>
    let laid :=
      match upper.find? fun member => member.1 = name with
      | some above => overlay append value above.2
      | none => value
    (name, laid) :: overlayMembers append rest upper

end

/-! ## The layers -/

/-- What the command line sets. -/
structure Overrides where
  included : List Path := []
  imports : List Text := []
  root : Option Path := none
  preresolve : Option Bool := none
  includeCss : Option Bool := none
  resolveUrl : Option Bool := none
  deriving DecidableEq, Repr

/-- A member, if there is a value for it. -/
def member {α : Type} (name : Text) (encode : α → Json) (value : Option α) : List (Text × Json) :=
  value.toList.map fun a => (name, encode a)

def nonEmpty {α : Type} (items : List α) : Option (List α) :=
  if items.isEmpty then none else some items

/-- The layer of the command line; what is not set has no member. -/
def Overrides.toJson (o : Overrides) : Json :=
  .ofMembers
    (member "include" pathsToJson (nonEmpty o.included) ++
      member "import" textsToJson (nonEmpty o.imports) ++
      member "root" (fun p => Json.ofText p.text) o.root ++
      member "webpackImporter" Json.bool o.preresolve ++
      member "includeCss" Json.bool o.includeCss ++
      member "resolveUrl" Json.bool o.resolveUrl)

/-- The layer of environment variables, later ones over earlier ones. -/
def variableLayer (settings : List (Text × Text)) : Json :=
  (settings.filterMap fun v => Variable.setting? v.1 v.2).foldl (overlay false) (.obj [])

/-- The layer of a configuration file, which has to hold an object. -/
def fileLayer? (t : Text) : Option Json :=
  match (Json.parse t).filter (Json.isPlain Json.nestingLimit) with
  | some (.obj members) => some (Json.distinct (.obj members))
  | _ => none

/-- The layers as one value: the defaults, a file, the variables and the command line. -/
def layered (file : Option Json) (settings : List (Text × Text)) (overrides : Overrides) : Json :=
  let base := toJson {}
  let withFile := (file.map (overlay false base)).getD base
  overlay true (overlay false withFile (variableLayer settings)) overrides.toJson

/-- The settings for packages as they are read from layers: of a list the items that are too many
do not count. -/
def cutRecord (value : Json) : Json :=
  match value with
  | .arr items => .arr (items.take packageFields.length)
  | value => value

/-- The options that layers come to. -/
def ofLayers? (value : Json) : Option Options :=
  match value with
  | .obj members =>
    ofJson? (.obj (members.map fun member =>
      if member.1 = some "resolve".toList then (member.1, cutRecord member.2) else member))
  | _ => none

/-! ## Loading -/

/-- Why there are no options. -/
inductive ConfigError where
  | notFound (path : Path)
  | invalid
  deriving DecidableEq, Repr

/-- The name of the configuration file that is read when none is given. -/
def fileName : Path := ⟨"fob-stylus.json"⟩

namespace ConfigError

def message : ConfigError → Text
  | notFound path =>
    "Config file not found: " ++ path.text ++
      "\n\nHint: Create a fob-stylus.json file or drop --config"
  | invalid =>
    "Invalid configuration\n\n" ++
      "Hint: Check fob-stylus.json syntax and FOB_STYLUS_* variables"

end ConfigError

/-- The layer of the configuration file: a given one has to be there, the usual one need not. -/
def loadFile (fs : FileSystem) (cwd : Path) (given : Option Path) :
    Except ConfigError (Option Json) :=
  let path := cwd.join (given.getD fileName)
  if fs.isFile path then
    match fs.readText path with
    | .error _ => .error .invalid
    | .ok text =>
      match fileLayer? text with
      | some layer => .ok (some layer)
      | none => .error .invalid
  else
    match given with
    | some _ => .error (.notFound path)
    | none => .ok none

def load (fs : FileSystem) (cwd : Path) (given : Option Path) (settings : List (Text × Text))
    (overrides : Overrides) : Except ConfigError Options :=
  match loadFile fs cwd given with
  | .error e => .error e
  | .ok file =>
    match ofLayers? (layered file settings overrides) with
    | some options => .ok options
    | none => .error .invalid

end StyleImports.Options
