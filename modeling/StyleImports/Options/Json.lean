import StyleImports.Json.Read
import StyleImports.Json.Write
import StyleImports.Options.Basic

/-!
# Options in JSON

Options are written with every field in order. When they are read, a field that is left out has its
default and an unknown one is skipped, while a field that is named twice or has a value of another
kind makes the whole text invalid. The setting for URLs may also be `true` or `false`.
-/

set_option autoImplicit false

namespace StyleImports.Options

/-! ## Writing -/

def textsToJson (ts : List Text) : Json := .arr (ts.map Json.ofText)

def pathsToJson (ps : List Path) : Json := .arr (ps.map fun p => Json.ofText p.text)

/-- A text, or null for none. -/
def optionalToJson : Option Text → Json
  | some t => .ofText t
  | none => .null

/-- The settings for packages, every field in order. -/
def packagesToJson (o : PackageOptions) : Json :=
  .ofMembers
    [("alias", .ofMembers (o.aliases.map fun entry => (entry.1, Json.ofText entry.2))),
     ("conditionNames", textsToJson o.conditions),
     ("mainFields", textsToJson o.mainFields),
     ("mainFiles", textsToJson o.mainFiles),
     ("extensions", textsToJson o.extensions),
     ("modules", textsToJson o.directories)]

def urlsToJson (o : UrlOptions) : Json :=
  .ofMembers
    [("enabled", .bool o.enabled), ("nocheck", .bool o.unchecked), ("paths", pathsToJson o.paths)]

/-- The options, every field in order. -/
def toJson (o : Options) : Json :=
  .ofMembers
    [("paths", pathsToJson o.paths),
     ("import", textsToJson o.imports),
     ("include", pathsToJson o.included),
     ("includeCss", .bool o.includeCss),
     ("webpackImporter", .bool o.preresolve),
     ("additionalData", optionalToJson o.header),
     ("root", optionalToJson (o.root.map Path.text)),
     ("resolve", packagesToJson o.packages),
     ("resolveUrl", urlsToJson o.urls)]

/-! ## Reading -/

/-- The value of a field, or its default if the field is left out. -/
def fieldOr {α : Type} (default : α) (read : Json → Option α) : Option Json → Option α
  | none => some default
  | some value => read value

def paths? (value : Json) : Option (List Path) := value.texts?.map fun ts => ts.map Path.mk

/-- A text, or none for null. -/
def optional? : Json → Option (Option Text)
  | .null => some none
  | value => value.text?.map some

/-- Puts a member into its place by name; a later one of a name counts. -/
def putAlias (name value : Text) : List (Text × Text) → List (Text × Text)
  | [] => [(name, value)]
  | (other, old) :: rest =>
    if name = other then (name, value) :: rest
    else if List.lex name other fun a b => a.toNat < b.toNat then
      (name, value) :: (other, old) :: rest
    else (other, old) :: putAlias name value rest

/-- The replacements that an object names, in the order of the names. -/
def aliases? : Json → Option (List (Text × Text))
  | .obj members =>
    members.foldlM
      (fun aliases member =>
        match member.1, member.2.text? with
        | some name, some value => some (putAlias name value aliases)
        | _, _ => none)
      []
  | _ => none

def packageFields : List Text :=
  ["alias", "conditionNames", "mainFields", "mainFiles", "extensions", "modules"]

def packages? (value : Json) : Option PackageOptions := do
  let fields ← value.record? packageFields
  let usual : PackageOptions := {}
  match fields with
  | [aliases, conditions, mainFields, mainFiles, extensions, directories] =>
    pure
      { aliases := ← fieldOr usual.aliases aliases? aliases
        conditions := ← fieldOr usual.conditions Json.texts? conditions
        mainFields := ← fieldOr usual.mainFields Json.texts? mainFields
        mainFiles := ← fieldOr usual.mainFiles Json.texts? mainFiles
        extensions := ← fieldOr usual.extensions Json.texts? extensions
        directories := ← fieldOr usual.directories Json.texts? directories }
  | _ => none

def urlFields : List Text := ["enabled", "nocheck", "paths"]

def urlSettings? (value : Json) : Option UrlOptions := do
  let fields ← value.record? urlFields
  let usual : UrlOptions := {}
  match fields with
  | [enabled, unchecked, paths] =>
    pure
      { enabled := ← fieldOr usual.enabled Json.bool? enabled
        unchecked := ← fieldOr usual.unchecked Json.bool? unchecked
        paths := ← fieldOr usual.paths paths? paths }
  | _ => none

/-- The settings for URLs: a switch, or an object that is plain throughout; it lies in the object
of the options, which takes a level of nesting. -/
def urls? (value : Json) : Option UrlOptions :=
  match value with
  | .bool enabled => some { enabled := enabled }
  | .obj _ => if value.isPlain (Json.nestingLimit - 1) then urlSettings? value else none
  | _ => none

def fieldNames : List Text :=
  ["paths", "import", "include", "includeCss", "webpackImporter", "additionalData", "root",
   "resolve", "resolveUrl"]

def ofJson? (value : Json) : Option Options := do
  let fields ← value.record? fieldNames
  let usual : Options := {}
  match fields with
  | [paths, imports, included, includeCss, preresolve, header, root, packages, urls] =>
    pure
      { paths := ← fieldOr usual.paths paths? paths
        imports := ← fieldOr usual.imports Json.texts? imports
        included := ← fieldOr usual.included paths? included
        includeCss := ← fieldOr usual.includeCss Json.bool? includeCss
        preresolve := ← fieldOr usual.preresolve Json.bool? preresolve
        header := ← fieldOr usual.header optional? header
        root := ← fieldOr usual.root (fun v => (optional? v).map (·.map Path.mk)) root
        packages := ← fieldOr usual.packages packages? packages
        urls := ← fieldOr usual.urls urls? urls }
  | _ => none

def parse (t : Text) : Option Options := (Json.parse t).bind ofJson?

end StyleImports.Options
