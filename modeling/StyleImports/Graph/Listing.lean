import StyleImports.Graph.Walk
import StyleImports.Json.Write

/-!
# Showing a walk

A walk is listed for a reader, each file with its imports below it, or written as a JSON document
with everything in it.
-/

set_option autoImplicit false

namespace StyleImports

namespace Walk

/-- Where an import leads, on one line. -/
def targetText : Target → Text
  | .single path => path.text
  | .many paths => Text.joinBy ", " (paths.map Path.text)
  | .failed message => "unresolved (" ++ message ++ ")"

def importText (d : Dependency) : Text :=
  "  " ++ d.position.text ++ " '" ++ d.specifier ++ "' -> " ++ targetText d.target ++ ['\n']

/-- Each file on a line, its imports indented below it. -/
def listing (index : Index) : Text :=
  index.entries.flatMap fun entry =>
    entry.1.text ++ '\n' :: entry.2.flatMap importText

/-! ## JSON -/

def pathToJson (p : Path) : Json := .ofText p.text

def positionToJson (p : Position) : Json :=
  .ofMembers [("line", .ofNat p.line), ("column", .ofNat p.column)]

def targetToJson : Target → Json
  | .single path => .ofMembers [("type", .ofText "single"), ("value", pathToJson path)]
  | .many paths => .ofMembers [("type", .ofText "many"), ("value", .arr (paths.map pathToJson))]
  | .failed message =>
    .ofMembers
      [("type", .ofText "failed"), ("value", .ofMembers [("message", .ofText message)])]

def dependencyToJson (d : Dependency) : Json :=
  .ofMembers
    [("position", positionToJson d.position),
     ("specifier", .ofText d.specifier),
     ("resolved", targetToJson d.target)]

def severityWord : Severity → Text
  | .warning => "warning"
  | .error => "error"

def findingWord : Finding → Text
  | .unparsed _ => "parse-error"
  | .unread _ => "file-read"
  | .unresolved _ _ => "unresolved-import"
  | .cycle _ _ => "import-cycle"

def diagnosticToJson (d : Diagnostic) : Json :=
  .ofMembers
    [("severity", .ofText (severityWord d.severity)),
     ("kind", .ofText (findingWord d.finding)),
     ("file", pathToJson d.file),
     ("position", (d.position?.map positionToJson).getD .null),
     ("message", .ofText d.message)]

def indexToJson (index : Index) : Json :=
  .ofMembers (index.entries.map fun entry => (entry.1.text, .arr (entry.2.map dependencyToJson)))

def toJson (walk : Walk) : Json :=
  .ofMembers
    [("index", indexToJson walk.index),
     ("diagnostics", .arr (walk.diagnostics.map diagnosticToJson)),
     ("fileDependencies", .arr (walk.files.toList.map pathToJson)),
     ("contextDependencies", .arr (walk.contexts.toList.map pathToJson))]

end Walk

end StyleImports
