import StyleImports.Glob.Basic
import StyleImports.Request.Candidates

/-!
# Resolving requests

A resolver answers a request from a directory with paths. The candidates of a specifier are asked
for in turn: the first answer counts, and if there is none the last error.
-/

set_option autoImplicit false

namespace StyleImports

/-- Why a request has no answer. -/
inductive ResolveError where
  | notFound (request : Text) (context : Path) (reason : Text)
  | notStylesheet (request : Text) (path : Path)
  | noCandidates (specifier : Text)
  | glob (error : GlobError)
  deriving DecidableEq, Repr

namespace ResolveError

def message : ResolveError → Text
  | notFound request context reason =>
    "Can't resolve '" ++ request ++ "' in '" ++ context.text ++ "': " ++ reason
  | notStylesheet request path =>
    "'" ++ request ++ "' resolved to '" ++ path.text ++ "', which is not a stylesheet"
  | noCandidates specifier => "No request candidates for '" ++ specifier ++ "'"
  | glob error => error.message

end ResolveError

/-- Answers a request that is made in a directory. -/
abbrev Resolver := Path → Text → Except ResolveError (List Path)

/-- The resolvers of a walk: for stylesheets, and for the directories below which patterns are
expanded. -/
structure Resolvers where
  file : Resolver
  context : Resolver

/-- Answers by request, whatever the directory; a later entry replaces an earlier one. -/
structure RequestTable where
  entries : List (Text × List Path)
  deriving DecidableEq, Repr

namespace RequestTable

def empty : RequestTable := ⟨[]⟩

def get? (table : RequestTable) (request : Text) : Option (List Path) :=
  (table.entries.reverse.find? fun entry => entry.1 = request).map (·.2)

def resolver (table : RequestTable) : Resolver := fun context request =>
  match table.get? request with
  | some paths => .ok paths
  | none => .error (.notFound request context "no mapping")

end RequestTable

namespace Request

/-- The first answer to some requests; if there is none, the error of the last one, or the given
error if there are no requests. -/
def firstAnswer (resolve : Text → Except ResolveError (List Path)) (error : ResolveError) :
    List Text → Except ResolveError (List Path)
  | [] => .error error
  | request :: rest =>
    match resolve request with
    | .ok paths => .ok paths
    | .error e => firstAnswer resolve e rest

/-- The answer to requests for a specifier that is made in a directory. -/
def resolveAll (resolver : Resolver) (context : Path) (specifier : Text) (requests : List Text) :
    Except ResolveError (List Path) :=
  firstAnswer (resolver context) (.noCandidates specifier) requests

end Request

end StyleImports
