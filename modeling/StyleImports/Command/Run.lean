import StyleImports.Command.Arguments
import StyleImports.Files.Disk
import StyleImports.Graph.Listing
import StyleImports.Loader.Basic
import StyleImports.Package.Resolver

/-!
# Running a command

A command runs on a disk and in the environment variables that hold settings. It comes to what it
shows, the disk that it leaves and, if it fails, the reason, with a hint for the reader where there
is one.
-/

set_option autoImplicit false

namespace StyleImports.Command

/-- Why a command failed. -/
inductive Failure where
  | config (error : Options.ConfigError)
  | load (error : LoadError)
  /-- The imports are nested deeper than the files allow. -/
  | tooDeep
  | unwritten (path : Path) (fault : SystemFault)
  /-- So many diagnostics of a walk are errors. -/
  | faulty (count : Nat)
  deriving DecidableEq, Repr

namespace Failure

def hint? : RenderError → Option Text
  | .notFound _ specifier _ _ _ =>
    if "~".toList.isPrefixOf specifier then
      some "'~' requests go through node_modules; check the package is installed"
    else some "Add the containing directory with --include or the `paths` option"
  | .loop _ _ _ _ => some "Use @require for files that may be reached more than once"
  | _ => none

def withHint (message : Text) : Option Text → Text
  | some hint => message ++ "\n\nHint: " ++ hint
  | none => message

def loadMessage : LoadError → Text
  | .unreadEntry path error =>
    withHint ("Failed to read entry stylesheet " ++ path.text ++ ": " ++ error.message)
      (some "Paths are relative to the current directory")
  | .render error => withHint error.message (hint? error)

def message : Failure → Text
  | config error => "Configuration error: " ++ error.message
  | load error => loadMessage error
  | tooDeep => "Imports are nested too deep"
  | unwritten path fault => "Failed to write '" ++ path.text ++ "': " ++ fault.message
  | faulty count => Text.ofNat count ++ " stylesheet(s) failed to parse"

end Failure

/-- What a run comes to. -/
structure Outcome where
  shown : Text
  disk : Disk
  diagnostics : List Diagnostic
  failure : Option Failure

namespace Invocation

def loader (disk : Disk) (options : Options) : Loader :=
  ⟨disk.fileSystem, options, Packages.resolvers disk.fileSystem options.packages⟩

def failed (disk : Disk) (failure : Failure) : Outcome := ⟨[], disk, [], some failure⟩

/-- A stopped loader as a failure. -/
def failureOf : LoadStop → Failure
  | .failed error => .load error
  | .tooDeep => .tooDeep

def showWalk (asJson : Bool) (walk : Walk) : Text :=
  if asJson then walk.toJson.pretty ++ ['\n'] else Walk.listing walk.index

/-- The failure that the errors among diagnostics amount to. -/
def faultOf (diagnostics : List Diagnostic) : Option Failure :=
  match diagnostics.countP fun d => d.severity = .error with
  | 0 => none
  | count => some (.faulty count)

def runDeps (disk : Disk) (options : Options) (entry : Path) (asJson : Bool) : Outcome :=
  match ((loader disk options).walkFile Walk.depthLimit none entry).1 with
  | .error stop => failed disk (failureOf stop)
  | .ok walk => ⟨showWalk asJson walk, disk, walk.diagnostics, faultOf walk.diagnostics⟩

def runRender (disk : Disk) (options : Options) (entry : Path) (output : Option Path) : Outcome :=
  match ((loader disk options).compileFile Walk.depthLimit none entry).1 with
  | .error stop => failed disk (failureOf stop)
  | .ok compiled =>
    match output with
    | none => ⟨compiled.code, disk, compiled.diagnostics, none⟩
    | some path =>
      match disk.write path (Text.utf8 compiled.code) with
      | .error fault => ⟨[], disk, compiled.diagnostics, some (.unwritten path fault)⟩
      | .ok disk => ⟨[], disk, compiled.diagnostics, none⟩

/-- Runs an invocation on a disk, in the working directory of that disk. -/
def run (i : Invocation) (disk : Disk) (settings : List (Text × Text)) : Outcome :=
  match Options.load disk.fileSystem disk.cwd i.config settings i.overrides with
  | .error e => failed disk (.config e)
  | .ok options =>
    match i.task with
    | .deps asJson => runDeps disk options i.entry asJson
    | .render output => runRender disk options i.entry output

end Invocation

end StyleImports.Command
