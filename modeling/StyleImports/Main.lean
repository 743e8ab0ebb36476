import StyleImports.Command.Run

/-!
# The program

Takes the files below the working directory as they are, runs the command line on them, and shows
or writes what comes of it.
-/

set_option autoImplicit false

namespace StyleImports.Program

/-- Adds what a directory entry leads to: a file, or all files of a directory. Links are left out,
so that every directory is met once. -/
partial def gather (disk : Disk) (entry : IO.FS.DirEntry) : IO Disk := do
  match (← entry.path.symlinkMetadata).type with
  | .file =>
    let content ← IO.FS.readBinFile entry.path
    pure (disk.add ⟨entry.path.toString.toList⟩ content.toList)
  | .dir => (← entry.path.readDir).foldlM gather disk
  | _ => pure disk

def currentDisk : IO Disk := do
  let cwd ← IO.currentDir
  (← cwd.readDir).foldlM gather (Disk.empty ⟨cwd.toString.toList⟩)

def variableNames : List String :=
  ["PATHS", "IMPORT", "INCLUDE", "ROOT", "RESOLVE", "RESOLVE__ALIAS", "RESOLVE__EXTENSIONS",
   "RESOLVE__MODULES"].map (String.ofList Variable.mark ++ ·)

/-- The variables that are set, in the order of their names. -/
def currentVariables : IO (List (Text × Text)) :=
  variableNames.filterMapM fun name => do
    pure ((← IO.getEnv name).map fun content => (name.toList, content.toList))

/-- Writes the output file of a finished run where the system keeps it. -/
def keepOutput (i : Command.Invocation) (out : Command.Outcome) : IO Unit := do
  match i.task, out.failure with
  | .render (some p), none =>
    match out.disk.read p with
    | .ok content => IO.FS.writeBinFile (String.ofList p.text) content.toByteArray
    | .error _ => pure ()
  | _, _ => pure ()

/-- Reports diagnostics, all of them or the errors only. -/
def report (quiet : Bool) (diagnostics : List Diagnostic) : IO Unit :=
  diagnostics.forM fun d => do
    unless quiet && d.severity ≠ .error do
      IO.eprintln (String.ofList d.text)

def perform (i : Command.Invocation) : IO UInt32 := do
  let out := i.run (← currentDisk) (← currentVariables)
  IO.print (String.ofList out.shown)
  report i.quiet out.diagnostics
  keepOutput i out
  match out.failure with
  | none => pure 0
  | some failure =>
    IO.eprintln (String.ofList failure.message)
    pure 1

end StyleImports.Program

def main (args : List String) : IO UInt32 := do
  match StyleImports.Command.Invocation.ofArguments (args.map String.toList) with
  | .ok i => StyleImports.Program.perform i
  | .error r =>
    if r.isAnswer then
      IO.println (String.ofList r.message)
      pure 0
    else
      IO.eprintln (String.ofList r.message)
      pure 2
