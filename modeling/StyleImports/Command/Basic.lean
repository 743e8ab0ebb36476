import StyleImports.Options.Layers

/-!
# The command line

Two commands work on an entry stylesheet: `deps` shows its import graph and `render` writes it with
every import inlined. This module has the arguments, the levels of a command line that they may
stand on, and what a command line comes to: an invocation, or a refusal.
-/

set_option autoImplicit false

namespace StyleImports.Command

/-- The part of a command line that an argument stands in: before the name of a command, or behind
it. -/
inductive Level where
  | top
  | deps
  | render
  deriving DecidableEq, Repr

/-- An argument that is there or not. -/
inductive Switch where
  | verbose
  | quiet
  | plain
  | help
  | version
  /-- Show the graph as a JSON document. -/
  | json
  /-- Do not resolve imports ahead of the render. -/
  | lateOnly
  | includeCss
  /-- Leave the URLs of imported stylesheets as they are written. -/
  | keepUrls
  deriving DecidableEq, Repr

/-- An argument with a value. -/
inductive Slot where
  | entry
  | config
  | included
  | root
  | imports
  | output
  deriving DecidableEq, Repr

/-- What a name with dashes stands for. -/
inductive Argument where
  | switch (s : Switch)
  | slot (s : Slot)
  deriving DecidableEq, Repr

/-! ## Names -/

namespace Level

def all : List Level := [top, deps, render]

def ofName? (name : Text) : Option Level :=
  if name = "deps".toList then some deps
  else if name = "render".toList then some render
  else none

end Level

def helpName : Text := "help"

def isCommandName (word : Text) : Bool := word = helpName || (Level.ofName? word).isSome

namespace Argument

def levels : Argument → List Level
  | switch .verbose | switch .quiet | switch .plain | switch .help | slot .config => Level.all
  | switch .version => [.top]
  | switch .json => [.deps]
  | switch .lateOnly | switch .includeCss | switch .keepUrls | slot .output => [.render]
  | slot .entry | slot .included | slot .root | slot .imports => [.deps, .render]

def longNames : List (Text × Argument) :=
  [("verbose", switch .verbose), ("quiet", switch .quiet), ("no-color", switch .plain),
   ("help", switch .help), ("version", switch .version), ("config", slot .config),
   ("json", switch .json), ("include", slot .included), ("root", slot .root),
   ("import", slot .imports), ("output", slot .output),
   ("no-bundler-resolver", switch .lateOnly), ("include-css", switch .includeCss),
   ("no-resolve-url", switch .keepUrls)]

def letters : List (Char × Argument) :=
  [('v', switch .verbose), ('q', switch .quiet), ('h', switch .help), ('V', switch .version),
   ('c', slot .config), ('I', slot .included), ('o', slot .output)]

def ofName? (level : Level) (name : Text) : Option Argument :=
  (longNames.find? fun entry => entry.1 = name && level ∈ entry.2.levels).map (·.2)

def ofLetter? (level : Level) (letter : Char) : Option Argument :=
  (letters.find? fun entry => entry.1 = letter && level ∈ entry.2.levels).map (·.2)

end Argument

namespace Slot

def repeats : Slot → Bool
  | included | imports => true
  | _ => false

/-- Whether a value may be empty: a specifier may, a path may not. -/
def allowsEmpty : Slot → Bool
  | imports => true
  | _ => false

end Slot

/-! ## Outcomes -/

/-- Why a command line leads to no run. -/
inductive Refusal where
  | help
  | version
  /-- There are no arguments at all. -/
  | nothingGiven
  | noCommand
  | unknownCommand
  | unknownArgument
  | noEntry
  /-- A value is missing, or empty where it may not be. -/
  | badValue
  /-- A switch is given a value. -/
  | unwantedValue
  /-- An argument is repeated, or excluded by another one. -/
  | conflict
  deriving DecidableEq, Repr

namespace Refusal

def message : Refusal → Text
  | help => "usage: style-imports deps ENTRY [--json] | render ENTRY [--output FILE]"
  | version => "style-imports"
  | nothingGiven | noCommand => "a command is needed: deps or render"
  | unknownCommand => "there is no such command"
  | unknownArgument => "there is no such argument"
  | noEntry => "an entry stylesheet is needed"
  | badValue => "an argument lacks its value"
  | unwantedValue => "an argument takes no value"
  | conflict => "an argument is repeated, or excluded by another one"

/-- Whether a reader asked for what is said. -/
def isAnswer : Refusal → Bool
  | help | version => true
  | _ => false

end Refusal

/-- What to do with the entry. -/
inductive Task where
  /-- Show its import graph, as a listing or as JSON. -/
  | deps (asJson : Bool)
  /-- Write it with its imports inlined, to a file or to the standard output. -/
  | render (output : Option Path)
  deriving DecidableEq, Repr

/-- A command line that can be run. -/
structure Invocation where
  verbose : Bool
  quiet : Bool
  plain : Bool
  config : Option Path
  overrides : Options.Overrides
  entry : Path
  task : Task
  deriving DecidableEq, Repr

end StyleImports.Command
