import StyleImports.Command.Basic

/-!
# Reading a command line

A level is read from left to right. A switch acts at once; a value is held back until the next
argument or the end of the level and is only checked then, so that an argument nobody knows is
reported before a bad value in front of it. The level of a command is read and checked to its end
before the top level is.
-/

set_option autoImplicit false

namespace StyleImports.Command

/-- What a level has been given. -/
structure Given where
  switches : List Switch := []
  values : List (Slot × Text) := []
  deriving DecidableEq, Repr

namespace Given

def has (g : Given) (s : Switch) : Bool := s ∈ g.switches

def all (g : Given) (slot : Slot) : List Text :=
  (g.values.filter fun value => value.1 = slot).map (·.2)

def get? (g : Given) (slot : Slot) : Option Text := (g.all slot).head?

def path? (g : Given) (slot : Slot) : Option Path := (g.get? slot).map Path.mk

def isEmpty (g : Given) : Bool := g.switches.isEmpty && g.values.isEmpty

/-- Turns on a switch. Help and the version end the reading. -/
def turnOn (g : Given) (s : Switch) : Except Refusal Given :=
  match s with
  | .help => .error .help
  | .version => .error .version
  | s => if g.has s then .error .conflict else .ok { g with switches := g.switches ++ [s] }

/-- Gives an argument its value, if there is one. -/
def put (g : Given) (slot : Slot) (value : Option Text) : Except Refusal Given :=
  match value with
  | none => .error .badValue
  | some value =>
    if !slot.repeats && (g.get? slot).isSome then .error .conflict
    else if value.isEmpty && !slot.allowsEmpty then .error .badValue
    else .ok { g with values := g.values ++ [(slot, value)] }

def clashes (g : Given) : Bool := g.has .verbose && g.has .quiet

end Given

/-! ## A level -/

/-- A level that is being read: what it has been given, an argument that is held back with its value
as far as it is there, and whether two dashes have ended the names. -/
structure Reading where
  given : Given := {}
  held : Option (Slot × Option Text) := none
  ended : Bool := false
  deriving DecidableEq, Repr

namespace Reading

/-- Whether the next word is the value of an argument. -/
def awaits (r : Reading) : Bool :=
  match r.held with
  | some (_, none) => true
  | _ => false

def hasEntry (r : Reading) : Bool :=
  (r.given.get? .entry).isSome ||
    match r.held with
    | some (.entry, _) => true
    | _ => false

/-- Checks the argument that is held back. -/
def settle (r : Reading) : Except Refusal Reading :=
  match r.held with
  | none => .ok r
  | some (slot, value) => (r.given.put slot value).map fun g => { r with given := g, held := none }

def turnOn (r : Reading) (s : Switch) : Except Refusal Reading :=
  match r.settle with
  | .error e => .error e
  | .ok r => (r.given.turnOn s).map fun g => { r with given := g }

/-- Gives a value that is written in one word with its argument. -/
def put (r : Reading) (slot : Slot) (value : Text) : Except Refusal Reading :=
  match r.settle with
  | .error e => .error e
  | .ok r => (r.given.put slot (some value)).map fun g => { r with given := g }

def hold (r : Reading) (slot : Slot) (value : Option Text) : Except Refusal Reading :=
  r.settle.map fun r => { r with held := some (slot, value) }

/-- A name behind two dashes, with a value after an equals sign or without. -/
def readName (level : Level) (r : Reading) (body : Text) : Except Refusal Reading :=
  let (name, value) : Text × Option Text :=
    match Text.splitFirst '=' body with
    | some (name, value) => (name, some value)
    | none => (body, none)
  match Argument.ofName? level name, value with
  | none, _ => .error .unknownArgument
  | some (.switch s), none => r.turnOn s
  | some (.switch _), some _ => .error .unwantedValue
  | some (.slot slot), some value => r.put slot value
  | some (.slot slot), none => r.hold slot none

/-- Letters behind one dash; what follows the letter of an argument with a value is that value. -/
def readLetters (level : Level) : Reading → Text → Except Refusal Reading
  | r, [] => .ok r
  | r, letter :: rest =>
    match Argument.ofLetter? level letter, rest with
    | none, _ => .error .unknownArgument
    | some (.switch s), rest =>
      match r.turnOn s with
      | .error e => .error e
      | .ok r => readLetters level r rest
    | some (.slot slot), [] => r.hold slot none
    | some (.slot slot), '=' :: value => r.put slot value
    | some (.slot slot), value => r.put slot value

/-- A word that is no name and no value: the entry, or the name of a command nobody knows. -/
def readWord (level : Level) (r : Reading) (word : Text) : Except Refusal Reading :=
  match level with
  | .top => .error (if r.ended && isCommandName word then .unknownArgument else .unknownCommand)
  | _ => if r.hasEntry then .error .unknownArgument else r.hold .entry (some word)

def read (level : Level) (r : Reading) (arg : Text) : Except Refusal Reading :=
  if r.ended then r.readWord level arg
  else
    match arg with
    | ['-', '-'] => .ok { r with ended := true }
    | '-' :: '-' :: body => r.readName level body
    | '-' :: letter :: rest => r.readLetters level (letter :: rest)
    | word =>
      match r.held with
      | some (slot, none) => .ok { r with held := some (slot, some word) }
      | _ => r.readWord level word

end Reading

/-! ## The levels together -/

/-- What a call for help comes to: the words behind it name a command, or there are none. -/
def helpFor : List Text → Refusal
  | [] => .help
  | [name] => if isCommandName name then .help else .unknownCommand
  | _ => .unknownCommand

/-- Reads the arguments before the name of a command; the command's level and the rest are left
over. -/
def readTop : Reading → List Text → Except Refusal (Reading × Option (Level × List Text))
  | r, [] => .ok (r, none)
  | r, arg :: rest =>
    if r.ended || r.awaits || !isCommandName arg then
      match r.read .top arg with
      | .error e => .error e
      | .ok r => readTop r rest
    else
      match Level.ofName? arg with
      | some level => .ok (r, some (level, rest))
      | none => .error (helpFor rest)

def readBehind (level : Level) : Reading → List Text → Except Refusal Reading
  | r, [] => .ok r
  | r, arg :: rest =>
    match r.read level arg with
    | .error e => .error e
    | .ok r => readBehind level r rest

/-- What a level has been given in the end. -/
def finish (r : Reading) : Except Refusal Given :=
  match r.settle with
  | .error e => .error e
  | .ok r => .ok r.given

/-- What a level has been given in the end, if no arguments exclude each other. -/
def check (r : Reading) : Except Refusal Given :=
  match finish r with
  | .error e => .error e
  | .ok g => if g.clashes then .error .conflict else .ok g

def readCommand (level : Level) (args : List Text) : Except Refusal (Given × Path) :=
  match readBehind level {} args with
  | .error e => .error e
  | .ok r =>
    match check r with
    | .error e => .error e
    | .ok g =>
      match g.path? .entry with
      | none => .error .noEntry
      | some entry => .ok (g, entry)

def taskOf (level : Level) (g : Given) : Task :=
  if level = .render then .render (g.path? .output) else .deps (g.has .json)

def overridesOf (g : Given) : Options.Overrides where
  included := (g.all .included).map Path.mk
  imports := g.all .imports
  root := g.path? .root
  preresolve := if g.has .lateOnly then some false else none
  includeCss := if g.has .includeCss then some true else none
  resolveUrl := if g.has .keepUrls then some false else none

/-- The invocation that the two levels come to; the command's level wins over the top level. -/
def invocation (top g : Given) (level : Level) (entry : Path) : Invocation where
  verbose := top.has .verbose || g.has .verbose
  quiet := top.has .quiet || g.has .quiet
  plain := top.has .plain || g.has .plain
  config := (g.path? .config).or (top.path? .config)
  overrides := overridesOf g
  entry := entry
  task := taskOf level g

def Invocation.ofArguments (args : List Text) : Except Refusal Invocation :=
  match readTop {} args with
  | .error e => .error e
  | .ok (r, none) =>
    match finish r with
    | .error e => .error e
    | .ok top => .error (if top.isEmpty then .nothingGiven else .noCommand)
  | .ok (r, some (level, rest)) =>
    match readCommand level rest with
    | .error e => .error e
    | .ok (g, entry) =>
      match check r with
      | .error e => .error e
      | .ok top => .ok (invocation top g level entry)

end StyleImports.Command
