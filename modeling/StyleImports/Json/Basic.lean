import StyleImports.Text.Basic

/-!
# JSON values

A JSON value keeps what a reader may still have to decide on: numbers by their digits, members in
their order with duplicates, and a string is no text when one of its escapes names half of a
surrogate pair.
-/

set_option autoImplicit false

namespace StyleImports

/-- A string of a JSON document; none when it is no text. -/
abbrev JsonString := Option Text

/-- A number: the digits before and after the point, and the power of ten. -/
structure JsonNumber where
  negative : Bool
  whole : Text
  fraction : Text
  exponent : Int
  deriving DecidableEq, Repr

/-- A JSON value as it is written. -/
inductive Json where
  | null
  | bool (b : Bool)
  | num (n : JsonNumber)
  | str (s : JsonString)
  | arr (items : List Json)
  | obj (members : List (JsonString × Json))
  deriving Repr

namespace Json

def ofText (t : Text) : Json := .str (some t)

def ofNat (n : Nat) : Json := .num ⟨false, Text.ofNat n, [], 0⟩

def ofMembers (members : List (Text × Json)) : Json :=
  .obj (members.map fun member => (some member.1, member.2))

/-- The member of a name, the last one of several. -/
def member? (name : Text) : Json → Option Json
  | .obj members => (members.reverse.find? fun member => member.1 = some name).map (·.2)
  | _ => none

/-- The members of an object whose names are texts, each name once: where it came first, with the
value that came last. -/
def entries : Json → List (Text × Json)
  | .obj members =>
    let named := members.filterMap fun member => member.1.map fun name => (name, member.2)
    named.foldl
      (fun entries entry =>
        if entries.any (·.1 = entry.1) then
          entries.map fun old => if old.1 = entry.1 then entry else old
        else entries ++ [entry])
      []
  | _ => []

mutual

/-- The value with each member of an object named once, with the value that came last. -/
def distinct : Json → Json
  | .arr items => .arr (distinctItems items)
  | .obj members =>
    .obj ((entries (.obj (distinctMembers members))).map fun entry => (some entry.1, entry.2))
  | value => value

def distinctItems : List Json → List Json
  | [] => []
  | item :: rest => distinct item :: distinctItems rest

def distinctMembers : List (JsonString × Json) → List (JsonString × Json)
  | [] => []
  | (name, value) :: rest => (name, distinct value) :: distinctMembers rest

end

/-- The values of named fields in the order of the names: the members of an object with these
names, each at most once and other members aside, or the items of an array of at most as many. -/
def record? (names : List Text) : Json → Option (List (Option Json))
  | .obj members =>
    if members.all (·.1.isSome) then
      names.mapM fun name =>
        match members.filter (·.1 = some name) with
        | [] => some none
        | [member] => some (some member.2)
        | _ => none
    else none
  | .arr items =>
    if items.length ≤ names.length then
      some (items.map some ++ List.replicate (names.length - items.length) none)
    else none
  | _ => none

def text? : Json → Option Text
  | .str s => s
  | _ => none

def bool? : Json → Option Bool
  | .bool b => some b
  | _ => none

def texts? : Json → Option (List Text)
  | .arr items => items.mapM text?
  | _ => none

end Json

end StyleImports
