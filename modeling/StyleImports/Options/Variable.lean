import StyleImports.Json.Read
import StyleImports.Text.Blank

/-!
# Settings from environment variables

The name of a variable after its common start is a setting's name: a double underscore goes one
level down, single ones are dropped and capitals become small, so only settings that are spelled in
small letters can be reached. The value is read in a short notation: `true` and `false`, numbers,
texts in quotes, `[a, b]` and `{name=value}`; whatever does not fit it is a text as it stands.
-/

set_option autoImplicit false

namespace StyleImports.Variable

/-! ## Names -/

/-- The common start of the names. -/
def mark : Text := "FOB_STYLUS_"

/-- A text with every double underscore, from the left, turned into a point. -/
def splitLevels : Text → Text
  | '_' :: '_' :: rest => '.' :: splitLevels rest
  | c :: rest => c :: splitLevels rest
  | [] => []

/-- The levels of the setting that a variable is about; none if its name has another start or an
empty level. -/
def levels? (name : Text) : Option (List Text) :=
  let name := Text.trim name
  if (Text.lowerAscii mark).isPrefixOf (Text.lowerAscii name) then
    let spelled := (splitLevels (name.drop mark.length)).filter (· ≠ '_')
    let levels := Text.splitOn '.' (Text.lowerAscii (Text.trim spelled))
    if levels.any (· = []) then none else some levels
  else none

def nest (value : Json) : List Text → Json
  | [] => value
  | level :: rest => .ofMembers [(level, nest value rest)]

/-! ## Values -/

/-- A blank of ASCII other than the vertical tab. -/
def isBlank (c : Char) : Bool := c = ' ' || c = '\t' || c = '\n' || c = '\x0c' || c = '\r'

def skipBlanks (t : Text) : Text := t.dropWhile isBlank

def isSeparator (c : Char) : Bool := c = ',' || c = '{' || c = '}' || c = '[' || c = ']'

def isNamePart (c : Char) : Bool := c.isAlphanum || c = '_' || c = '-'

/-- The code point that hexadecimal digits write, if it is a character. -/
def charOfHex? (digits : Text) : Option Char := do
  let values ← digits.mapM Json.hexValue?
  let n := values.foldl (fun n digit => n * 16 + digit) 0
  if n.isValidChar then some (Char.ofNat n) else none

/-- A text in double quotes, after the first of them. -/
def readQuoted : Text → Option (Text × Text)
  | [] => none
  | '\x22' :: rest => some ([], rest)
  | '\\' :: 'u' :: a :: b :: c :: d :: rest => do
    let char ← charOfHex? [a, b, c, d]
    let (text, after) ← readQuoted rest
    pure (char :: text, after)
  | '\\' :: 'U' :: a :: b :: c :: d :: e :: f :: g :: h :: rest => do
    let char ← charOfHex? [a, b, c, d, e, f, g, h]
    let (text, after) ← readQuoted rest
    pure (char :: text, after)
  | '\\' :: c :: rest => do
    let char ← if c = '/' then none else Json.escaped? c
    let (text, after) ← readQuoted rest
    pure (char :: text, after)
  | c :: rest => do
    let (text, after) ← readQuoted rest
    if c = '\\' || c = '\x7f' || (c.toNat < 0x20 && c ≠ '\t') then none
    else pure (c :: text, after)

def allDigits (t : Text) : Bool := t.all Char.isDigit

def cutSign (t : Text) : Bool × Text :=
  match t with
  | '-' :: rest => (true, rest)
  | '+' :: rest => (false, rest)
  | _ => (false, t)

/-- A whole number that fits into sixty-four bits. -/
def wholeNumber? (t : Text) : Option JsonNumber :=
  let (negative, digits) := cutSign t
  if digits ≠ [] && allDigits digits &&
      Text.toNat digits < (if negative then (1 <<< 63) + 1 else 1 <<< 64) then
    some ⟨negative, digits, [], 0⟩
  else none

/-- The power of ten at the end of a number with a point. -/
def power? (t : Text) : Option Int :=
  match t with
  | [] => some 0
  | c :: rest =>
    let (negative, digits) := cutSign rest
    if (c = 'e' || c = 'E') && digits ≠ [] && allDigits digits then
      some (if negative then -(Text.toNat digits : Int) else (Text.toNat digits : Int))
    else none

/-- A number with a point and a digit on at least one side of it. -/
def pointNumber? (t : Text) : Option JsonNumber := do
  let (negative, rest) := cutSign t
  let (whole, after) ← Text.splitFirst '.' rest
  let fraction := after.takeWhile Char.isDigit
  if allDigits whole && (whole ≠ [] || fraction ≠ []) then
    let exponent ← power? (after.dropWhile Char.isDigit)
    pure ⟨negative, whole, fraction, exponent⟩
  else none

/-- A value without brackets and quotes: a number, or a text without the blanks around it. -/
def plain (t : Text) : Json :=
  let t := Text.trim t
  match (pointNumber? t).or (wholeNumber? t) with
  | some n => .num n
  | none => .ofText t

/-- A name before an equals sign, in quotes or plain. -/
def readName (t : Text) : Option (Text × Text) :=
  match skipBlanks t with
  | '\x22' :: rest => readQuoted rest
  | t =>
    match t.takeWhile isNamePart with
    | [] => none
    | name => some (name, t.dropWhile isNamePart)

mutual

/-- A value with the blanks around it, in at most the given number of steps. -/
def readValue : Nat → Text → Option (Json × Text)
  | 0, _ => none
  | steps + 1, t =>
    let t := skipBlanks t
    let read : Option (Json × Text) :=
      match "true".toList.isPrefixOf? t, "false".toList.isPrefixOf? t, t with
      | some rest, _, _ => some (.bool true, rest)
      | none, some rest, _ => some (.bool false, rest)
      | none, none, '{' :: rest =>
        (readMembers steps rest).map fun read => (.ofMembers read.1, read.2)
      | none, none, '[' :: rest => (readItems steps rest).map fun read => (.arr read.1, read.2)
      | none, none, '\x22' :: rest => (readQuoted rest).map fun read => (.ofText read.1, read.2)
      | none, none, '\x27' :: c :: '\x27' :: rest => some (.ofText [c], rest)
      | none, none, '\x27' :: _ => none
      | none, none, t => some (plain (t.takeWhile (!isSeparator ·)), t.dropWhile (!isSeparator ·))
    read.map fun read => (read.1, skipBlanks read.2)

/-- Items up to a closing bracket; a comma may stand before it. -/
def readItems : Nat → Text → Option (List Json × Text)
  | 0, _ => none
  | steps + 1, t =>
    match t with
    | ']' :: after => some ([], after)
    | t =>
      match readValue steps t with
      | none => none
      | some (item, ']' :: after) => some ([item], after)
      | some (item, ',' :: after) =>
        (readItems steps after).map fun read => (item :: read.1, read.2)
      | some _ => none

/-- Members up to a closing brace; a comma may stand before it. -/
def readMembers : Nat → Text → Option (List (Text × Json) × Text)
  | 0, _ => none
  | steps + 1, t =>
    match t with
    | '}' :: after => some ([], after)
    | t =>
      match readName t with
      | none => none
      | some (name, rest) =>
        match skipBlanks rest with
        | '=' :: rest =>
          match readValue steps rest with
          | none => none
          | some (value, '}' :: after) => some ([(name, value)], after)
          | some (value, ',' :: after) =>
            (readMembers steps after).map fun read => ((name, value) :: read.1, read.2)
          | some _ => none
        | _ => none

end

/-- The value that a variable holds. Every second step takes a character. -/
def value (t : Text) : Json :=
  match readValue (2 * t.length + 2) t with
  | some (value, []) => value.distinct
  | _ => .ofText t

/-- The setting of a variable as an object; none if the variable is about something else. -/
def setting? (name content : Text) : Option Json := (levels? name).map (nest (value content))

end StyleImports.Variable
