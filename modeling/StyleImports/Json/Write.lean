import StyleImports.Json.Basic

/-!
# Writing JSON

A value is written on one line without blanks, or spread over lines with two blanks for each level.
Only quotes, backslashes and control characters are escaped.
-/

set_option autoImplicit false

namespace StyleImports.Json

def hexPair (c : Char) : Text := [Nat.digitChar (c.toNat / 16), Nat.digitChar (c.toNat % 16)]

def escape (c : Char) : Text :=
  match c with
  | '\x22' => ['\\', '\x22']
  | '\\' => ['\\', '\\']
  | '\x08' => ['\\', 'b']
  | '\x0c' => ['\\', 'f']
  | '\n' => ['\\', 'n']
  | '\r' => ['\\', 'r']
  | '\t' => ['\\', 't']
  | c => if c.toNat < 0x20 then '\\' :: 'u' :: '0' :: '0' :: hexPair c else [c]

def quoted (t : Text) : Text := '\x22' :: (t.flatMap escape ++ ['\x22'])

/-- A string in quotes. One that is no text is written as half of a surrogate pair, so that it
reads as none again. -/
def writeString (s : JsonString) : Text := (s.map quoted).getD "\x22\\ud800\x22"

def writeNumber (n : JsonNumber) : Text :=
  (if n.negative then ['-'] else []) ++ n.whole ++
    (if n.fraction = [] then [] else '.' :: n.fraction) ++
    (if n.exponent = 0 then []
    else 'e' :: ((if n.exponent < 0 then ['-'] else []) ++ Text.ofNat n.exponent.natAbs))

def commas (parts : List Text) : Text := Text.joinWith ',' parts

mutual

def compact : Json → Text
  | .null => "null"
  | .bool b => if b then "true" else "false"
  | .num n => writeNumber n
  | .str s => writeString s
  | .arr items => '[' :: (commas (compactItems items) ++ [']'])
  | .obj members => '{' :: (commas (compactMembers members) ++ ['}'])

def compactItems : List Json → List Text
  | [] => []
  | item :: rest => compact item :: compactItems rest

def compactMembers : List (JsonString × Json) → List Text
  | [] => []
  | (name, value) :: rest => (writeString name ++ ':' :: compact value) :: compactMembers rest

end

def newLine (level : Nat) : Text := '\n' :: List.replicate (2 * level) ' '

/-- Parts on lines of their own between brackets; empty brackets stay on one line. -/
def spread (level : Nat) (opening closing : Char) (parts : List Text) : Text :=
  match parts with
  | [] => [opening, closing]
  | parts =>
    opening :: (commas (parts.map (newLine (level + 1) ++ ·)) ++ newLine level ++ [closing])

mutual

/-- A value spread over lines, whose first line stands at a level. -/
def spreadAt (level : Nat) : Json → Text
  | .null => "null"
  | .bool b => if b then "true" else "false"
  | .num n => writeNumber n
  | .str s => writeString s
  | .arr items => spread level '[' ']' (spreadItems (level + 1) items)
  | .obj members => spread level '{' '}' (spreadMembers (level + 1) members)

def spreadItems (level : Nat) : List Json → List Text
  | [] => []
  | item :: rest => spreadAt level item :: spreadItems level rest

def spreadMembers (level : Nat) : List (JsonString × Json) → List Text
  | [] => []
  | (name, value) :: rest =>
    (writeString name ++ ':' :: ' ' :: spreadAt level value) :: spreadMembers level rest

end

def pretty (value : Json) : Text := spreadAt 0 value

end StyleImports.Json
