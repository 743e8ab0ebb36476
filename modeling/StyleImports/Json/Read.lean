import StyleImports.Json.Basic

/-!
# Reading JSON

The reader takes exactly the documents of the JSON grammar: no byte order mark, no comma before a
closing bracket, no control character in a string, no zero before another digit, and nothing after
the value but blanks.
-/

set_option autoImplicit false

namespace StyleImports.Json

def isSpace (c : Char) : Bool := c = ' ' || c = '\t' || c = '\n' || c = '\r'

def skipSpaces (t : Text) : Text := t.dropWhile isSpace

/-! ## Numbers -/

def readDigits (t : Text) : Option (Text × Text) :=
  match t.takeWhile Char.isDigit with
  | [] => none
  | digits => some (digits, t.dropWhile Char.isDigit)

/-- Digits of which the first is no zero, or a zero alone. -/
def readWholePart (t : Text) : Option (Text × Text) :=
  match t with
  | '0' :: rest => if (rest.head?.map Char.isDigit).getD false then none else some (['0'], rest)
  | _ => readDigits t

/-- The digits after a point, if there is a point. -/
def readFraction (t : Text) : Option (Text × Text) :=
  match t with
  | '.' :: rest => readDigits rest
  | _ => some ([], t)

/-- The power of ten after `e`, zero if there is no `e`. -/
def readExponent (t : Text) : Option (Int × Text) :=
  match t with
  | [] => some (0, [])
  | c :: rest =>
    if c = 'e' || c = 'E' then
      match rest with
      | '-' :: after => (readDigits after).map fun read => (-(Text.toNat read.1 : Int), read.2)
      | '+' :: after => (readDigits after).map fun read => ((Text.toNat read.1 : Int), read.2)
      | _ => (readDigits rest).map fun read => ((Text.toNat read.1 : Int), read.2)
    else some (0, t)

def readUnsigned (negative : Bool) (t : Text) : Option (JsonNumber × Text) := do
  let (whole, t) ← readWholePart t
  let (fraction, t) ← readFraction t
  let (exponent, t) ← readExponent t
  pure (⟨negative, whole, fraction, exponent⟩, t)

def readNumber (t : Text) : Option (JsonNumber × Text) :=
  match t with
  | '-' :: rest => readUnsigned true rest
  | _ => readUnsigned false t

/-- Whether a number lies below the bound where double precision ends. -/
def isFinite (n : JsonNumber) : Bool :=
  let value := Text.toNat (n.whole ++ n.fraction)
  let places := (Text.ofNat value).length
  let scale := n.exponent - n.fraction.length
  let bound := (1 <<< 1024) - (1 <<< 970)
  if value = 0 then true
  else if 400 < scale + places then false
  else if 0 ≤ scale then value * Nat.pow 10 scale.toNat < bound
  else if scale < -400 - (places : Int) then true
  else value < bound * Nat.pow 10 (-scale).toNat

/-! ## Strings -/

def hexValue? (c : Char) : Option Nat :=
  let n := c.toNat
  if 48 ≤ n && n ≤ 57 then some (n - 48)
  else if 97 ≤ n && n ≤ 102 then some (n - 87)
  else if 65 ≤ n && n ≤ 70 then some (n - 55)
  else none

/-- The code unit that four hexadecimal digits name. -/
def codeUnit? (a b c d : Char) : Option Nat := do
  pure ((((← hexValue? a) * 16 + (← hexValue? b)) * 16 + (← hexValue? c)) * 16 + (← hexValue? d))

def escaped? (c : Char) : Option Char :=
  if c = '\x22' || c = '\\' || c = '/' then some c
  else if c = 'b' then some '\x08'
  else if c = 'f' then some '\x0c'
  else if c = 'n' then some '\n'
  else if c = 'r' then some '\r'
  else if c = 't' then some '\t'
  else none

/-- The first half of a surrogate pair. -/
def isHighHalf (n : Nat) : Bool := 0xd800 ≤ n && n ≤ 0xdbff

/-- The second half of a surrogate pair. -/
def isLowHalf (n : Nat) : Bool := 0xdc00 ≤ n && n ≤ 0xdfff

def joinHalves (high low : Nat) : Char :=
  Char.ofNat (0x10000 + (high - 0xd800) * 0x400 + (low - 0xdc00))

/-- The signs of a string after its opening quote: characters, and the code units of numbered
escapes. -/
def readSigns : Text → Option (List (Nat ⊕ Char) × Text)
  | [] => none
  | '\\' :: 'u' :: a :: b :: c :: d :: rest =>
    match codeUnit? a b c d with
    | some unit => (readSigns rest).map fun read => (.inl unit :: read.1, read.2)
    | none => none
  | '\\' :: c :: rest =>
    match escaped? c with
    | some escape => (readSigns rest).map fun read => (.inr escape :: read.1, read.2)
    | none => none
  | c :: rest =>
    if c = '\x22' then some ([], rest)
    else if c = '\\' || c.toNat < 0x20 then none
    else (readSigns rest).map fun read => (.inr c :: read.1, read.2)

/-- The text of the signs of a string; none if a half of a surrogate pair stands alone. -/
def textOfSigns : List (Nat ⊕ Char) → JsonString
  | [] => some []
  | .inr c :: rest => (textOfSigns rest).map (c :: ·)
  | .inl high :: .inl low :: rest =>
    if isHighHalf high && isLowHalf low then
      (textOfSigns rest).map (joinHalves high low :: ·)
    else if isHighHalf high || isLowHalf high then none
    else (textOfSigns (.inl low :: rest)).map (Char.ofNat high :: ·)
  | .inl unit :: rest =>
    if isHighHalf unit || isLowHalf unit then none
    else (textOfSigns rest).map (Char.ofNat unit :: ·)

def readString (t : Text) : Option (JsonString × Text) :=
  (readSigns t).map fun read => (textOfSigns read.1, read.2)

/-! ## Values -/

mutual

/-- A value, in at most the given number of steps. -/
def readValue : Nat → Text → Option (Json × Text)
  | 0, _ => none
  | steps + 1, t =>
    match skipSpaces t with
    | [] => none
    | '{' :: rest =>
      match skipSpaces rest with
      | '}' :: after => some (.obj [], after)
      | _ => (readMembers steps rest).map fun read => (.obj read.1, read.2)
    | '[' :: rest =>
      match skipSpaces rest with
      | ']' :: after => some (.arr [], after)
      | _ => (readItems steps rest).map fun read => (.arr read.1, read.2)
    | '\x22' :: rest => (readString rest).map fun read => (.str read.1, read.2)
    | t =>
      match "null".toList.isPrefixOf? t with
      | some rest => some (.null, rest)
      | none =>
        match "true".toList.isPrefixOf? t with
        | some rest => some (.bool true, rest)
        | none =>
          match "false".toList.isPrefixOf? t with
          | some rest => some (.bool false, rest)
          | none => (readNumber t).map fun read => (.num read.1, read.2)

def readItems : Nat → Text → Option (List Json × Text)
  | 0, _ => none
  | steps + 1, t =>
    match readValue steps t with
    | none => none
    | some (item, rest) =>
      match skipSpaces rest with
      | ']' :: after => some ([item], after)
      | ',' :: after => (readItems steps after).map fun read => (item :: read.1, read.2)
      | _ => none

def readMembers : Nat → Text → Option (List (JsonString × Json) × Text)
  | 0, _ => none
  | steps + 1, t =>
    match skipSpaces t with
    | '\x22' :: rest =>
      match readString rest with
      | none => none
      | some (name, rest) =>
        match skipSpaces rest with
        | ':' :: rest =>
          match readValue steps rest with
          | none => none
          | some (value, rest) =>
            match skipSpaces rest with
            | '}' :: after => some ([(name, value)], after)
            | ',' :: after =>
              (readMembers steps after).map fun read => ((name, value) :: read.1, read.2)
            | _ => none
        | _ => none
    | _ => none

end

/-- The value that a document holds. Every second step takes a character. -/
def parse (t : Text) : Option Json :=
  match readValue (2 * t.length + 2) t with
  | some (value, rest) => if skipSpaces rest = [] then some value else none
  | none => none

/-! ## Documents for one reader -/

mutual

/-- Whether a value is made of texts and finite numbers throughout and nested at most as deep as
`levels` tells. -/
def isPlain : Nat → Json → Bool
  | _, .null => true
  | _, .bool _ => true
  | _, .num n => isFinite n
  | _, .str s => s.isSome
  | levels, .arr items => levels ≠ 0 && arePlain (levels - 1) items
  | levels, .obj members => levels ≠ 0 && arePlainMembers (levels - 1) members

def arePlain : Nat → List Json → Bool
  | _, [] => true
  | levels, item :: rest => isPlain levels item && arePlain levels rest

def arePlainMembers : Nat → List (JsonString × Json) → Bool
  | _, [] => true
  | levels, (name, value) :: rest =>
    name.isSome && isPlain levels value && arePlainMembers levels rest

end

/-- The deepest nesting of a value that is read as a whole. -/
def nestingLimit : Nat := 127

end StyleImports.Json
