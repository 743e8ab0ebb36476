import StyleImports.Text.Basic

/-!
# UTF-8

Reading bytes as UTF-8 stops at the first byte that no well-formed text continues with. The fault
says where the faulty character starts and how many bytes of it were in order; an input that ends
inside a character has no such count.
-/

set_option autoImplicit false

namespace StyleImports

/-- The content of a file. -/
abbrev Bytes := List UInt8

/-- Why bytes are not UTF-8: the index of the character that fails, and the length of the part
that is wrong, or none when the input ends inside the character. -/
structure Utf8Fault where
  index : Nat
  length : Option Nat
  deriving DecidableEq, Repr

namespace Utf8Fault

def message (fault : Utf8Fault) : Text :=
  match fault.length with
  | some n =>
    "invalid utf-8 sequence of " ++ Text.ofNat n ++ " bytes from index " ++ Text.ofNat fault.index
  | none => "incomplete utf-8 byte sequence from index " ++ Text.ofNat fault.index

end Utf8Fault

namespace Text

def utf8 (t : Text) : Bytes := t.flatMap String.utf8EncodeChar

/-- A byte of the form `10xxxxxx`. -/
def isTail (b : Nat) : Bool := 0x80 ≤ b && b ≤ 0xbf

/-- The second byte of a three byte character, which may not spell a shorter character or a
surrogate. -/
def isSecondOfThree (first second : Nat) : Bool :=
  (if first = 0xe0 then 0xa0 else 0x80) ≤ second && second ≤ (if first = 0xed then 0x9f else 0xbf)

/-- The second byte of a four byte character, which may not spell a shorter character or a code
point above U+10FFFF. -/
def isSecondOfFour (first second : Nat) : Bool :=
  (if first = 0xf0 then 0x90 else 0x80) ≤ second && second ≤ (if first = 0xf4 then 0x8f else 0xbf)

/-- Reads the bytes that start at the given index of a file. -/
def decodeFrom (index : Nat) : List Nat → Except Utf8Fault Text
  | [] => .ok []
  | a :: rest =>
    if a < 0x80 then (decodeFrom (index + 1) rest).map (Char.ofNat a :: ·)
    else if 0xc2 ≤ a && a ≤ 0xdf then
      match rest with
      | [] => .error ⟨index, none⟩
      | b :: rest =>
        if isTail b then
          (decodeFrom (index + 2) rest).map (Char.ofNat ((a - 0xc0) * 64 + (b - 0x80)) :: ·)
        else .error ⟨index, some 1⟩
    else if 0xe0 ≤ a && a ≤ 0xef then
      match rest with
      | [] => .error ⟨index, none⟩
      | [b] => .error ⟨index, if isSecondOfThree a b then none else some 1⟩
      | b :: c :: rest =>
        if !isSecondOfThree a b then .error ⟨index, some 1⟩
        else if !isTail c then .error ⟨index, some 2⟩
        else
          (decodeFrom (index + 3) rest).map
            (Char.ofNat (((a - 0xe0) * 64 + (b - 0x80)) * 64 + (c - 0x80)) :: ·)
    else if 0xf0 ≤ a && a ≤ 0xf4 then
      match rest with
      | [] => .error ⟨index, none⟩
      | [b] => .error ⟨index, if isSecondOfFour a b then none else some 1⟩
      | [b, c] =>
        .error ⟨index, if !isSecondOfFour a b then some 1 else if isTail c then none else some 2⟩
      | b :: c :: d :: rest =>
        if !isSecondOfFour a b then .error ⟨index, some 1⟩
        else if !isTail c then .error ⟨index, some 2⟩
        else if !isTail d then .error ⟨index, some 3⟩
        else
          (decodeFrom (index + 4) rest).map
            (Char.ofNat ((((a - 0xf0) * 64 + (b - 0x80)) * 64 + (c - 0x80)) * 64 + (d - 0x80)) :: ·)
    else .error ⟨index, some 1⟩

/-- The text that the bytes spell in UTF-8. -/
def ofUtf8 (bytes : Bytes) : Except Utf8Fault Text := decodeFrom 0 (bytes.map UInt8.toNat)

end Text

end StyleImports
