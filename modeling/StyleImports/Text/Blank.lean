import StyleImports.Text.Basic

/-!
# Blanks

The blank characters are those with the Unicode property `White_Space`. The zero-width characters
U+FEFF and U+200B are not among them.
-/

set_option autoImplicit false

namespace StyleImports.Text

/-- A character with the Unicode property `White_Space`. -/
def isBlank (c : Char) : Bool :=
  let n := c.toNat
  (0x9 ≤ n && n ≤ 0xd) || n = 0x20 || n = 0x85 || n = 0xa0 || n = 0x1680 ||
    (0x2000 ≤ n && n ≤ 0x200a) || n = 0x2028 || n = 0x2029 || n = 0x202f || n = 0x205f ||
    n = 0x3000

def trimStart (t : Text) : Text := t.dropWhile isBlank

def trimEnd (t : Text) : Text := dropEndWhile isBlank t

def trim (t : Text) : Text := trimStart (trimEnd t)

end StyleImports.Text
