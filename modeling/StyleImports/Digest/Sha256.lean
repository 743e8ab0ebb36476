import StyleImports.Text.Utf8

/-!
# SHA-256

The digest of bytes, and of a text by its UTF-8 bytes, in hexadecimal. The message is padded to
blocks of sixteen words; each block is stretched to a schedule of sixty-four words, and every word
of it turns the eight words of the state once.
-/

set_option autoImplicit false

namespace StyleImports.Sha256

/-- The eight words of the state. -/
structure State where
  a : UInt32
  b : UInt32
  c : UInt32
  d : UInt32
  e : UInt32
  f : UInt32
  g : UInt32
  h : UInt32
  deriving DecidableEq, Repr

/-- The first bits of the fractions of the square roots of the first eight primes. -/
def State.start : State :=
  ⟨0x6a09e667, 0xbb67ae85, 0x3c6ef372, 0xa54ff53a, 0x510e527f, 0x9b05688c, 0x1f83d9ab, 0x5be0cd19⟩

def State.add (s t : State) : State :=
  ⟨s.a + t.a, s.b + t.b, s.c + t.c, s.d + t.d, s.e + t.e, s.f + t.f, s.g + t.g, s.h + t.h⟩

def State.words (s : State) : List UInt32 := [s.a, s.b, s.c, s.d, s.e, s.f, s.g, s.h]

/-- The first bits of the fractions of the cube roots of the first sixty-four primes. -/
def roundConstants : List UInt32 :=
  [0x428a2f98, 0x71374491, 0xb5c0fbcf, 0xe9b5dba5, 0x3956c25b, 0x59f111f1, 0x923f82a4, 0xab1c5ed5,
   0xd807aa98, 0x12835b01, 0x243185be, 0x550c7dc3, 0x72be5d74, 0x80deb1fe, 0x9bdc06a7, 0xc19bf174,
   0xe49b69c1, 0xefbe4786, 0x0fc19dc6, 0x240ca1cc, 0x2de92c6f, 0x4a7484aa, 0x5cb0a9dc, 0x76f988da,
   0x983e5152, 0xa831c66d, 0xb00327c8, 0xbf597fc7, 0xc6e00bf3, 0xd5a79147, 0x06ca6351, 0x14292967,
   0x27b70a85, 0x2e1b2138, 0x4d2c6dfc, 0x53380d13, 0x650a7354, 0x766a0abb, 0x81c2c92e, 0x92722c85,
   0xa2bfe8a1, 0xa81a664b, 0xc24b8b70, 0xc76c51a3, 0xd192e819, 0xd6990624, 0xf40e3585, 0x106aa070,
   0x19a4c116, 0x1e376c08, 0x2748774c, 0x34b0bcb5, 0x391c0cb3, 0x4ed8aa4a, 0x5b9cca4f, 0x682e6ff3,
   0x748f82ee, 0x78a5636f, 0x84c87814, 0x8cc70208, 0x90befffa, 0xa4506ceb, 0xbef9a3f7, 0xc67178f2]

/-- The word with its bits turned to the right. -/
def turn (x n : UInt32) : UInt32 := (x >>> n) ||| (x <<< (32 - n))

/-- Adds words to a schedule that is held backwards, as many as the number tells. -/
def stretch : Nat → List UInt32 → List UInt32
  | 0, words => words
  | n + 1, words =>
    let near := words.getD 1 0
    let far := words.getD 14 0
    let word :=
      (turn near 17 ^^^ turn near 19 ^^^ (near >>> 10)) + words.getD 6 0 +
        (turn far 7 ^^^ turn far 18 ^^^ (far >>> 3)) + words.getD 15 0
    stretch n (word :: words)

/-- Turns the state once, with a word of the schedule and its constant. -/
def round (s : State) (step : UInt32 × UInt32) : State :=
  let chosen := (s.e &&& s.f) ^^^ (~~~s.e &&& s.g)
  let common := (s.a &&& s.b) ^^^ (s.a &&& s.c) ^^^ (s.b &&& s.c)
  let first := s.h + (turn s.e 6 ^^^ turn s.e 11 ^^^ turn s.e 25) + chosen + step.1 + step.2
  let second := (turn s.a 2 ^^^ turn s.a 13 ^^^ turn s.a 22) + common
  ⟨first + second, s.a, s.b, s.c, s.d + first, s.e, s.f, s.g⟩

/-- The words of bytes, four bytes to a word. -/
def wordsOf : Bytes → List UInt32
  | a :: b :: c :: d :: rest =>
    ((a.toUInt32 <<< 24) ||| (b.toUInt32 <<< 16) ||| (c.toUInt32 <<< 8) ||| d.toUInt32) ::
      wordsOf rest
  | _ => []

/-- Takes a block of sixty-four bytes into the state. -/
def absorb (s : State) (block : Bytes) : State :=
  let schedule := (stretch 48 (wordsOf block).reverse).reverse
  s.add ((schedule.zip roundConstants).foldl round s)

/-- Takes blocks into the state, as many as the number tells. -/
def absorbAll : Nat → State → Bytes → State
  | 0, s, _ => s
  | n + 1, s, bytes => absorbAll n (absorb s (bytes.take 64)) (bytes.drop 64)

/-- The eight bytes of a number, the highest first. -/
def lengthBytes (n : Nat) : Bytes :=
  ((List.range 8).map fun i => UInt8.ofNat (n >>> (8 * i))).reverse

/-- The bytes with a closing bit, zeros up to a whole block, and their length in bits. -/
def pad (bytes : Bytes) : Bytes :=
  let zeros := (119 - bytes.length % 64) % 64
  bytes ++ 0x80 :: (List.replicate zeros 0 ++ lengthBytes (8 * bytes.length))

def digest (bytes : Bytes) : State :=
  let padded := pad bytes
  absorbAll (padded.length / 64) .start padded

def hexWord (word : UInt32) : Text :=
  ((List.range 8).map fun i => Nat.digitChar ((word.toNat >>> (4 * i)) % 16)).reverse

def hex (bytes : Bytes) : Text := (digest bytes).words.flatMap hexWord

def ofText (t : Text) : Text := hex (Text.utf8 t)

end StyleImports.Sha256
