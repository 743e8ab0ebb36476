import StyleImports.Text.Basic

/-!
# Path patterns

A pattern matches a path of slash-separated names: `?` is one character, `*` any run of them, both
within a name, `[…]` one character of a class and `**` any run of whole names. A name that starts
with a dot is matched by a dot only.
-/

set_option autoImplicit false

namespace StyleImports.Glob

/-- Why a text is no pattern. -/
inductive PatternFault where
  | invalidRange
  | partialRecursion
  | tooManyStars
  deriving DecidableEq, Repr

namespace PatternFault

def message : PatternFault → Text
  | invalidRange => "invalid range pattern"
  | partialRecursion => "recursive wildcards must form a single path component"
  | tooManyStars => "wildcards are either regular `*` or recursive `**`"

end PatternFault

/-- What one sign of a pattern stands for. A class is a list of closed ranges, and may be
negated. -/
inductive PatternSign where
  | char (c : Char)
  | anyChar
  | anyOf (negated : Bool) (ranges : List (Char × Char))
  | star
  | deepStar
  deriving DecidableEq, Repr

/-- The ranges that the inside of a class stands for. -/
def readRanges : Text → List (Char × Char)
  | low :: '-' :: high :: rest => (low, high) :: readRanges rest
  | c :: rest => (c, c) :: readRanges rest
  | [] => []

/-- Reads a class whose opening bracket was read. The first character of its inside may be a
closing bracket. -/
def readClass (t : Text) : Option (PatternSign × Text) :=
  match t with
  | '!' :: first :: rest =>
    (Text.splitFirst ']' rest).map fun cut => (.anyOf true (readRanges (first :: cut.1)), cut.2)
  | '!' :: [] => none
  | first :: rest =>
    (Text.splitFirst ']' rest).map fun cut => (.anyOf false (readRanges (first :: cut.1)), cut.2)
  | [] => none

/-- Adds `**` to signs read so far, the last one first; a second one in a row after another sign
adds nothing. -/
def pushDeepStar (signs : List PatternSign) : List PatternSign :=
  match signs with
  | .deepStar :: _ :: _ => signs
  | _ => .deepStar :: signs

/-- Reads signs; `last` is the character before the rest of the text and `signs` holds what was
read, the last sign first. `steps` bounds the signs that are read. -/
def readSigns : Nat → Option Char → List PatternSign → Text → Except PatternFault (List PatternSign)
  | _, _, signs, [] => .ok signs.reverse
  | 0, _, signs, _ => .ok signs.reverse
  | steps + 1, last, signs, c :: rest =>
    match c with
    | '?' => readSigns steps (some '?') (.anyChar :: signs) rest
    | '*' =>
      match rest.takeWhile (· = '*'), rest.dropWhile (· = '*') with
      | [], rest => readSigns steps (some '*') (.star :: signs) rest
      | [_], after =>
        if last = none || last = some '/' then
          match after with
          | [] => readSigns steps (some '*') (pushDeepStar signs) []
          | '/' :: after => readSigns steps (some '/') (pushDeepStar signs) after
          | _ => .error .partialRecursion
        else .error .partialRecursion
      | _, _ => .error .tooManyStars
    | '[' =>
      match readClass rest with
      | some (sign, rest) => readSigns steps (some ']') (sign :: signs) rest
      | none => .error .invalidRange
    | c => readSigns steps (some c) (.char c :: signs) rest

def readPattern (t : Text) : Except PatternFault (List PatternSign) :=
  readSigns t.length none [] t

/-- The outcome of a match: it holds, it fails here, or the text is too short wherever the last
run of characters ends. -/
inductive MatchOutcome where
  | holds
  | fails
  | exhausted
  deriving DecidableEq, Repr

/-- Whether a sign for one character admits it. At the start of a name, where `atStart` is set, a
dot has to be written as such. -/
def PatternSign.admits (sign : PatternSign) (atStart : Bool) (c : Char) : Bool :=
  match sign with
  | .char d => c = d
  | .anyChar => c ≠ '/' && !(atStart && c = '.')
  | .anyOf negated ranges =>
    c ≠ '/' && !(atStart && c = '.') &&
      (ranges.any fun range => range.1 ≤ c && c ≤ range.2) != negated
  | _ => false

/-- A run of characters, then what `rest` matches. `*` stays within a name; `**` ends a run only
after a slash or at the end of the text, and neither takes a dot at the start of a name. -/
def matchRun (deep : Bool) (rest : Bool → Text → MatchOutcome) : Bool → Text → MatchOutcome
  | atStart, [] => rest atStart []
  | atStart, c :: t =>
    -- Neither run takes a dot at the start of a name, not even to end the name before it.
    if atStart && c = '.' then .fails
    else if c = '/' && !deep then .fails
    else if c ≠ '/' && deep then matchRun deep rest false t
    else
      match rest (c = '/') t with
      | .fails => matchRun deep rest (c = '/') t
      | outcome => outcome

/-- Matches signs from a place in the text; `atStart` is set at the start of a name. -/
def matchSigns : List PatternSign → Bool → Text → MatchOutcome
  | [], _, t => if t.isEmpty then .holds else .fails
  | .star :: signs, atStart, t =>
    match matchSigns signs atStart t with
    | .fails => matchRun false (matchSigns signs) atStart t
    | outcome => outcome
  | .deepStar :: signs, atStart, t =>
    match matchSigns signs atStart t with
    | .fails => matchRun true (matchSigns signs) atStart t
    | outcome => outcome
  | sign :: signs, atStart, t =>
    match t with
    | [] => .exhausted
    | c :: t => if sign.admits atStart c then matchSigns signs (c = '/') t else .fails

def matchesPath (signs : List PatternSign) (path : Text) : Bool :=
  matchSigns signs true path = .holds

end StyleImports.Glob
