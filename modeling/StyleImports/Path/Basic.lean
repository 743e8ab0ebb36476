import StyleImports.Text.Basic

/-!
# Paths

A path is kept as it was written and compared by its parts: repeated slashes, a slash at the end
and `.` segments do not count, while `..` stays a part. So `/p/a`, `/p//a` and `/p/./a/` are the
same path, and an answer still shows the spelling that was stored.

`Path.parts` is the view in which everything else is said: sameness, order, prefixes and the
lexical cleaning of `..` segments.
-/

set_option autoImplicit false

namespace StyleImports

/-- A part of a path: the root, a leading `.`, a `..`, or a name. -/
inductive Part where
  | root
  | here
  | up
  | name (n : Text)
  deriving DecidableEq, Repr

namespace Part

/-- Names come after the root, `.` and `..`. -/
def rank : Part → Nat
  | root => 0
  | here => 1
  | up => 2
  | name _ => 3

/-- Parts are ordered by kind, names among themselves by code points. -/
def before : Part → Part → Bool
  | name m, name n => List.lex m n fun a b => a.toNat < b.toNat
  | a, b => a.rank < b.rank

def text : Part → Text
  | root => ['/']
  | here => ['.']
  | up => ['.', '.']
  | name n => n

end Part

/-- A path as it was written. -/
structure Path where
  text : Text
  deriving DecidableEq, Repr

instance : Inhabited Path := ⟨⟨[]⟩⟩

namespace Path

/-! ## Parts -/

def isAbsolute (p : Path) : Bool := p.text.head? = some '/'

/-- Cuts off what stands before the segments: a slash at the start, or a leading `.` segment. -/
def cutHead : Text → Text × Text
  | '/' :: rest => (['/'], rest)
  | ['.'] => (['.'], [])
  | '.' :: '/' :: rest => (['.'], '/' :: rest)
  | t => ([], t)

/-- The part that the head of a path stands for. -/
def headParts : Text → List Part
  | ['/'] => [.root]
  | ['.'] => [.here]
  | _ => []

/-- A segment that is no part. -/
def isIdle (segment : Text) : Bool := segment = [] || segment = ['.']

def partOf (segment : Text) : Part := if segment = ['.', '.'] then .up else .name segment

/-- The segments after the head, idle ones included. -/
def segments (p : Path) : List Text := Text.splitOn '/' (cutHead p.text).2

/-- The parts of a path, the view by which paths are compared. -/
def parts (p : Path) : List Part :=
  headParts (cutHead p.text).1 ++ (p.segments.filter (!isIdle ·)).map partOf

/-- Whether two spellings name the same path. -/
def same (p q : Path) : Bool := p.parts = q.parts

/-- The order of paths: part by part, a path before its extensions. -/
def before (p q : Path) : Bool := List.lex p.parts q.parts Part.before

def isAmong (p : Path) (paths : List Path) : Bool := paths.any (·.same p)

/-- Adds a path at the end of a list unless it is there. -/
def addNew (paths : List Path) (p : Path) : List Path :=
  if p.isAmong paths then paths else paths ++ [p]

/-! ## Building -/

/-- `p` seen from `base`: an absolute path stands for itself. -/
def join (base p : Path) : Path :=
  if p.isAbsolute then p
  else if base.text = [] || base.text.getLast? = some '/' then ⟨base.text ++ p.text⟩
  else ⟨base.text ++ '/' :: p.text⟩

/-- The path with the given parts; a root drops the parts before it. -/
def ofParts (ps : List Part) : Path := ps.foldl (fun p part => p.join ⟨part.text⟩) ⟨[]⟩

/-- Adds a part to cleaned parts, the last one first: `..` takes back a name, stays at the root
and is kept where there is nothing to take back. -/
def cleanStep : List Part → Part → List Part
  | done, .here => done
  | .root :: done, .up => .root :: done
  | .name _ :: done, .up => done
  | done, part => part :: done

/-- The parts without `.` and, as far as the names before them go, without `..`. -/
def cleanParts (ps : List Part) : List Part := (ps.foldl cleanStep []).reverse

/-- The shortest spelling of a path that follows from its text alone; `.` when nothing is left. -/
def clean (p : Path) : Path :=
  match cleanParts p.parts with
  | [] => ⟨['.']⟩
  | ps => ofParts ps

/-! ## Taking apart -/

/-- The directory of a path, none for the root and for the empty path. -/
def parent? (p : Path) : Option Path :=
  let head := (cutHead p.text).1
  match (Text.dropEndWhile isIdle p.segments).reverse with
  | [] => if head = ['.'] then some ⟨[]⟩ else none
  | _ :: kept => some ⟨head ++ Text.joinWith '/' (Text.dropEndWhile isIdle kept.reverse)⟩

/-- The last part, when it is a name. -/
def fileName? (p : Path) : Option Text :=
  match p.parts.getLast? with
  | some (.name n) => some n
  | _ => none

/-- What follows the last dot of the file name; a dot at its start begins no extension. -/
def extension? (p : Path) : Option Text :=
  match p.fileName?.bind (Text.splitLast '.') with
  | some (_ :: _, ending) => some ending
  | _ => none

/-- Whether the extension is one of the given, ASCII case aside. -/
def hasExtension (endings : List Text) (p : Path) : Bool :=
  match p.extension? with
  | some ending => Text.lowerAscii ending ∈ endings
  | none => false

/-- The path after another part: `..` goes to the directory above, if there is one. -/
def step (p : Path) : Part → Path
  | .root => ⟨['/']⟩
  | .here => p
  | .up => p.parent?.getD p
  | .name n => p.join ⟨n⟩

/-- The path that a text leads to from `p`, part by part. -/
def follow (p : Path) (text : Text) : Path :=
  match (Path.mk text).parts with
  | [] => ⟨text⟩
  | .root :: _ => ⟨text⟩
  | ps => ps.foldl step p

/-- The path followed from nothing: without `.`, and without `..` together with the part before
it. -/
def followed (p : Path) : Path := p.parts.foldl step ⟨[]⟩

/-- At most so many directories above a path. -/
def ancestorsWithin : Nat → Path → List Path
  | 0, _ => []
  | n + 1, p =>
    match p.parent? with
    | none => []
    | some dir => dir :: ancestorsWithin n dir

/-- The directories above a path, the nearest first. Each is spelled shorter than the one before. -/
def ancestors (p : Path) : List Path := ancestorsWithin p.text.length p

def startsWith (p base : Path) : Bool := base.parts.isPrefixOf p.parts

def dropSegments : Nat → List Text → List Text
  | 0, rest => rest.dropWhile isIdle
  | _ + 1, [] => []
  | n + 1, segment :: rest =>
    if isIdle segment then dropSegments (n + 1) rest else dropSegments n rest

/-- What is left of a path below `base`, spelled as in the path. -/
def below? (base p : Path) : Option Path :=
  if p.startsWith base then
    let head := (cutHead p.text).1
    match base.parts.length with
    | 0 => some ⟨head ++ Text.joinWith '/' (Text.dropEndWhile isIdle p.segments)⟩
    | n =>
      let rest := dropSegments (n - (headParts head).length) p.segments
      some ⟨Text.joinWith '/' (Text.dropEndWhile isIdle rest)⟩
  else none

/-- The way from directory `base` to `p`: up to where the two part, then down. -/
def relative (base p : Path) : Path :=
  let common := ((base.parts.zip p.parts).takeWhile fun pair => pair.1 = pair.2).length
  ofParts (List.replicate (base.parts.length - common) .up ++ p.parts.drop common)

/-! ## Laws -/

@[simp]
theorem same_self (p : Path) : p.same p = true := by simp [same]

theorem same_iff {p q : Path} : p.same q = true ↔ p.parts = q.parts := by simp [same]

theorem same_comm (p q : Path) : p.same q = q.same p := by
  simp only [same]
  exact decide_eq_decide.2 eq_comm

theorem same_trans {p q r : Path} (hpq : p.same q = true) (hqr : q.same r = true) :
    p.same r = true :=
  same_iff.2 ((same_iff.1 hpq).trans (same_iff.1 hqr))

theorem same_symm {p q : Path} (h : p.same q = true) : q.same p = true := by
  rw [same_comm]; exact h

theorem isAmong_iff {p : Path} {paths : List Path} :
    p.isAmong paths = true ↔ ∃ q ∈ paths, q.same p = true := by simp [isAmong]

theorem isAmong_cons {p q : Path} {paths : List Path} :
    p.isAmong (q :: paths) = (q.same p || p.isAmong paths) := by simp [isAmong]

theorem isAmong_append {p : Path} {paths more : List Path} :
    p.isAmong (paths ++ more) = (p.isAmong paths || p.isAmong more) := by simp [isAmong]

/-- The spelling of a path does not matter to membership. -/
theorem isAmong_congr {p q : Path} (h : p.same q = true) (paths : List Path) :
    p.isAmong paths = q.isAmong paths := by
  simp only [isAmong, same, same_iff.1 h]

theorem same_eq_false_of_mem {p q : Path} {paths : List Path} (hp : p.isAmong paths = false)
    (hq : q ∈ paths) : p.same q = false := by
  simp only [isAmong, List.any_eq_false] at hp
  rw [same_comm]
  exact Bool.eq_false_iff.2 (hp q hq)

theorem isAmong_of_mem {p : Path} {paths : List Path} (h : p ∈ paths) : p.isAmong paths = true :=
  isAmong_iff.2 ⟨p, h, same_self p⟩

end Path

end StyleImports
