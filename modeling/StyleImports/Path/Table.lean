import StyleImports.Path.Basic

/-!
# Tables keyed by paths

A table holds its entries in the order of their paths. Two spellings of a path have one entry; the
spelling that came first stays, and the value that came last. A set of paths is a table of units.
-/

set_option autoImplicit false

namespace StyleImports

/-- Values keyed by paths, in the order of the paths. -/
structure PathTable (α : Type) where
  entries : List (Path × α)
  deriving DecidableEq, Repr

namespace PathTable

variable {α : Type}

def empty : PathTable α := ⟨[]⟩

instance : Inhabited (PathTable α) := ⟨empty⟩

def findEntry (p : Path) (entries : List (Path × α)) : Option (Path × α) :=
  entries.find? fun entry => entry.1.same p

def putEntry (p : Path) (a : α) : List (Path × α) → List (Path × α)
  | [] => [(p, a)]
  | (q, b) :: rest =>
    if q.same p then (q, a) :: rest
    else if p.before q then (p, a) :: (q, b) :: rest
    else (q, b) :: putEntry p a rest

def get? (table : PathTable α) (p : Path) : Option α := (findEntry p table.entries).map (·.2)

/-- The spelling under which a path is stored. -/
def key? (table : PathTable α) (p : Path) : Option Path := (findEntry p table.entries).map (·.1)

def contains (table : PathTable α) (p : Path) : Bool :=
  table.entries.any fun entry => entry.1.same p

def insert (table : PathTable α) (p : Path) (a : α) : PathTable α := ⟨putEntry p a table.entries⟩

def erase (table : PathTable α) (p : Path) : PathTable α :=
  ⟨table.entries.filter fun entry => !entry.1.same p⟩

def keys (table : PathTable α) : List Path := table.entries.map (·.1)

def size (table : PathTable α) : Nat := table.entries.length

def isEmpty (table : PathTable α) : Bool := table.entries.isEmpty

/-! ## Laws -/

theorem findEntry_putEntry_self (p q : Path) (a : α) (entries : List (Path × α))
    (h : q.same p = true) : (findEntry q (putEntry p a entries)).map (·.2) = some a := by
  have hpq : p.same q = true := by rw [Path.same_comm]; exact h
  induction entries with
  | nil => simp [putEntry, findEntry, hpq]
  | cons entry rest ih =>
    obtain ⟨r, b⟩ := entry
    simp only [putEntry]
    by_cases hr : r.same p = true
    · have hrq : r.same q = true := Path.same_trans hr hpq
      simp [hr, findEntry, hrq]
    · simp only [hr, Bool.false_eq_true, if_false]
      by_cases hb : p.before r = true
      · simp [hb, findEntry, hpq]
      · have hrq : r.same q = false := by
          cases hrq : r.same q with
          | false => rfl
          | true => exact absurd (Path.same_trans hrq h) hr
        simpa [hb, findEntry, hrq] using ih

theorem findEntry_putEntry_of_not_same (p q : Path) (a : α) (entries : List (Path × α))
    (h : q.same p = false) : findEntry q (putEntry p a entries) = findEntry q entries := by
  have hpq : p.same q = false := by rw [Path.same_comm]; exact h
  induction entries with
  | nil => simp [putEntry, findEntry, hpq]
  | cons entry rest ih =>
    obtain ⟨r, b⟩ := entry
    simp only [putEntry]
    by_cases hr : r.same p = true
    · have hrq : r.same q = false := by
        cases hrq : r.same q with
        | false => rfl
        | true =>
          have := Path.same_trans (by rw [Path.same_comm]; exact hr) hrq
          simp [hpq] at this
      simp [hr, findEntry, hrq]
    · simp only [hr, Bool.false_eq_true, if_false]
      by_cases hb : p.before r = true
      · simp [hb, findEntry, hpq]
      · simp only [hb, Bool.false_eq_true, if_false, findEntry, List.find?_cons]
        cases r.same q with
        | true => rfl
        | false => exact ih

theorem any_putEntry (p q : Path) (a : α) (entries : List (Path × α)) :
    (putEntry p a entries).any (fun entry => entry.1.same q) =
      (p.same q || entries.any fun entry => entry.1.same q) := by
  induction entries with
  | nil => simp [putEntry]
  | cons entry rest ih =>
    obtain ⟨r, b⟩ := entry
    simp only [putEntry]
    by_cases hr : r.same p = true
    · have hrq : r.same q = p.same q := by simp only [Path.same, Path.same_iff.1 hr]
      simp [hr, hrq]
    · by_cases hb : p.before r = true
      · simp [hr, hb]
      · simp only [hr, hb, Bool.false_eq_true, if_false, List.any_cons, ih]
        rw [Bool.or_left_comm]

/-- Under every spelling of the path, the value that was put in is found. -/
theorem get?_insert_self {table : PathTable α} {p q : Path} {a : α} (h : q.same p = true) :
    (table.insert p a).get? q = some a :=
  findEntry_putEntry_self p q a table.entries h

/-- Another path has the value that it had. -/
theorem get?_insert_of_not_same {table : PathTable α} {p q : Path} {a : α}
    (h : q.same p = false) : (table.insert p a).get? q = table.get? q := by
  simp only [get?, insert, findEntry_putEntry_of_not_same p q a table.entries h]

theorem get?_insert (table : PathTable α) (p q : Path) (a : α) :
    (table.insert p a).get? q = if q.same p then some a else table.get? q := by
  cases h : q.same p with
  | true => simp [get?_insert_self h]
  | false => simp [get?_insert_of_not_same h]

/-- A table holds a path that was put in, under all its spellings, and what it held before. -/
theorem contains_insert (table : PathTable α) (p q : Path) (a : α) :
    (table.insert p a).contains q = (p.same q || table.contains q) :=
  any_putEntry p q a table.entries

theorem contains_eq_isSome_get? (table : PathTable α) (p : Path) :
    table.contains p = (table.get? p).isSome := by
  rw [contains, get?, findEntry, Option.isSome_map, List.isSome_find?]

/-- The spelling of a path does not matter to a table. -/
theorem get?_congr {table : PathTable α} {p q : Path} (h : p.same q = true) :
    table.get? p = table.get? q := by
  simp only [get?, findEntry, Path.same, Path.same_iff.1 h]

end PathTable

/-- A set of paths, in their order. -/
abbrev PathSet := PathTable Unit

namespace PathSet

/-- Adds a path unless one of its spellings is there. -/
def add (set : PathSet) (p : Path) : PathSet := PathTable.insert set p ()

def toList (set : PathSet) : List Path := PathTable.keys set

end PathSet

end StyleImports
