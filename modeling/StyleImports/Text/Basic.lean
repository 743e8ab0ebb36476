/-!
# Text

A text is the list of its characters, so that every reader of the library recurses on the text
itself. A string literal stands for its text wherever a text is expected.

The cutting functions lose nothing: `joinWith_splitOn` puts a split text together again, and
`splitFirst_eq_some` says where the first separator was.
-/

set_option autoImplicit false

namespace StyleImports

/-- A text is the list of its Unicode scalar values. -/
abbrev Text := List Char

instance : Coe String Text := ⟨String.toList⟩

namespace Text

/-! ## Cutting -/

/-- The parts between occurrences of a separator; there is always at least one. -/
def splitOn (sep : Char) : Text → List Text
  | [] => [[]]
  | c :: rest =>
    if c = sep then [] :: splitOn sep rest
    else
      match splitOn sep rest with
      | [] => [[c]]
      | part :: parts => (c :: part) :: parts

/-- The parts with the separator between neighbours. -/
def joinWith (sep : Char) : List Text → Text
  | [] => []
  | [part] => part
  | part :: next :: rest => part ++ sep :: joinWith sep (next :: rest)

def joinBy (separator : Text) : List Text → Text
  | [] => []
  | [part] => part
  | part :: next :: rest => part ++ separator ++ joinBy separator (next :: rest)

/-- What stands before and after the first separator. -/
def splitFirst (sep : Char) : Text → Option (Text × Text)
  | [] => none
  | c :: rest =>
    if c = sep then some ([], rest)
    else (splitFirst sep rest).map fun cut => (c :: cut.1, cut.2)

def splitLast (sep : Char) : Text → Option (Text × Text)
  | [] => none
  | c :: rest =>
    match splitLast sep rest with
    | some cut => some (c :: cut.1, cut.2)
    | none => if c = sep then some ([], rest) else none

/-- The list without the longest run of elements at its end that all satisfy `p`. -/
def dropEndWhile {α : Type} (p : α → Bool) : List α → List α
  | [] => []
  | c :: rest =>
    match dropEndWhile p rest with
    | [] => if p c then [] else [c]
    | kept => c :: kept

/-- The lines of a text that was cut at line feeds: a carriage return before a line feed belongs
to the line's end, and an empty last part is no line. -/
def closeLines : List Text → List Text
  | [] => []
  | [last] => if last = [] then [] else [last]
  | line :: next :: rest =>
    (if ['\r'].isSuffixOf line then line.dropLast else line) :: closeLines (next :: rest)

/-- Lines end at a line feed, with or without a carriage return before it; a carriage return
alone ends no line. -/
def lines (t : Text) : List Text := closeLines (splitOn '\n' t)

/-- Every occurrence of a character is replaced by a text. -/
def replaceChar (old : Char) (new : Text) (t : Text) : Text :=
  t.flatMap fun c => if c = old then new else [c]

/-- Whether a text holds another as a run of its characters. -/
def holds (part : Text) : Text → Bool
  | [] => part.isEmpty
  | c :: rest => part.isPrefixOf (c :: rest) || holds part rest

/-! ## Letters and numbers -/

/-- ASCII capitals become small letters; no other character changes. -/
def lowerAscii (t : Text) : Text := t.map Char.toLower

def ofNat (n : Nat) : Text := Nat.toDigits 10 n

def toNat (digits : Text) : Nat := digits.foldl (fun n c => n * 10 + (c.toNat - 48)) 0

/-- Whether a text ends in another, ASCII case aside. -/
def endsWithAscii (ending t : Text) : Bool := ending.isSuffixOf (lowerAscii t)

/-! ## Laws of cutting -/

theorem splitOn_ne_nil (sep : Char) (t : Text) : splitOn sep t ≠ [] := by
  cases t with
  | nil => simp [splitOn]
  | cons c rest =>
    simp only [splitOn]
    split
    · simp
    · split <;> simp

/-- Joining the parts of a split gives the text back. -/
theorem joinWith_splitOn (sep : Char) (t : Text) : joinWith sep (splitOn sep t) = t := by
  induction t with
  | nil => rfl
  | cons c rest ih =>
    simp only [splitOn]
    by_cases h : c = sep
    · simp only [h, if_true]
      match hs : splitOn sep rest with
      | [] => exact absurd hs (splitOn_ne_nil sep rest)
      | part :: parts => simp [joinWith, ← hs, ih]
    · simp only [h, if_false]
      match hs : splitOn sep rest with
      | [] => exact absurd hs (splitOn_ne_nil sep rest)
      | [part] => simpa [joinWith, hs] using ih
      | part :: next :: parts => simpa [joinWith, hs] using ih

theorem joinWith_append {sep : Char} {parts more : List Text} (h : parts ≠ []) (hmore : more ≠ []) :
    joinWith sep (parts ++ more) = joinWith sep parts ++ sep :: joinWith sep more := by
  induction parts with
  | nil => exact absurd rfl h
  | cons part rest ih =>
    cases rest with
    | nil =>
      obtain ⟨next, rest, rfl⟩ := List.exists_cons_of_ne_nil hmore
      rfl
    | cons next rest =>
      have hrest := ih (by simp)
      simp only [List.cons_append] at hrest ⊢
      rw [joinWith, hrest, joinWith, List.append_assoc]
      rfl

/-- No part of a split holds the separator. -/
theorem not_mem_of_mem_splitOn {sep : Char} {t part : Text} (h : part ∈ splitOn sep t) :
    sep ∉ part := by
  induction t generalizing part with
  | nil => simp [splitOn] at h; simp [h]
  | cons c rest ih =>
    simp only [splitOn] at h
    by_cases hc : c = sep
    · simp only [hc, if_true, List.mem_cons] at h
      rcases h with rfl | h
      · simp
      · exact ih h
    · simp only [hc, if_false] at h
      match hs : splitOn sep rest with
      | [] => exact absurd hs (splitOn_ne_nil sep rest)
      | first :: parts =>
        simp only [hs, List.mem_cons] at h
        rcases h with rfl | h
        · simp only [List.mem_cons, not_or]
          exact ⟨fun e => hc e.symm, ih (by simp [hs])⟩
        · exact ih (by simp [hs, h])

theorem splitFirst_eq_some {sep : Char} {t before after : Text}
    (h : splitFirst sep t = some (before, after)) :
    t = before ++ sep :: after ∧ sep ∉ before := by
  induction t generalizing before with
  | nil => simp [splitFirst] at h
  | cons c rest ih =>
    simp only [splitFirst] at h
    by_cases hc : c = sep
    · simp only [hc, if_true, Option.some.injEq, Prod.mk.injEq] at h
      simp [← h.1, ← h.2, hc]
    · simp only [hc, if_false, Option.map_eq_some_iff] at h
      obtain ⟨⟨first, last⟩, hcut, heq⟩ := h
      simp only [Prod.mk.injEq] at heq
      obtain ⟨rfl, rfl⟩ := heq
      obtain ⟨rfl, hmem⟩ := ih hcut
      simp only [List.cons_append, List.mem_cons, not_or, true_and]
      exact ⟨fun e => hc e.symm, hmem⟩

theorem splitFirst_eq_none {sep : Char} {t : Text} : splitFirst sep t = none ↔ sep ∉ t := by
  induction t with
  | nil => simp [splitFirst]
  | cons c rest ih =>
    by_cases hc : c = sep
    · simp [splitFirst, hc]
    · simp [splitFirst, hc, ih, Ne.symm hc]

/-- A text is cut at its first separator. -/
theorem splitFirst_append_sep {sep : Char} {front : Text} (h : sep ∉ front) (rest : Text) :
    splitFirst sep (front ++ sep :: rest) = some (front, rest) := by
  induction front with
  | nil => simp [splitFirst]
  | cons c front ih =>
    simp only [List.mem_cons, not_or] at h
    simp [splitFirst, ih h.2, Ne.symm h.1]

/-- The longest front of characters of one kind ends where another character follows. -/
theorem takeWhile_append_stop {p : Char → Bool} {front rest : Text}
    (hfront : ∀ c ∈ front, p c = true) (hrest : ∀ c, rest.head? = some c → p c = false) :
    (front ++ rest).takeWhile p = front ∧ (front ++ rest).dropWhile p = rest := by
  rw [List.takeWhile_append_of_pos hfront, List.dropWhile_append_of_pos hfront]
  cases rest with
  | nil => simp
  | cons c rest => simp [hrest c rfl]

theorem splitLast_of_not_mem {sep : Char} {t : Text} (h : sep ∉ t) : splitLast sep t = none := by
  induction t with
  | nil => rfl
  | cons c t ih =>
    rw [List.mem_cons, not_or] at h
    rw [splitLast, ih h.2]
    exact if_neg fun hc => h.1 hc.symm

/-- A text is cut at its last separator. -/
theorem splitLast_append_sep {sep : Char} {rest : Text} (h : sep ∉ rest) (front : Text) :
    splitLast sep (front ++ sep :: rest) = some (front, rest) := by
  induction front with
  | nil =>
    rw [List.nil_append, splitLast, splitLast_of_not_mem h]
    exact if_pos rfl
  | cons c front ih => rw [List.cons_append, splitLast, ih]

/-! ## Letters -/

theorem isAlpha_iff {c : Char} : c.isAlpha = true ↔
    (65 ≤ c.toNat ∧ c.toNat ≤ 90) ∨ (97 ≤ c.toNat ∧ c.toNat ≤ 122) := by
  change (decide ('A'.val ≤ c.val ∧ c.val ≤ 'Z'.val) ||
    (decide ('a'.val ≤ c.val) && decide (c.val ≤ 'z'.val))) = true ↔ _
  simp only [Bool.or_eq_true, Bool.and_eq_true, decide_eq_true_eq, UInt32.le_iff_toNat_le]
  rfl

/-- Only letters are made small, and they stay letters. -/
theorem toLower_cases (c : Char) :
    c.toLower = c ∨ c.isAlpha = true ∧ c.toLower.isAlpha = true := by
  unfold Char.toLower
  split
  case isTrue h =>
    simp only [ge_iff_le, UInt32.le_iff_toNat_le] at h
    have hupper : 65 ≤ c.toNat ∧ c.toNat ≤ 90 := h
    refine .inr ⟨isAlpha_iff.2 (.inl hupper), isAlpha_iff.2 (.inr ?_)⟩
    change 97 ≤ (c.toNat + 32) % 2 ^ 32 ∧ (c.toNat + 32) % 2 ^ 32 ≤ 122
    omega
  case isFalse => exact .inl rfl

/-- No capital is left. -/
theorem not_capital_toLower (c : Char) : ¬ (65 ≤ c.toLower.toNat ∧ c.toLower.toNat ≤ 90) := by
  unfold Char.toLower
  split
  case isTrue h =>
    simp only [ge_iff_le, UInt32.le_iff_toNat_le] at h
    have hupper : 65 ≤ c.toNat ∧ c.toNat ≤ 90 := h
    change ¬ (65 ≤ (c.toNat + 32) % 2 ^ 32 ∧ (c.toNat + 32) % 2 ^ 32 ≤ 90)
    omega
  case isFalse h =>
    simp only [ge_iff_le, UInt32.le_iff_toNat_le] at h
    exact h

theorem isAlpha_of_toLower {c d : Char} (h : c.toLower = d) (hd : d.isAlpha = true) :
    c.isAlpha = true := by
  rcases toLower_cases c with hsame | ⟨halpha, -⟩
  · rw [← hsame, h, hd]
  · exact halpha

theorem eq_of_toLower {c d : Char} (h : c.toLower = d) (hd : d.isAlpha = false) : c = d := by
  rcases toLower_cases c with hsame | ⟨-, halpha⟩
  · rw [← hsame, h]
  · rw [h, hd] at halpha
    cases halpha

end Text

end StyleImports
