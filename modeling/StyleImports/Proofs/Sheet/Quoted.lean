import StyleImports.Proofs.Sheet.Outline
import StyleImports.Proofs.Sheet.Shift

/-!
# Quoted texts read back

In quotes, with a backslash before each quote and each backslash, a text of one line is read back as
it is: nothing of it is taken for a comment (`stripFrom_escaped`), and the reader of strings undoes
the backslashes (`readQuoted_escaped`). So a row that imports such a text is one line, that line is
an import of the text (`readImport_quotedRow`), and the rows after it are read as without it
(`parseFrom_quotedRow`).
-/

set_option autoImplicit false

namespace StyleImports

theorem Text.lines_append {row : Text} (hfeed : '\n' ∉ row) (hend : ['\r'].isSuffixOf row = false)
    (rest : Text) : lines (row ++ '\n' :: rest) = row :: lines rest := by
  rw [lines, splitOn_append_sep, splitOn_of_not_mem hfeed, lines]
  cases hparts : splitOn '\n' rest with
  | nil => exact absurd hparts (splitOn_ne_nil _ _)
  | cons part parts => simp [closeLines, hend]

namespace Sheet

variable {s : Text} {kind : ImportKind}

/-- A text with a backslash before each quote and each backslash. -/
def escaped (s : Text) : Text :=
  s.flatMap fun c => if c = '\\' || c = '\x22' then ['\\', c] else [c]

theorem escaped_cons_of_marked {c : Char} (h : c = '\\' ∨ c = '\x22') (s : Text) :
    escaped (c :: s) = '\\' :: c :: escaped s := by
  simp [escaped, h]

theorem escaped_cons_of_plain {c : Char} (h : ¬ (c = '\\' ∨ c = '\x22')) (s : Text) :
    escaped (c :: s) = c :: escaped s := by
  simp [escaped, h]

theorem not_mem_escaped (h : '\n' ∉ s) : '\n' ∉ escaped s := by
  intro hmem
  obtain ⟨c, hc, hfeed⟩ := List.mem_flatMap.1 hmem
  have hcn : c ≠ '\n' := fun heq => h (heq ▸ hc)
  split at hfeed <;> simp [hcn.symm] at hfeed

/-! ## Comments -/

theorem stripFrom_append {depth : Nat} {word : Text}
    (h : ∀ c ∈ word, c ∉ ['\x22', '\x27', '(', ')', '\n', '/']) (rest : Text) :
    stripFrom (.code depth) (word ++ rest) = word ++ stripFrom (.code depth) rest := by
  induction word with
  | nil => rfl
  | cons c word ih =>
    obtain ⟨hc, hword⟩ := List.forall_mem_cons.1 h
    simp only [List.mem_cons, List.not_mem_nil, or_false, not_or] at hc
    rw [List.cons_append, stripFrom, ih hword]
    · simp [hc]
    · simp [hc]
    · simp [hc]

/-- Within quotes an escaped text of one line is kept, and the quote after it is the closing one. -/
theorem stripFrom_escaped (depth : Nat) (h : '\n' ∉ s) (rest : Text) :
    stripFrom (.quoted '\x22' depth) (escaped s ++ '\x22' :: rest) =
      escaped s ++ '\x22' :: stripFrom (.code depth) rest := by
  induction s with
  | nil => simp [escaped, stripFrom]
  | cons c s ih =>
    simp only [List.mem_cons, not_or] at h
    by_cases hc : c = '\\' ∨ c = '\x22'
    · rw [escaped_cons_of_marked hc]
      simp only [List.cons_append, stripFrom, if_neg (Ne.symm h.1), ih h.2]
    · rw [escaped_cons_of_plain hc]
      rw [not_or] at hc
      rw [List.cons_append, stripFrom, if_neg (Ne.symm h.1), if_neg hc.2, ih h.2]
      · rfl
      · simp [hc.1]

/-! ## Expressions -/

theorem readQuoted_escaped (offset : Nat) (s rest : Text) :
    readQuoted '\x22' offset (escaped s ++ '\x22' :: rest) =
      some (s, ⟨offset + (escaped s).length + 1, rest⟩) := by
  induction s generalizing offset with
  | nil => simp [escaped, readQuoted]
  | cons c s ih =>
    by_cases hc : c = '\\' ∨ c = '\x22'
    · rw [escaped_cons_of_marked hc]
      simp only [List.cons_append, readQuoted, ih, Option.map_some, List.length_cons]
      congr 3
      omega
    · rw [escaped_cons_of_plain hc]
      rw [not_or] at hc
      rw [List.cons_append, readQuoted, if_neg hc.2, ih]
      · simp only [Option.map_some, List.length_cons]
        congr 3
        omega
      · simp [hc.1]
      · simp [hc.1]

theorem readList_quoted (offset : Nat) (s : Text) :
    readList ⟨offset, '\x22' :: (escaped s ++ ['\x22'])⟩ = .ok [.str s] := by
  have hblank : Cursor.skipBlanks ⟨offset, '\x22' :: (escaped s ++ ['\x22'])⟩ =
      ⟨offset, '\x22' :: (escaped s ++ ['\x22'])⟩ := rfl
  have hend : ∀ n, Cursor.skipBlanks ⟨n, []⟩ = ⟨n, []⟩ := fun _ => rfl
  have hterm : ∀ steps, readTerm (steps + 1) ⟨offset, '\x22' :: (escaped s ++ ['\x22'])⟩ =
      .ok (.str s, ⟨offset + 1 + (escaped s).length + 1, []⟩) := by
    intro steps
    simp [readTerm, readString, readQuoted_escaped, isQuote]
  simp only [readList, readItems, readExpr, hblank, List.length_cons, Nat.mul_add, readSum, hterm,
    readSummands, hend]

/-! ## Rows -/

/-- The row that imports a text in quotes. -/
def quotedRow (kind : ImportKind) (s : Text) : Text :=
  kind.keyword ++ ' ' :: '\x22' :: (escaped s ++ ['\x22'])

theorem not_mem_quotedRow (kind : ImportKind) (h : '\n' ∉ s) : '\n' ∉ quotedRow kind s := by
  have hkeyword : '\n' ∉ kind.keyword := by cases kind <;> decide
  simp [quotedRow, hkeyword, not_mem_escaped h]

theorem quotedRow_eq_append (kind : ImportKind) (s : Text) :
    quotedRow kind s = (kind.keyword ++ ' ' :: '\x22' :: escaped s) ++ ['\x22'] := by
  simp [quotedRow]

/-- A row that imports a text in quotes holds no comment, and leaves nothing open. -/
theorem stripFrom_quotedRow (kind : ImportKind) (h : '\n' ∉ s) (rest : Text) :
    stripFrom (.code 0) (quotedRow kind s ++ '\n' :: rest) =
      quotedRow kind s ++ '\n' :: stripFrom (.code 0) rest := by
  have hrow : ∀ rest, quotedRow kind s ++ '\n' :: rest =
      (kind.keyword ++ [' ']) ++ '\x22' :: (escaped s ++ '\x22' :: '\n' :: rest) := by
    simp only [quotedRow, List.append_assoc, List.cons_append, List.nil_append, implies_true]
  have hword : ∀ c ∈ kind.keyword ++ [' '], c ∉ ['\x22', '\x27', '(', ')', '\n', '/'] := by
    have hall : (kind.keyword ++ [' ']).all (· ∉ ['\x22', '\x27', '(', ')', '\n', '/']) = true := by
      cases kind <;> decide
    exact fun c hc => of_decide_eq_true (List.all_eq_true.1 hall c hc)
  have hopen : ∀ t, stripFrom (.code 0) ('\x22' :: t) = '\x22' :: stripFrom (.quoted '\x22' 0) t :=
    fun t => by rw [stripFrom] <;> simp
  have hfeed : ∀ t, stripFrom (.code 0) ('\n' :: t) = '\n' :: stripFrom (.code 0) t :=
    fun t => by rw [stripFrom] <;> simp
  rw [hrow, hrow, stripFrom_append hword, hopen, stripFrom_escaped 0 h, hfeed]

theorem isSuffixOf_quotedRow (kind : ImportKind) (s : Text) :
    ['\r'].isSuffixOf (quotedRow kind s) = false := by
  rw [Bool.eq_false_iff, ne_eq, List.isSuffixOf_iff_suffix, quotedRow_eq_append]
  rintro ⟨front, heq⟩
  have hlast : ['\r'] = ['\x22'] := (List.append_inj' heq rfl).2
  cases hlast

theorem importKind?_quotedRow (kind : ImportKind) (s : Text) :
    importKind? (quotedRow kind s) = some kind := by
  cases kind <;> rfl

theorem lineOf?_quotedRow (number : Nat) (kind : ImportKind) (s : Text) :
    lineOf? number (quotedRow kind s) = some ⟨number, 0, quotedRow kind s⟩ := by
  have hend : Text.trimEnd (quotedRow kind s) = quotedRow kind s := by
    rw [quotedRow_eq_append, Text.trimEnd, Text.dropEndWhile_append_singleton _ (by decide)]
  have hstart : Text.trimStart (quotedRow kind s) = quotedRow kind s := by
    cases kind <;> rfl
  obtain ⟨first, more, hcons⟩ : ∃ first more, quotedRow kind s = first :: more := by
    cases kind <;> exact ⟨_, _, rfl⟩
  rw [lineOf?, hend, hstart]
  simp [hcons]

theorem readImport_quotedRow (number indent : Nat) (kind : ImportKind) (s : Text) :
    readImport ⟨number, indent, quotedRow kind s⟩ kind =
      .ok (.request kind [.str s] ⟨number, indent + 1⟩ indent) := by
  have hend : Text.dropEndWhile isEnding (quotedRow kind s) = quotedRow kind s := by
    rw [quotedRow_eq_append, Text.dropEndWhile_append_singleton _ (by decide)]
  have hblank : Cursor.skipBlanks ⟨kind.keyword.length, ' ' :: '\x22' :: (escaped s ++ ['\x22'])⟩ =
      ⟨kind.keyword.length + 1, '\x22' :: (escaped s ++ ['\x22'])⟩ := rfl
  simp only [readImport, hend]
  rw [quotedRow, List.drop_left, hblank]
  simp only [readList_quoted]

/-- A read text with nodes before it, if it can be read. -/
def preceded (before : List Node) : Except ParseError (List Node) → Except ParseError (List Node)
  | .ok nodes => .ok (before ++ nodes)
  | .error e => .error e

/-- The row is an import of the text, and the rows after it are read as without it. -/
theorem parseFrom_quotedRow (number : Nat) (kind : ImportKind) (h : '\n' ∉ s) (rest : Text) :
    parseFrom number (quotedRow kind s ++ '\n' :: rest) =
      preceded [.request kind [.str s] ⟨number, 1⟩ 0] (parseFrom (number + 1) rest) := by
  have hlines : numberLines number (Text.lines (stripComments (quotedRow kind s ++ '\n' :: rest))) =
      ⟨number, 0, quotedRow kind s⟩ ::
        numberLines (number + 1) (Text.lines (stripComments rest)) := by
    rw [stripComments, stripFrom_quotedRow kind h,
      Text.lines_append (not_mem_quotedRow kind h) (isSuffixOf_quotedRow kind s), numberLines,
      lineOf?_quotedRow]
    rfl
  rw [parseFrom, hlines, nodesOf]
  simp only [importKind?_quotedRow, readImport_quotedRow]
  change _ = preceded _ (nodesOf _)
  cases nodesOf (numberLines (number + 1) (Text.lines (stripComments rest))) <;> rfl

end Sheet

end StyleImports
