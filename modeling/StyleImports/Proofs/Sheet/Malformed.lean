import StyleImports.Proofs.Sheet.Importless
import StyleImports.Proofs.Sheet.Reading

/-!
# Stylesheets that cannot be read

Only an import can keep a stylesheet from being read: the rows that start an import and whose path
the grammar does not derive are malformed (`IsMalformed`). The error of a stylesheet is that of its
first malformed row, however deep it is indented (`failure?_nodesOf`), and its place is on that row
(`rowFault`). `parse_fails_iff` puts this together.
-/

set_option autoImplicit false

namespace StyleImports.Sheet

variable {c : Cursor} {line : Line} {row rest : Text} {kind : ImportKind} {e : ParseError}

/-! ## Malformed rows -/

/-- The row starts an import whose path, without the semicolons and blanks at its end, is no list of
path expressions. -/
def IsMalformed (row : Text) : Prop :=
  ∃ (kind : ImportKind) (rest : Text), Text.trim row = kind.keyword ++ rest ∧
    endsKeyword rest = true ∧ ¬ ∃ paths, Lists (Text.dropEndWhile isEnding rest) paths

/-! ## Imports -/

theorem lists_skipBlanks_iff {paths : List PathExpr} :
    Lists c.skipBlanks.rest paths ↔ Lists c.rest paths := by
  constructor
  · intro h
    obtain ⟨blanks, hblanks, htakes⟩ := takes_skipBlanks c
    rw [htakes.rest]
    exact lists_blanks hblanks h
  · intro h
    -- What comes before the first sum is all that is skipped.
    have hskip : ∀ {before t after : Text} {e : PathExpr}, Blanks before → Derives .sum t e →
        c.rest = before ++ (t ++ after) → c.skipBlanks.rest = [] ++ (t ++ after) := by
      intro before t after e hbefore hsum hrest
      have htakes : Takes c (before ++ (t ++ after))
          ⟨c.offset + (before ++ (t ++ after)).length, []⟩ := ⟨by simp [hrest], rfl⟩
      obtain ⟨c₁, htakes, hinside⟩ := htakes.split
      obtain ⟨c₂, hinside, hafter⟩ := hinside.split
      rw [htakes.skipBlanks_of_derives hbefore hinside hsum, hinside.rest, hafter.rest]
      simp
    generalize hrest : c.rest = t at h
    cases h with
    | last hbefore hsum hafter =>
      rw [hskip hbefore hsum hrest]
      exact .last blanks_nil hsum hafter
    | more hbefore hsum hafter hmore =>
      rw [hskip hbefore hsum hrest]
      exact .more blanks_nil hsum hafter hmore

theorem not_lists_nil (paths : List PathExpr) : ¬ Lists [] paths := by
  intro h
  generalize hnil : ([] : Text) = t at h
  cases h with
  | last _ hsum _ =>
    obtain ⟨first, more, rfl, -⟩ := exists_cons_of_derives hsum
    simp at hnil
  | more => simp at hnil

theorem dropEndWhile_append_of_nil {p : Char → Bool} {u : Text} (h : Text.dropEndWhile p u = [])
    (t : Text) : Text.dropEndWhile p (t ++ u) = Text.dropEndWhile p t := by
  induction t with
  | nil => rw [List.nil_append, h, Text.dropEndWhile]
  | cons first t ih => rw [List.cons_append, Text.dropEndWhile, ih, Text.dropEndWhile]

theorem drop_keyword (kind : ImportKind) (rest : Text) :
    (Text.dropEndWhile isEnding (kind.keyword ++ rest)).drop kind.keyword.length =
      Text.dropEndWhile isEnding rest := by
  by_cases hnil : Text.dropEndWhile isEnding rest = []
  · have hkeyword : Text.dropEndWhile isEnding (kind.keyword ++ rest) = kind.keyword := by
      rw [dropEndWhile_append_of_nil hnil]
      cases kind <;> decide
    rw [hkeyword, hnil, List.drop_length]
  · rw [Text.dropEndWhile_append hnil, List.drop_left]

/-- What the import of a line is read as. -/
inductive ImportRead (line : Line) (kind : ImportKind) (path : Text) :
    Except ParseError Node → Prop where
  | ok {paths : List PathExpr} : Lists path paths → ImportRead line kind path
      (.ok (.request kind paths ⟨line.number, line.indent + 1⟩ line.indent))
  | error {e : ParseError} : (¬ ∃ paths, Lists path paths) → e.position.line = line.number →
      line.indent < e.position.column →
      e.position.column ≤ line.indent + line.content.length + 1 →
      ImportRead line kind path (.error e)

theorem importRead_readImport (h : line.content = kind.keyword ++ rest) :
    ImportRead line kind (Text.dropEndWhile isEnding rest) (readImport line kind) := by
  have hlength := congrArg List.length h
  have hkept := (Text.dropEndWhile_isPrefix (p := isEnding) rest).length_le
  have hskip := takes_skipBlanks ⟨kind.keyword.length, Text.dropEndWhile isEnding rest⟩
  have hlists : ∀ paths, Lists _ paths ↔ Lists (Text.dropEndWhile isEnding rest) paths :=
    fun _ => lists_skipBlanks_iff (c := ⟨kind.keyword.length, Text.dropEndWhile isEnding rest⟩)
  rw [List.length_append] at hlength
  simp only [readImport, h, drop_keyword]
  generalize Cursor.skipBlanks ⟨kind.keyword.length, Text.dropEndWhile isEnding rest⟩ = cursor
    at hskip hlists ⊢
  obtain ⟨blanks, -, hskip⟩ := hskip
  split
  · refine .error ?_ rfl (Nat.lt_succ_self _) (by simp [Line.error])
    rintro ⟨paths, hpaths⟩
    exact not_lists_nil paths ((hlists paths).2 hpaths)
  · have hlist := outcome_readList cursor
    have hiff : ∀ es, readList cursor = .ok es ↔ Lists cursor.rest es :=
      fun _ => readList_eq_ok_iff
    generalize readList cursor = read at hlist hiff
    cases hlist with
    | ok hpaths => exact .ok ((hlists _).1 hpaths)
    | error hwithin =>
      refine .error ?_ rfl ?_ ?_
      · rintro ⟨paths, hpaths⟩
        cases (hiff paths).2 ((hlists paths).2 hpaths)
      · simp only [Line.error]
        omega
      · have hoffset : cursor.offset = kind.keyword.length + blanks.length := hskip.offset
        have hrest : (Text.dropEndWhile isEnding rest).length =
          blanks.length + cursor.rest.length := hskip.length
        have hfault := hwithin.2
        simp only [Line.error]
        omega

/-! ## The first fault -/

def failure? {α : Type} : Except ParseError α → Option ParseError
  | .ok _ => none
  | .error e => some e

/-- The error of reading the import of a line, if the line is one. -/
def Line.fault? (line : Line) : Option ParseError :=
  (importKind? line.content).bind fun kind => failure? (readImport line kind)

theorem findSome?_block (rest : List Line) :
    rest.findSome? Line.fault? =
      ((rest.takeWhile fun next => decide (firstIndent rest ≤ next.indent)).findSome?
        Line.fault?).or
      ((rest.dropWhile fun next => decide (firstIndent rest ≤ next.indent)).findSome?
        Line.fault?) := by
  rw [← List.findSome?_append, List.takeWhile_append_dropWhile]

theorem failure?_nodesOf (lines : List Line) :
    failure? (nodesOf lines) = lines.findSome? Line.fault? := by
  induction lines using nodesOf.induct with
  | case1 => simp [nodesOf, failure?]
  | case2 line rest kind hkind e hread =>
    simp [nodesOf, hkind, hread, failure?, Line.fault?]
  | case3 line rest kind hkind node hread e hrest ih =>
    simp [nodesOf, hkind, hread, hrest, failure?, Line.fault?, ← ih]
  | case4 line rest kind hkind node hread more hrest ih =>
    simp [nodesOf, hkind, hread, hrest, failure?, Line.fault?, ← ih]
  | case5 line rest hkind hdeeper e hinner ihInner =>
    have hrest := findSome?_block rest
    rw [← ihInner, hinner] at hrest
    simp [nodesOf, hkind, hdeeper, hinner, failure?, Line.fault?, hrest]
  | case6 line rest hkind hdeeper inner hinner e hafter ihInner ih =>
    have hrest := findSome?_block rest
    rw [← ihInner, hinner, ← ih, hafter] at hrest
    simp [nodesOf, hkind, hdeeper, hinner, hafter, failure?, Line.fault?, hrest]
  | case7 line rest hkind hdeeper inner hinner more hafter ihInner ih =>
    have hrest := findSome?_block rest
    rw [← ihInner, hinner, ← ih, hafter] at hrest
    simp [nodesOf, hkind, hdeeper, hinner, hafter, failure?, Line.fault?, hrest]
  | case8 line rest hkind hflat e hrest ih =>
    simp [nodesOf, hkind, hflat, hrest, failure?, Line.fault?, ← ih]
  | case9 line rest hkind hflat more hrest ih =>
    simp [nodesOf, hkind, hflat, hrest, failure?, Line.fault?, ← ih]

/-! ## Rows -/

/-- The error that a row makes as the row of a number. -/
def rowFault? (number : Nat) (row : Text) : Option ParseError :=
  (lineOf? number row).bind Line.fault?

theorem importKind?_keyword (kind : ImportKind) (hends : endsKeyword rest = true) :
    importKind? (kind.keyword ++ rest) = some kind := by
  have hstarts : kind.keyword.isPrefixOf? (kind.keyword ++ rest) = some rest :=
    List.isPrefixOf?_eq_some_iff_append_eq.2 rfl
  cases kind with
  | always => simp [importKind?, hstarts, hends]
  | once =>
    have hother : ImportKind.always.keyword.isPrefixOf? (ImportKind.once.keyword ++ rest) =
        none := rfl
    simp [importKind?, hother, hstarts, hends]

/-- A row that starts an import is malformed if its path is no list. -/
theorem isMalformed_iff (hrow : Text.trim row = kind.keyword ++ rest)
    (hends : endsKeyword rest = true) :
    IsMalformed row ↔ ¬ ∃ paths, Lists (Text.dropEndWhile isEnding rest) paths := by
  constructor
  · rintro ⟨kind', rest', hrow', hends', hnone⟩
    have hkind := importKind?_keyword kind' hends'
    rw [← hrow', hrow, importKind?_keyword kind hends] at hkind
    cases hkind
    rw [hrow, List.append_cancel_left_eq] at hrow'
    rwa [hrow']
  · exact fun hnone => ⟨kind, rest, hrow, hends, hnone⟩

theorem not_isMalformed_of_blank (h : row.all Text.isBlank = true) : ¬ IsMalformed row := by
  rintro ⟨kind, rest, hrow, -⟩
  rw [Text.trim, Text.trimEnd, Text.dropEndWhile_of_all h] at hrow
  cases kind <;> cases hrow

/-- A row makes an error if it is malformed, and that error lies on it. -/
inductive RowFault (number : Nat) (row : Text) : Option ParseError → Prop where
  | none : ¬ IsMalformed row → RowFault number row none
  | some {e : ParseError} : IsMalformed row → e.position.line = number →
      (row.takeWhile Text.isBlank).length < e.position.column →
      e.position.column ≤ (Text.trimEnd row).length + 1 → RowFault number row (some e)

theorem rowFault (number : Nat) (row : Text) : RowFault number row (rowFault? number row) := by
  rw [rowFault?, lineOf?_eq]
  split
  case isTrue hblank => exact .none (not_isMalformed_of_blank hblank)
  case isFalse hblank =>
    rw [Option.bind_some, Line.fault?]
    cases hkind : importKind? (Text.trim row) with
    | none =>
      refine .none ?_
      rintro ⟨kind, rest, hrow, hends, -⟩
      exact importKind?_eq_none_iff.1 hkind ⟨kind, rest, hrow, hends⟩
    | some kind =>
      obtain ⟨rest, hrow, hends⟩ := exists_rest_of_importKind? hkind
      have hread : ImportRead ⟨number, (row.takeWhile Text.isBlank).length, Text.trim row⟩ kind
          _ _ :=
        importRead_readImport hrow
      rw [Option.bind_some]
      generalize readImport _ kind = read at hread
      cases hread with
      | ok hpaths =>
        exact .none fun hmalformed => (isMalformed_iff hrow hends).1 hmalformed ⟨_, hpaths⟩
      | error hnone hline hfirst hlast =>
        refine .some ((isMalformed_iff hrow hends).2 hnone) hline hfirst ?_
        obtain ⟨blanks, kept, _, htrims⟩ := Text.exists_trims hblank
        simp only [htrims.takeWhile, htrims.whole] at hlast
        rwa [htrims.atEnd, List.length_append]

theorem findSome?_numberLines_cons (number : Nat) (row : Text) (rows : List Text) :
    (numberLines number (row :: rows)).findSome? Line.fault? =
      (rowFault? number row).or ((numberLines (number + 1) rows).findSome? Line.fault?) := by
  rw [numberLines, rowFault?]
  cases lineOf? number row with
  | none => simp
  | some line => cases hfault : line.fault? <;> simp [hfault]

/-- The first error of some rows is that of their first malformed row. -/
theorem exists_first_malformed {number : Nat} {rows : List Text}
    (h : (numberLines number rows).findSome? Line.fault? = some e) :
    ∃ before row after, rows = before ++ row :: after ∧
      (∀ earlier ∈ before, ¬ IsMalformed earlier) ∧
      rowFault? (number + before.length) row = some e := by
  induction rows generalizing number with
  | nil => simp [numberLines] at h
  | cons row rows ih =>
    rw [findSome?_numberLines_cons] at h
    have hfault := rowFault number row
    cases hrow : rowFault? number row with
    | some e' =>
      rw [hrow, Option.some_or, Option.some.injEq] at h
      exact ⟨[], row, rows, rfl, by simp, by simpa [h] using hrow⟩
    | none =>
      rw [hrow] at h hfault
      cases hfault with
      | none hnot =>
        obtain ⟨before, first, after, rfl, hbefore, hfirst⟩ := ih h
        refine ⟨row :: before, first, after, rfl, List.forall_mem_cons.2 ⟨hnot, hbefore⟩, ?_⟩
        rwa [List.length_cons, Nat.add_comm before.length, ← Nat.add_assoc]

theorem exists_fault_of_malformed {number : Nat} {rows : List Text} (hrow : row ∈ rows)
    (h : IsMalformed row) : ∃ e, (numberLines number rows).findSome? Line.fault? = some e := by
  induction rows generalizing number with
  | nil => cases hrow
  | cons first rows ih =>
    rw [findSome?_numberLines_cons]
    cases hfirst : rowFault? number first with
    | some e => exact ⟨e, rfl⟩
    | none =>
      rcases List.mem_cons.1 hrow with rfl | hrow
      · have hfault := rowFault number row
        rw [hfirst] at hfault
        cases hfault with
        | none hnot => exact absurd h hnot
      · exact ih hrow

theorem parse_eq_error_iff {source : Text} :
    parse source = .error e ↔
      (numberLines 1 (Text.lines (stripComments source))).findSome? Line.fault? = some e := by
  rw [← failure?_nodesOf]
  change _ ↔ failure? (parse source) = some e
  cases parse source <;> simp [failure?]

/-- The error of a source is that of its first malformed row. -/
theorem exists_malformed_of_error {source : Text} (h : parse source = .error e) :
    ∃ before row after, Text.lines (stripComments source) = before ++ row :: after ∧
      (∀ earlier ∈ before, ¬ IsMalformed earlier) ∧ IsMalformed row ∧
      rowFault? (before.length + 1) row = some e ∧
      e.position.line = before.length + 1 ∧
      (row.takeWhile Text.isBlank).length + 1 ≤ e.position.column ∧
      e.position.column ≤ (Text.trimEnd row).length + 1 := by
  obtain ⟨before, row, after, hrows, hbefore, hrow⟩ :=
    exists_first_malformed (parse_eq_error_iff.1 h)
  rw [Nat.add_comm] at hrow
  have hfault := rowFault (before.length + 1) row
  rw [hrow] at hfault
  cases hfault with
  | some hmalformed hline hcolumn hlast =>
    exact ⟨before, row, after, hrows, hbefore, hmalformed, hrow, hline, hcolumn, hlast⟩

/-- A source cannot be read exactly if some row of it, comments blanked, is malformed. The error is
then that of the first such row: it has the number of the row, and its column is not before the
first character of the row that is no blank and not behind the one after the last. -/
theorem parse_fails_iff (source : Text) :
    ((∃ e, parse source = .error e) ↔
      ∃ row ∈ Text.lines (stripComments source), IsMalformed row) ∧
    ∀ e, parse source = .error e →
      ∃ before row after, Text.lines (stripComments source) = before ++ row :: after ∧
        (∀ earlier ∈ before, ¬ IsMalformed earlier) ∧ IsMalformed row ∧
        rowFault? (before.length + 1) row = some e ∧
        e.position.line = before.length + 1 ∧
        (row.takeWhile Text.isBlank).length + 1 ≤ e.position.column ∧
        e.position.column ≤ (Text.trimEnd row).length + 1 := by
  refine ⟨⟨?_, ?_⟩, fun _ => exists_malformed_of_error⟩
  · rintro ⟨e, herror⟩
    obtain ⟨before, row, after, hrows, -, hmalformed, -⟩ := exists_malformed_of_error herror
    exact ⟨row, by simp [hrows], hmalformed⟩
  · rintro ⟨row, hrow, hmalformed⟩
    obtain ⟨e, hfault⟩ := exists_fault_of_malformed hrow hmalformed
    exact ⟨e, parse_eq_error_iff.2 hfault⟩

/-- A value that is no path, then an import below it that ends in a sum, and one more at the end. -/
def faultySource : Text := "a\n  b = 10px 20px\n    @import 'c' + ;\n@require (d\n"

theorem parse_fails_iff_nested :
    parse faultySource = .error ⟨⟨3, 18⟩, .expectedPath⟩ ∧
    (∃ row ∈ Text.lines (stripComments faultySource), IsMalformed row) ∧
    ∃ before row after, Text.lines (stripComments faultySource) = before ++ row :: after ∧
      (∀ earlier ∈ before, ¬ IsMalformed earlier) ∧ IsMalformed row ∧
      rowFault? (before.length + 1) row = some ⟨⟨3, 18⟩, .expectedPath⟩ ∧
      3 = before.length + 1 ∧ (row.takeWhile Text.isBlank).length + 1 ≤ 18 ∧
      18 ≤ (Text.trimEnd row).length + 1 := by
  have herror : parse faultySource = .error ⟨⟨3, 18⟩, .expectedPath⟩ :=
    parse_eq_error_iff.2 (by decide +kernel)
  obtain ⟨hfails, hfirst⟩ := parse_fails_iff faultySource
  exact ⟨herror, hfails.1 ⟨_, herror⟩, hfirst _ herror⟩

end StyleImports.Sheet
