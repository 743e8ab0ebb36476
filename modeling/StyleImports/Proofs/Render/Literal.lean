import StyleImports.Files.Memory
import StyleImports.Proofs.Render.Calls
import StyleImports.Proofs.Sheet.Comments
import StyleImports.Proofs.Sheet.Values

/-!
# Imports that stay as lines

An import of a URL, and one of a `.css` file that is not put in, is written as a line: the keyword
and the value of its path in quotes, with `url(…)` around it for a URL. The line is written for
another reader, and this library reads it too: on its own it is one import of the same kind and the
same value, if the value holds neither a double quote nor a backslash, and in no other case
(`Sheet.readsAs_literalRow_iff`, `Call.literal_readsAs_iff`).

That it is read so is shown from the text, which is kept as it is. That nothing else is read so is
shown by counting: comments only shorten a text, and an expression that starts as the line does has
a value that is shorter than its text by the quotes and more.
-/

set_option autoImplicit false

namespace StyleImports

namespace Sheet

variable {row rest t : Text} {kind : ImportKind} {value : Value} {nodes : List Node}

/-! ## Rows that import -/

/-- A text is read as one import of the kind, with a first path that has the value where nothing is
assigned. -/
def ReadsAs (row : Text) (kind : ImportKind) (value : Value) : Prop :=
  ∃ first more position indent,
    parse row = .ok [.request kind (first :: more) position indent] ∧ eval .empty first = value

theorem lines_of_not_mem (h : '\n' ∉ t) (hne : t ≠ []) : Text.lines t = [t] := by
  rw [Text.lines, Text.splitOn_of_not_mem h, Text.closeLines, if_neg hne]

theorem endsKeyword_front (h : t <+: rest) (hends : endsKeyword rest = true) :
    endsKeyword t = true := by
  cases t with
  | nil => rfl
  | cons c t =>
    obtain ⟨more, rfl⟩ := h
    exact hends

theorem exists_keyword_eq_cons (kind : ImportKind) : ∃ letters, kind.keyword = '@' :: letters := by
  cases kind <;> exact ⟨_, rfl⟩

theorem isBlank_of_mem_replicate (n : Nat) :
    ∀ c ∈ List.replicate n ' ', Text.isBlank c = true := by
  intro c hc
  rw [List.eq_of_mem_replicate hc]
  decide

theorem trim_keyword (n : Nat) (kind : ImportKind) (rest : Text) :
    Text.trim (List.replicate n ' ' ++ (kind.keyword ++ rest)) =
      kind.keyword ++ Text.trimEnd rest := by
  have hkeyword : Text.trimEnd kind.keyword = kind.keyword := by cases kind <;> decide
  have hinner : Text.trimEnd (kind.keyword ++ rest) = kind.keyword ++ Text.trimEnd rest := by
    by_cases hnil : Text.trimEnd rest = []
    · rw [Text.trimEnd, dropEndWhile_append_of_nil hnil, hnil, List.append_nil]
      exact hkeyword
    · exact Text.dropEndWhile_append hnil
  obtain ⟨letters, hletters⟩ := exists_keyword_eq_cons kind
  have hne : Text.trimEnd (kind.keyword ++ rest) ≠ [] := by
    rw [hinner, hletters]
    simp
  have hend : Text.trimEnd (List.replicate n ' ' ++ (kind.keyword ++ rest)) =
      List.replicate n ' ' ++ (kind.keyword ++ Text.trimEnd rest) :=
    (Text.dropEndWhile_append hne).trans (congrArg _ hinner)
  rw [Text.trim, hend, Text.trimStart, List.dropWhile_append_of_pos (isBlank_of_mem_replicate n),
    hletters]
  rfl

/-- What a row is read as that shows an import without comments. -/
theorem parse_row_eq_ok_iff {n : Nat}
    (hshown : stripComments row = List.replicate n ' ' ++ (kind.keyword ++ rest))
    (hfeed : '\n' ∉ row) (hends : endsKeyword rest = true) :
    parse row = .ok nodes ↔ ∃ paths,
      Lists (Text.dropEndWhile isEnding (Text.trimEnd rest)) paths ∧
        nodes = [.request kind paths ⟨1, n + 1⟩ n] := by
  obtain ⟨letters, hletters⟩ := exists_keyword_eq_cons kind
  have hmem : '@' ∈ stripComments row := by simp [hshown, hletters]
  have hlines : Text.lines (stripComments row) = [stripComments row] :=
    lines_of_not_mem (not_mem_stripFrom _ hfeed) (List.ne_nil_of_mem hmem)
  have htrim : Text.trim (stripComments row) = kind.keyword ++ Text.trimEnd rest := by
    rw [hshown, trim_keyword]
  have hblank : ¬ (stripComments row).all Text.isBlank = true :=
    fun hall => absurd (List.all_eq_true.1 hall '@' hmem) (by decide)
  have hkind : importKind? (Text.trim (stripComments row)) = some kind := by
    rw [htrim]
    exact importKind?_keyword kind
      (endsKeyword_front (Text.dropEndWhile_isPrefix rest) hends)
  have hindent : ((stripComments row).takeWhile Text.isBlank).length = n := by
    have hat : Text.isBlank '@' = false := by decide
    rw [hshown, hletters, List.takeWhile_append_of_pos (isBlank_of_mem_replicate n)]
    simp [hat]
  -- The row is the only line, so it is read as the whole tree.
  have hparse : parse row = nodesOf [⟨1, n, Text.trim (stripComments row)⟩] := by
    rw [parse, linesOf, hlines, numberLines, lineOf?_eq, if_neg hblank, hindent]
    rfl
  have hread : ImportRead ⟨1, n, Text.trim (stripComments row)⟩ kind _ _ :=
    importRead_readImport htrim
  rw [hparse, nodesOf]
  simp only [hkind, nodesOf]
  generalize readImport _ kind = read at hread ⊢
  cases hread with
  | @ok paths hpaths =>
    constructor
    · intro h
      cases h
      exact ⟨paths, hpaths, rfl⟩
    · rintro ⟨paths', hpaths', rfl⟩
      have hsame := (readList_eq_ok_iff (c := ⟨0, _⟩)).2 hpaths'
      rw [(readList_eq_ok_iff (c := ⟨0, _⟩)).2 hpaths] at hsame
      cases hsame
      rfl
  | error hnone =>
    constructor
    · intro h
      cases h
    · rintro ⟨paths, hpaths, -⟩
      exact absurd ⟨paths, hpaths⟩ hnone

/-! ## Values in quotes -/

namespace Value

/-- What stands before the text of a value. -/
def opening : Value → Text
  | str _ => ['\x22']
  | url _ => ['u', 'r', 'l', '(', '\x22']

/-- What stands behind it. -/
def closing : Value → Text
  | str _ => ['\x22']
  | url _ => ['\x22', ')']

end Value

theorem all_opening (value : Value) :
    value.opening.all (fun c => !Text.isBlank c && c ≠ ',') = true ∧ value.opening ≠ [] := by
  cases value with
  | str s =>
    rw [Value.opening]
    decide
  | url u =>
    rw [Value.opening]
    decide

/-- The row that imports a value, its text as it is. -/
def literalRow (n : Nat) (kind : ImportKind) (value : Value) : Text :=
  List.replicate n ' ' ++
    (kind.keyword ++ ' ' :: (value.opening ++ (value.text ++ value.closing)))

theorem not_mem_literalRow (n : Nat) (kind : ImportKind) (h : '\n' ∉ value.text) :
    '\n' ∉ literalRow n kind value := by
  have hkeyword : '\n' ∉ kind.keyword := by cases kind <;> decide
  have hopening : '\n' ∉ value.opening := by cases value <;> simp [Value.opening]
  have hclosing : '\n' ∉ value.closing := by cases value <;> simp [Value.closing]
  simp [literalRow, hkeyword, hopening, hclosing, h]

/-! ## What is shown of a row -/

theorem stripFrom_keyword (n : Nat) (kind : ImportKind) (t : Text) :
    stripFrom (.code 0) (List.replicate n ' ' ++ (kind.keyword ++ ' ' :: t)) =
      List.replicate n ' ' ++ (kind.keyword ++ ' ' :: stripFrom (.code 0) t) := by
  let marks : Text := ['\x22', '\x27', '(', ')', '\n', '/']
  have hkeyword : (kind.keyword ++ [' ']).all (· ∉ marks) = true := by cases kind <;> decide
  have hword : ∀ c ∈ List.replicate n ' ' ++ (kind.keyword ++ [' ']), c ∉ marks := by
    intro c hc
    rcases List.mem_append.1 hc with hc | hc
    · rw [List.eq_of_mem_replicate hc]
      decide
    · exact of_decide_eq_true (List.all_eq_true.1 hkeyword c hc)
  simpa using stripFrom_append hword t

theorem exists_stripFrom_opening (value : Value) :
    ∃ depth, ∀ t, stripFrom (.code 0) (value.opening ++ t) =
      value.opening ++ stripFrom (.quoted '\x22' depth) t := by
  cases value with
  | str s =>
    refine ⟨0, fun t => ?_⟩
    rw [Value.opening, List.singleton_append, stripFrom] <;> simp
  | url u =>
    refine ⟨1, fun t => ?_⟩
    simp [Value.opening, stripFrom]

theorem escaped_eq_self {s : Text} (h : IsPlain s) : escaped s = s := by
  induction s with
  | nil => rfl
  | cons c s ih =>
    simp only [IsPlain, List.mem_cons, not_or] at h
    rw [escaped_cons_of_plain (by simp [Ne.symm h.1.1, Ne.symm h.2.1]), ih ⟨h.1.2, h.2.2⟩]

theorem stripFrom_closing (depth : Nat) (hfeed : '\n' ∉ value.text) (h : IsPlain value.text) :
    stripFrom (.quoted '\x22' depth) (value.text ++ value.closing) =
      value.text ++ value.closing := by
  obtain ⟨rest, hclosing, hrest⟩ :
      ∃ rest, value.closing = '\x22' :: rest ∧ stripFrom (.code depth) rest = rest := by
    cases value with
    | str s => exact ⟨[], rfl, by rw [stripFrom]⟩
    | url u => exact ⟨[')'], rfl, by simp [stripFrom]⟩
  have hstrip := stripFrom_escaped depth hfeed rest
  rwa [escaped_eq_self h, hrest, ← hclosing] at hstrip

/-- Comments can only stand behind the opening quote of the row, and a plain text opens none. -/
theorem exists_strip_literalRow (n : Nat) (kind : ImportKind) (value : Value) :
    ∃ tail, stripComments (literalRow n kind value) =
        List.replicate n ' ' ++ (kind.keyword ++ ' ' :: (value.opening ++ tail)) ∧
      tail.length ≤ (value.text ++ value.closing).length ∧
      ('\n' ∉ value.text → IsPlain value.text → tail = value.text ++ value.closing) := by
  obtain ⟨depth, hopening⟩ := exists_stripFrom_opening value
  refine ⟨stripFrom (.quoted '\x22' depth) (value.text ++ value.closing), ?_,
    length_stripFrom_le _ _, stripFrom_closing depth⟩
  rw [stripComments, literalRow, stripFrom_keyword, hopening]

/-! ## What is read of it -/

theorem quotes_of_isPlain {s : Text} (h : IsPlain s) : Quotes '\x22' s s := by
  induction s with
  | nil => exact .nil
  | cons c s ih =>
    simp only [IsPlain, List.mem_cons, not_or] at h
    exact .plain (Ne.symm h.1.1) (Ne.symm h.2.1) (ih ⟨h.1.2, h.2.2⟩)

theorem exists_derives_of_isPlain (h : IsPlain value.text) :
    ∃ e, Derives .sum (value.opening ++ (value.text ++ value.closing)) e ∧
      eval .empty e = value := by
  have hquotes := quotes_of_isPlain h
  cases value with
  | str s => exact ⟨.str s, .single (.quoted rfl hquotes), rfl⟩
  | url u =>
    have hword : Text.lowerAscii ['u', 'r', 'l', '('] = "url(" := rfl
    have hurl : Derives .term _ (.url u) :=
      .quotedUrl hword blanks_nil rfl hquotes blanks_nil
    exact ⟨.url u, .single (by simpa [Value.opening, Value.text, Value.closing] using hurl), rfl⟩

/-- An expression whose text starts with the opening of a value costs what the value costs in
quotes. -/
theorem costs_of_opening {e : PathExpr} (h : Derives .sum t e) (hstarts : value.opening <+: t) :
    Costs t e (value.opening.length + value.closing.length) := by
  cases value with
  | str s => exact costs_of_quote h hstarts
  | url u => exact costs_of_url h hstarts

/-- The first expression of a list starts with the characters that the list starts with, blanks
apart, as far as none of them can end it. -/
theorem exists_front_of_lists {front tail : Text} {first : PathExpr} {more : List PathExpr}
    (hfront : front.all (fun c => !Text.isBlank c && c ≠ ',') = true) (hne : front ≠ [])
    (h : Lists (' ' :: (front ++ tail)) (first :: more)) :
    ∃ t, Derives .sum t first ∧ front <+: t ∧ t.length ≤ (front ++ tail).length := by
  have hchars : ∀ c ∈ front, Text.isBlank c = false ∧ c ≠ ',' := fun c hc => by
    simpa using List.all_eq_true.1 hfront c hc
  have hblanks : ∀ {after rest : Text}, Blanks after → (∀ c ∈ rest.head?, c ∉ front) →
      ∀ c ∈ (after ++ rest).head?, c ∉ front :=
    not_mem_of_head?_blanks fun c hc => (hchars c hc).1
  obtain ⟨before, t, rest, heq, hbefore, hsum, hrest⟩ : ∃ before t rest,
      ' ' :: (front ++ tail) = before ++ (t ++ rest) ∧ Blanks before ∧ Derives .sum t first ∧
        ∀ c ∈ rest.head?, c ∉ front := by
    generalize ' ' :: (front ++ tail) = list at h
    cases h with
    | @last before t after _ hbefore hsum hafter =>
      have hend : ∀ c ∈ (after ++ []).head?, c ∉ front := hblanks hafter (by simp)
      exact ⟨before, t, after, rfl, hbefore, hsum, by rwa [List.append_nil] at hend⟩
    | @more before t after rest _ _ hbefore hsum hafter _ =>
      refine ⟨before, t, after ++ ',' :: rest, rfl, hbefore, hsum, hblanks hafter ?_⟩
      intro c hc hmem
      obtain rfl : ',' = c := by simpa using hc
      exact (hchars ',' hmem).2 rfl
  obtain ⟨c, front, rfl⟩ := List.exists_cons_of_ne_nil hne
  obtain ⟨d, t, rfl, hd⟩ := exists_cons_of_derives hsum
  -- The blank before the front is all that stands before the expression.
  match before, hbefore, heq with
  | [], _, heq =>
    obtain ⟨rfl, -⟩ := List.cons.inj heq
    cases hd
  | [_], _, heq =>
    have heq : c :: front ++ tail = d :: t ++ rest := (List.cons.inj heq).2
    refine ⟨d :: t, hsum, prefix_of_front heq.symm hrest, ?_⟩
    rw [heq, List.length_append]
    exact Nat.le_add_right _ _
  | _ :: blank :: _, hbefore, heq =>
    obtain ⟨rfl, -⟩ := List.cons.inj (List.cons.inj heq).2
    have hblank := hbefore c (by simp)
    rw [(hchars c List.mem_cons_self).1] at hblank
    cases hblank

theorem exists_dropEndWhile_append {p : Char → Bool} {c : Char} (h : p c = false)
    (front rest : Text) : ∃ kept,
      Text.dropEndWhile p (front ++ c :: rest) = front ++ c :: kept ∧
        kept.length ≤ rest.length := by
  obtain ⟨kept, hkept⟩ := Text.exists_dropEndWhile_cons (t := rest) h
  refine ⟨kept, by rw [Text.dropEndWhile_append (by simp [hkept]), hkept], ?_⟩
  have hlength := (Text.dropEndWhile_isPrefix (p := p) (c :: rest)).length_le
  rw [hkept, List.length_cons, List.length_cons] at hlength
  omega

/-- Behind the keyword only what follows the opening can be cut off at the end. -/
theorem exists_dropEndWhile_opening (value : Value) (tail : Text) : ∃ kept,
    Text.dropEndWhile isEnding (Text.trimEnd (' ' :: (value.opening ++ tail))) =
      ' ' :: (value.opening ++ kept) ∧ kept.length ≤ tail.length := by
  obtain ⟨front, hfront⟩ : ∃ front, ' ' :: value.opening = front ++ ['\x22'] := by
    cases value with
    | str s => exact ⟨[' '], rfl⟩
    | url u => exact ⟨[' ', 'u', 'r', 'l', '('], rfl⟩
  have happend : ∀ t, ' ' :: (value.opening ++ t) = front ++ '\x22' :: t := by
    intro t
    rw [← List.cons_append, hfront, List.append_assoc, List.singleton_append]
  obtain ⟨kept, htrim, hkept⟩ :=
    exists_dropEndWhile_append (p := Text.isBlank) (c := '\x22') (by decide) front tail
  obtain ⟨kept', hcut, hkept'⟩ :=
    exists_dropEndWhile_append (p := isEnding) (c := '\x22') (by decide) front kept
  refine ⟨kept', ?_, hkept'.trans hkept⟩
  rw [happend, Text.trimEnd, htrim, hcut, happend]

theorem dropEndWhile_closing (front : Text) (value : Value) :
    Text.dropEndWhile isEnding (Text.trimEnd (front ++ value.closing)) =
      front ++ value.closing := by
  obtain ⟨inner, last, hclosing, hblank, hending⟩ : ∃ inner last,
      value.closing = inner ++ [last] ∧ Text.isBlank last = false ∧ isEnding last = false := by
    cases value with
    | str s => exact ⟨[], '\x22', rfl, by decide, by decide⟩
    | url u => exact ⟨['\x22'], ')', rfl, by decide, by decide⟩
  rw [hclosing, ← List.append_assoc, Text.trimEnd, Text.dropEndWhile_append_singleton _ hblank,
    Text.dropEndWhile_append_singleton _ hending]

/-- The row that imports a value is read as such exactly if the value is plain. -/
theorem readsAs_literalRow_iff (n : Nat) (kind : ImportKind) (hfeed : '\n' ∉ value.text) :
    ReadsAs (literalRow n kind value) kind value ↔ IsPlain value.text := by
  obtain ⟨tail, hshown, hlength, hplain⟩ := exists_strip_literalRow n kind value
  have hparse := fun nodes : List Node =>
    (parse_row_eq_ok_iff hshown (not_mem_literalRow n kind hfeed) rfl :
      parse (literalRow n kind value) = .ok nodes ↔ _)
  constructor
  · rintro ⟨first, more, position, indent, hread, rfl⟩
    obtain ⟨paths, hlists, hnodes⟩ := (hparse _).1 hread
    obtain ⟨rfl, -, -⟩ : first :: more = paths ∧ position = ⟨1, n + 1⟩ ∧ indent = n := by
      simpa using hnodes
    obtain ⟨kept, hcut, hkept⟩ := exists_dropEndWhile_opening (eval .empty first) tail
    rw [hcut] at hlists
    obtain ⟨hchars, hne⟩ := all_opening (eval .empty first)
    obtain ⟨t, hsum, hstarts, ht⟩ := exists_front_of_lists hchars hne hlists
    refine (costs_of_opening hsum hstarts).plain ?_
    rw [List.length_append] at ht hlength
    omega
  · intro h
    obtain ⟨e, hsum, heval⟩ := exists_derives_of_isPlain h
    refine ⟨e, [], ⟨1, n + 1⟩, n, (hparse _).2 ⟨[e], ?_, rfl⟩, heval⟩
    have hwhole := dropEndWhile_closing (' ' :: (value.opening ++ value.text)) value
    rw [hplain hfeed h]
    simp only [List.cons_append, List.append_assoc] at hwhole
    rw [hwhole]
    have hlist : Lists ([' '] ++ (_ ++ [])) [e] := .last (by simp [Blanks]; decide) hsum blanks_nil
    simpa using hlist

end Sheet

/-! ## Rows of a render -/

namespace Renderer

variable {r : Renderer} {urls : Option UrlRebaser} {file : Path} {kind : ImportKind}
  {position : Position} {path : Option Sheet.Value} {line : Text}

/-- An import that stays as a line is written with its value as it is. -/
theorem literal_of_place (h : r.place file kind position path = .ok (.literal line)) (n : Nat) :
    ∃ value, path = some value ∧
      List.replicate n ' ' ++ line = Sheet.literalRow n kind value := by
  match path with
  | none => cases h
  | some (.str []) => cases h
  | some (.url url) =>
    cases h
    exact ⟨.url url, rfl, by simp [Sheet.literalRow, Sheet.Value.opening, Sheet.Value.text,
      Sheet.Value.closing]⟩
  | some (.str (first :: rest)) =>
    simp only [place] at h
    split at h
    · cases h
      exact ⟨.str (first :: rest), rfl, by simp [Sheet.literalRow, Sheet.Value.opening,
        Sheet.Value.text, Sheet.Value.closing]⟩
    · cases htargets : r.targets file kind position (first :: rest) <;> rw [htargets] at h <;>
        cases h

namespace Call

variable {c : Call} {indent : Nat} {out : Rendered}

theorem comesTo_of_steps (before after : List Sheet.Step) {step : Sheet.Step}
    (hsteps : (Sheet.parse c.text).toOption.map (Sheet.stepsOf .empty) =
      some (before ++ step :: after))
    (hbefore : before.foldlM (c.step r urls) c.out = .ok out) : c.ComesTo r urls step out := by
  cases hparse : Sheet.parse c.text with
  | error e => simp [hparse, Except.toOption] at hsteps
  | ok nodes =>
    refine ⟨nodes, before, after, hparse, ?_, hbefore⟩
    simpa [hparse, Except.toOption] using hsteps

/-- Where a call comes to an import that stays as a line, it writes a row that is read on its own as
one import of the same kind and the same value, if the value holds neither a double quote nor a
backslash, and in no other case. -/
theorem literal_readsAs_iff (hcomes : c.ComesTo r urls (.request kind position indent path) out)
    (hplace : r.place c.file kind position path = .ok (.literal line)) :
    ∃ value row, path = some value ∧
      c.step r urls out (.request kind position indent path) =
        .ok ⟨out.lines ++ [row], out.imports⟩ ∧
      (Sheet.ReadsAs row kind value ↔ '\x22' ∉ value.text ∧ '\\' ∉ value.text) := by
  obtain ⟨value, rfl, hrow⟩ := literal_of_place hplace (c.base + indent)
  obtain ⟨nodes, before, after, hparse, hsteps, -⟩ := hcomes
  have hmem : .request kind position indent (some value) ∈ Sheet.stepsOf .empty nodes := by
    simp [hsteps]
  have hfeed := Sheet.not_mem_of_request hparse hmem
  refine ⟨value, Sheet.literalRow (c.base + indent) kind value, rfl, ?_,
    Sheet.readsAs_literalRow_iff _ _ hfeed⟩
  rw [step, hplace, ← hrow]
  rfl

/-- A stylesheet whose import of a `.css` file is put together from a quoted text and a word. -/
def joinedText : Text := "a = \"it's \"\n@require a + b.css\n"

def plain : Renderer := ⟨(Memory.empty ⟨"/p"⟩).fileSystem, [], false, none, none⟩

/-- The call that puts the stylesheet in at an indentation of two spaces. -/
def joinedCall : Call := ⟨0, [⟨"/p/main.styl"⟩], ⟨"/p/c.styl"⟩, joinedText, 2, .empty⟩

theorem literal_readsAs_iff_joined :
    let out : Rendered := ⟨["  a = \"it's \""].map String.toList, []⟩
    let step : Sheet.Step := .request .once ⟨2, 1⟩ 0 (some (.str "it's b.css"))
    joinedCall.ComesTo plain none step out ∧
    plain.place joinedCall.file .once ⟨2, 1⟩ (some (.str "it's b.css")) =
      .ok (.literal "@require \"it's b.css\"") ∧
    joinedCall.step plain none out step =
      .ok ⟨["  a = \"it's \"", "  @require \"it's b.css\""].map String.toList, []⟩ ∧
    Sheet.ReadsAs "  @require \"it's b.css\"" .once (.str "it's b.css") := by
  intro out step
  have hcomes : joinedCall.ComesTo plain none step out := by
    refine comesTo_of_steps [.line 0 "a = \"it's \""] [] ?_ ?_
    · decide +kernel
    · decide +kernel
  have hplace : plain.place joinedCall.file .once ⟨2, 1⟩ (some (.str "it's b.css")) =
      .ok (.literal "@require \"it's b.css\"") := by decide +kernel
  have hstep : joinedCall.step plain none out step =
      .ok ⟨["  a = \"it's \"", "  @require \"it's b.css\""].map String.toList, []⟩ := by
    decide +kernel
  obtain ⟨value, row, hvalue, hrow, hreads⟩ := literal_readsAs_iff hcomes hplace
  cases hvalue
  rw [hstep, Except.ok.injEq, Rendered.mk.injEq] at hrow
  obtain rfl : row = "  @require \"it's b.css\"".toList := by simpa [out] using hrow.1.symm
  exact ⟨hcomes, hplace, hstep, hreads.2 (by decide)⟩

/-- A quoted text that holds a double quote. -/
def quotedText : Text := "@import 'a\"b.css'\n"

/-- The import is left as a line that cannot be read. -/
theorem not_literal_readsAs_of_quote :
    let step : Sheet.Step := .request .always ⟨1, 1⟩ 0 (some (.str "a\"b.css"))
    (plain.start ⟨"/p/main.styl"⟩ quotedText).ComesTo plain none step .empty ∧
    plain.render ⟨"/p/main.styl"⟩ quotedText = .ok ⟨["@import \"a\"b.css\"".toList], []⟩ ∧
    (∃ e, Sheet.parse "@import \"a\"b.css\"" = .error e) ∧
    ¬ Sheet.ReadsAs "@import \"a\"b.css\"" .always (.str "a\"b.css") := by
  intro step
  have herror : ∃ e, Sheet.parse "@import \"a\"b.css\"" = .error e := by
    have hfails : (Sheet.parse "@import \"a\"b.css\"").isOk = false := by decide +kernel
    cases hparse : Sheet.parse "@import \"a\"b.css\"" with
    | error e => exact ⟨e, rfl⟩
    | ok nodes =>
      rw [hparse] at hfails
      cases hfails
  refine ⟨comesTo_of_steps [] [] ?_ rfl, ?_, herror, ?_⟩
  · decide +kernel
  · decide +kernel
  · rintro ⟨first, more, position, indent, hparse, -⟩
    obtain ⟨e, herror⟩ := herror
    rw [herror] at hparse
    cases hparse

end Call

end Renderer

end StyleImports
