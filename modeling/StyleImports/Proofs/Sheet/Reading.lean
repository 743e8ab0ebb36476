import StyleImports.Proofs.Sheet.Grammar
import StyleImports.Proofs.Sheet.Quoted

/-!
# Reading what the grammar derives

A text that a rule derives is read as the expression that it stands for, if no word goes on behind
it (`reads_of_derives`); twice its length is as many steps as it needs. So the reader of lists
accepts exactly the lists of the grammar (`readList_eq_ok_iff`), and reads a printed list back
(`readList_iff_lists`).
-/

set_option autoImplicit false

namespace StyleImports

namespace Sheet

variable {c c' c'' : Cursor} {t u rest : Text} {rule : Rule} {e : PathExpr}

/-! ## Characters -/

theorem isBlank_eq_false_of_isWordPart {c : Char} (h : isWordPart c = true) :
    Text.isBlank c = false := by
  simp only [isWordPart, Bool.and_eq_true, Bool.not_eq_true'] at h
  exact h.1.1.1.1.1

theorem isQuote_eq_false_of_isWordPart {c : Char} (h : isWordPart c = true) :
    isQuote c = false := by
  simp only [isWordPart, Bool.and_eq_true, Bool.not_eq_true'] at h
  exact h.1.1.1.1.2

theorem eq_of_isQuote {c : Char} (h : isQuote c = true) : c = '\x22' ∨ c = '\x27' := by
  simpa [isQuote] using h

theorem isBlank_eq_false_of_isQuote {c : Char} (h : isQuote c = true) :
    Text.isBlank c = false := by
  rcases eq_of_isQuote h with rfl | rfl <;> decide

theorem isBlank_eq_false_of_isAlpha {c : Char} (h : c.isAlpha = true) :
    Text.isBlank c = false := by
  rw [Text.isAlpha_iff] at h
  simp only [Text.isBlank, Bool.or_eq_false_iff, Bool.and_eq_false_iff, decide_eq_false_iff_not]
  omega

theorem isWordPart_of_isAlpha {c : Char} (h : c.isAlpha = true) : isWordPart c = true := by
  have hne : ∀ d : Char, d.isAlpha = false → c ≠ d := by
    rintro d hd rfl
    rw [h] at hd
    cases hd
  simp [isWordPart, isQuote, isBlank_eq_false_of_isAlpha h, hne]

theorem exists_letters_of_lowerAscii {word : Text} (h : Text.lowerAscii word = "url(") :
    ∃ a b d : Char, word = [a, b, d, '('] ∧ a.isAlpha = true ∧ b.isAlpha = true ∧
      d.isAlpha = true := by
  match word with
  | [] | [_] | [_, _] | [_, _, _] | _ :: _ :: _ :: _ :: _ :: _ => simp [Text.lowerAscii] at h
  | [a, b, d, paren] =>
    simp only [Text.lowerAscii, List.map_cons, List.map_nil] at h
    change [a.toLower, b.toLower, d.toLower, paren.toLower] = ['u', 'r', 'l', '('] at h
    simp only [List.cons.injEq, and_true] at h
    obtain ⟨ha, hb, hd, hparen⟩ := h
    exact ⟨a, b, d, by rw [Text.eq_of_toLower hparen (by decide)],
      Text.isAlpha_of_toLower ha (by decide), Text.isAlpha_of_toLower hb (by decide),
      Text.isAlpha_of_toLower hd (by decide)⟩

/-! ## What follows -/

/-- Nothing follows a term, or a character that neither goes on with a word nor opens anything. -/
def Follows (rest : Text) : Prop := ∀ c ∈ rest.head?, isWordPart c = false ∧ c ≠ '('

theorem follows_of_blank {first : Char} (h : Text.isBlank first = true) (rest : Text) :
    Follows (first :: rest) := by
  intro c hc
  cases hc
  refine ⟨by simp [isWordPart, h], ?_⟩
  rintro rfl
  revert h
  decide

theorem follows_blanks {blanks : Text} (hblanks : Blanks blanks) (hrest : Follows rest) :
    Follows (blanks ++ rest) := by
  cases blanks with
  | nil => exact hrest
  | cons first blanks => exact follows_of_blank (hblanks first List.mem_cons_self) _

theorem follows_cons {next : Char} (hnext : isWordPart next = false ∧ next ≠ '(') (rest : Text) :
    Follows (next :: rest) := by
  intro c hc
  cases hc
  exact hnext

theorem exists_cons_of_derives (h : Derives rule t e) :
    ∃ first more, t = first :: more ∧ Text.isBlank first = false := by
  induction h with
  | quoted hquote => exact ⟨_, _, rfl, isBlank_eq_false_of_isQuote hquote⟩
  | group => exact ⟨_, _, rfl, by decide⟩
  | quotedUrl hword | rawUrl hword =>
    obtain ⟨a, b, d, rfl, ha, -⟩ := exists_letters_of_lowerAscii hword
    exact ⟨a, _, rfl, isBlank_eq_false_of_isAlpha ha⟩
  | word hname hparts =>
    obtain ⟨first, more, rfl⟩ := List.exists_cons_of_ne_nil hname
    exact ⟨first, more, rfl, isBlank_eq_false_of_isWordPart (hparts first List.mem_cons_self)⟩
  | single _ ih => exact ih
  | add _ _ _ _ ih =>
    obtain ⟨first, more, rfl, hfirst⟩ := ih
    exact ⟨first, _, rfl, hfirst⟩

/-! ## Cursors -/

theorem Takes.split (h : Takes c (t ++ u) c'') : ∃ c', Takes c t c' ∧ Takes c' u c'' := by
  refine ⟨⟨c.offset + t.length, u ++ c''.rest⟩, ⟨?_, rfl⟩, ⟨rfl, ?_⟩⟩
  · rw [h.rest, List.append_assoc]
  · rw [h.offset, List.length_append, Nat.add_assoc]

theorem Takes.length (h : Takes c t c') : c.rest.length = t.length + c'.rest.length := by
  rw [h.rest, List.length_append]

theorem Takes.eq_advance (h : Takes c t c') : c.advance t.length = c' := by
  obtain ⟨offset, rest⟩ := c'
  rw [Cursor.advance, h.rest, List.drop_left, ← h.offset]

theorem Takes.exists_eq (h : Takes c t c') :
    ∃ offset rest, c = ⟨offset, t ++ rest⟩ ∧ c' = ⟨offset + t.length, rest⟩ := by
  refine ⟨c.offset, c'.rest, ?_, ?_⟩
  · rw [← h.rest]
  · rw [← h.offset]

theorem Takes.eq_cons {first : Char} (h : Takes c [first] c') :
    c = ⟨c.offset, first :: c'.rest⟩ ∧ c' = ⟨c.offset + 1, c'.rest⟩ := by
  obtain ⟨offset, rest, rfl, rfl⟩ := h.exists_eq
  exact ⟨rfl, rfl⟩

theorem Takes.skipBlanks_eq (h : Takes c t c') (hblanks : Blanks t)
    (hrest : ∀ first ∈ c'.rest.head?, Text.isBlank first = false) : c.skipBlanks = c' := by
  rw [Cursor.skipBlanks, h.rest, (Text.takeWhile_append_stop hblanks hrest).1, h.eq_advance]

theorem Takes.skipBlanks_of_derives (h : Takes c t c') (hblanks : Blanks t)
    (hterm : Takes c' u c'') (hderives : Derives rule u e) : c.skipBlanks = c' := by
  obtain ⟨first, more, rfl, hfirst⟩ := exists_cons_of_derives hderives
  refine h.skipBlanks_eq hblanks fun next hnext => ?_
  rw [hterm.rest] at hnext
  cases hnext
  exact hfirst

theorem Takes.skipBlanks_cons {first : Char} (h : Takes c (t ++ [first]) c') (hblanks : Blanks t)
    (hfirst : Text.isBlank first = false) :
    c.skipBlanks = ⟨c.offset + t.length, first :: c'.rest⟩ ∧
      c' = ⟨c.offset + t.length + 1, c'.rest⟩ := by
  obtain ⟨middle, hskip, htakes⟩ := h.split
  obtain ⟨hcons, hnext⟩ := htakes.eq_cons
  rw [hskip.offset] at hcons hnext
  refine ⟨?_, hnext⟩
  rw [← hcons]
  refine hskip.skipBlanks_eq hblanks fun next hmem => ?_
  rw [hcons] at hmem
  cases hmem
  exact hfirst

/-! ## Terms -/

theorem readQuoted_of_quotes {quote : Char} {body s : Text} (h : Quotes quote body s)
    (hquote : quote ≠ '\\') (offset : Nat) (rest : Text) :
    readQuoted quote offset (body ++ quote :: rest) =
      some (s, ⟨offset + body.length + 1, rest⟩) := by
  induction h generalizing offset with
  | nil =>
    rw [List.nil_append, readQuoted, if_pos rfl]
    · rfl
    · simp [hquote]
    · simp [hquote]
  | @plain first body s hne hplain _ ih =>
    rw [List.cons_append, readQuoted, if_neg hne, ih]
    · simp only [Option.map_some, List.length_cons]
      congr 3
      omega
    · simp [hplain]
    · simp [hplain]
  | @escaped first body s _ ih =>
    rw [List.cons_append, List.cons_append, readQuoted, ih]
    simp only [Option.map_some, List.length_cons]
    congr 3
    omega

theorem readString_of_isString {s : Text} (h : Takes c t c') (hstring : IsString t s) :
    readString c = .ok (s, c') := by
  obtain ⟨quote, body, rfl, hquote, hquotes⟩ := hstring
  have hne : quote ≠ '\\' := by rcases eq_of_isQuote hquote with rfl | rfl <;> decide
  obtain ⟨offset, rest, rfl, rfl⟩ := h.exists_eq
  have hread := readQuoted_of_quotes hquotes hne (offset + 1) rest
  simp only [readString, List.cons_append, List.append_assoc, List.nil_append, hread,
    List.length_cons, List.length_append, List.length_nil]
  congr 3
  omega

theorem startsUrl_append {word : Text} (h : Text.lowerAscii word = "url(") (rest : Text) :
    startsUrl (word ++ rest) = true := by
  obtain ⟨a, b, d, rfl, -⟩ := exists_letters_of_lowerAscii h
  exact decide_eq_true h

theorem Takes.advance_word {word : Text} (h : Takes c word c')
    (hword : Text.lowerAscii word = "url(") : c.advance 4 = c' := by
  obtain ⟨a, b, d, rfl, -⟩ := exists_letters_of_lowerAscii hword
  exact h.eq_advance

theorem readUrl_of_quoted {word before string s after : Text}
    (hword : Text.lowerAscii word = "url(") (hbefore : Blanks before) (hstring : IsString string s)
    (hafter : Blanks after)
    (h : Takes c (word ++ (before ++ (string ++ (after ++ [')'])))) c') :
    readUrl c = .ok (.url s, c') := by
  obtain ⟨c₁, hopen, h⟩ := h.split
  obtain ⟨c₂, hskip, h⟩ := h.split
  obtain ⟨c₃, hinside, hclose⟩ := h.split
  obtain ⟨hparen, hend⟩ := hclose.skipBlanks_cons hafter (by decide)
  have hread := readString_of_isString hinside hstring
  obtain ⟨quote, body, rfl, hquote, -⟩ := hstring
  have hfirst : c₂.rest.head? = some quote := by rw [hinside.rest]; rfl
  have hblanks := hskip.skipBlanks_eq hbefore fun first hmem => by
    rw [hfirst] at hmem
    cases hmem
    exact isBlank_eq_false_of_isQuote hquote
  simp only [readUrl, hopen.advance_word hword, hblanks, hfirst, Option.map_some, hquote,
    Option.getD_some, if_true, hread, hparen]
  rw [← hend]

theorem readUrl_of_raw {word before raw : Text} (hword : Text.lowerAscii word = "url(")
    (hbefore : Blanks before) (hraw : ∀ c ∈ raw.head?, Text.isBlank c = false ∧ isQuote c = false)
    (hnone : ')' ∉ raw) (h : Takes c (word ++ (before ++ (raw ++ [')']))) c') :
    readUrl c = .ok (.url (Text.trim raw), c') := by
  obtain ⟨c₁, hopen, h⟩ := h.split
  obtain ⟨c₂, hskip, h⟩ := h.split
  obtain ⟨c₃, hinside, hclose⟩ := h.split
  obtain ⟨hparen, hend⟩ := hclose.skipBlanks_cons (t := []) blanks_nil (by decide)
  have hfirst : ∀ first ∈ c₂.rest.head?, Text.isBlank first = false ∧ isQuote first = false := by
    intro first hmem
    rw [hinside.rest, hclose.rest] at hmem
    cases raw with
    | nil =>
      cases hmem
      decide
    | cons next raw => exact hraw first hmem
  have hblanks := hskip.skipBlanks_eq hbefore fun first hmem => (hfirst first hmem).1
  have hquote : (c₂.rest.head?.map isQuote).getD false = false := by
    cases hcons : c₂.rest.head? with
    | none => rfl
    | some first => exact (hfirst first hcons).2
  have htake : c₂.rest.takeWhile (· ≠ ')') = raw := by
    rw [hinside.rest, hclose.rest, List.takeWhile_append_of_pos]
    · simp
    · exact fun first hmem => decide_eq_true fun heq => hnone (heq ▸ hmem)
  simp only [readUrl, hopen.advance_word hword, hblanks, hquote, Bool.false_eq_true, if_false,
    htake, hinside.eq_advance, hparen]
  rw [← hend]

theorem takeWhile_of_follows {name : Text} (hname : ∀ c ∈ name, isWordPart c = true)
    (hrest : Follows rest) : (name ++ rest).takeWhile isWordPart = name :=
  (Text.takeWhile_append_stop hname fun next hnext => (hrest next hnext).1).1

/-- A word that ends where it ends is not the start of `url(`. -/
theorem startsUrl_of_word {name : Text} (hname : ∀ c ∈ name, isWordPart c = true)
    (hrest : Follows rest) : startsUrl (name ++ rest) = false := by
  rw [Bool.eq_false_iff]
  intro hurl
  obtain ⟨word, hword, htakes⟩ := takes_of_startsUrl (c := ⟨0, name ++ rest⟩) hurl
  obtain ⟨a, b, d, rfl, ha, hb, hd⟩ := exists_letters_of_lowerAscii hword
  obtain ⟨more, hmore⟩ : ∃ more, name ++ rest = [a, b, d, '('] ++ more := ⟨_, htakes.rest⟩
  -- The word is the three letters, so the parenthesis is what follows it.
  have hparen : isWordPart '(' = false := by decide
  have hletters : name = [a, b, d] := by
    rw [← takeWhile_of_follows hname hrest, hmore]
    simp [isWordPart_of_isAlpha, ha, hb, hd, hparen]
  rw [hletters] at hmore
  obtain rfl : rest = '(' :: more := by simpa using hmore
  exact (hrest '(' rfl).2 rfl

/-! ## Enough steps -/

/-- How a text of a rule is read as an expression, given as many steps as the text behind the
cursor may need. A sum is read as far as its last summand, and its reader goes on from there. -/
def Reads : Rule → Text → PathExpr → Prop
  | .term, t, e => ∀ c c' steps, Takes c t c' → Follows c'.rest → 2 * c.rest.length < steps →
      readTerm steps c = .ok (e, c')
  | .sum, t, e => ∀ c c' steps, Takes c t c' → Follows c'.rest → 2 * c.rest.length + 1 < steps →
      ∃ more, 2 * c'.rest.length < more ∧ readSum steps c = readSummands more e c'

theorem exists_succ_of_lt {least steps : Nat} (h : least < steps) : ∃ more, steps = more + 1 :=
  Nat.exists_eq_add_one_of_ne_zero (Nat.ne_zero_of_lt h)

/-- Where no parenthesis opens, a term is a quoted text, a URL or a word. -/
theorem readTerm_of_first {first : Char} {more : Text} (hrest : c.rest = first :: more)
    (hfirst : first ≠ '(') (steps : Nat) :
    readTerm (steps + 1) c =
      if isQuote first then (readString c).map (Prod.map .str id)
      else if startsUrl c.rest then readUrl c
      else if c.rest.takeWhile isWordPart = [] then .error (c.offset, .expectedPath)
      else .ok (.word (c.rest.takeWhile isWordPart),
        c.advance (c.rest.takeWhile isWordPart).length) := by
  rw [readTerm]
  split
  case h_1 heq => simp [heq] at hrest
  case h_2 heq => exact absurd (List.cons.inj (heq.symm.trans hrest)).1.symm hfirst
  case h_3 next rest _ heq =>
    obtain ⟨rfl, -⟩ := List.cons.inj (heq.symm.trans hrest)
    split_ifs with hquote hurl hname
    · cases readString c <;> rfl
    · rfl
    · rw [hname]
    · split
      case h_1 hnil => exact absurd hnil hname
      case h_2 => rfl

theorem reads_word {name : Text} (hnil : name ≠ []) (hname : ∀ c ∈ name, isWordPart c = true) :
    Reads .term name (.word name) := by
  intro c c' steps htakes hfollows hsteps
  obtain ⟨steps, rfl⟩ := exists_succ_of_lt hsteps
  have hurl := startsUrl_of_word hname hfollows
  have htake := takeWhile_of_follows hname hfollows
  rw [← htakes.rest] at hurl htake
  obtain ⟨first, more, rfl⟩ := List.exists_cons_of_ne_nil hnil
  have hfirst := hname first List.mem_cons_self
  have hquote := isQuote_eq_false_of_isWordPart hfirst
  have hrest : c.rest = first :: (more ++ c'.rest) := htakes.rest
  have hne : first ≠ '(' := by
    rintro rfl
    cases hfirst
  rw [readTerm_of_first hrest hne]
  simp only [hquote, hurl, htake, hnil, Bool.false_eq_true, if_false, htakes.eq_advance]

theorem reads_quoted {string s : Text} (hstring : IsString string s) :
    Reads .term string (.str s) := by
  intro c c' steps htakes _ hsteps
  obtain ⟨steps, rfl⟩ := exists_succ_of_lt hsteps
  have hread := readString_of_isString htakes hstring
  obtain ⟨quote, body, rfl, hquote, -⟩ := hstring
  have hrest : c.rest = quote :: (body ++ [quote] ++ c'.rest) := htakes.rest
  have hne : quote ≠ '(' := by
    rintro rfl
    cases hquote
  rw [readTerm_of_first hrest hne, if_pos hquote, hread]
  rfl

theorem reads_url {word inside u : Text} (hword : Text.lowerAscii word = "url(")
    (hread : ∀ c c', Takes c (word ++ inside) c' → readUrl c = .ok (.url u, c')) :
    Reads .term (word ++ inside) (.url u) := by
  intro c c' steps htakes _ hsteps
  obtain ⟨steps, rfl⟩ := exists_succ_of_lt hsteps
  have hurl := startsUrl_append hword (inside ++ c'.rest)
  rw [← List.append_assoc, ← htakes.rest] at hurl
  obtain ⟨a, b, d, rfl, ha, -⟩ := exists_letters_of_lowerAscii hword
  have hfirst := isWordPart_of_isAlpha ha
  have hrest : c.rest = a :: ([b, d, '('] ++ inside ++ c'.rest) := htakes.rest
  have hne : a ≠ '(' := by
    rintro rfl
    cases ha
  rw [readTerm_of_first hrest hne]
  simp only [isQuote_eq_false_of_isWordPart hfirst, Bool.false_eq_true, if_false, hurl, if_true,
    hread c c' htakes]

/-- The reader of summands stops in front of a character that adds nothing. -/
theorem readSummands_of_stop {steps : Nat} (hsteps : 0 < steps) (e : PathExpr)
    (hstop : ∀ first ∈ c.skipBlanks.rest.head?, first ≠ '+') :
    readSummands steps e c = .ok (e, c.skipBlanks) := by
  obtain ⟨steps, rfl⟩ := exists_succ_of_lt hsteps
  rw [readSummands]
  split
  · rename_i hplus
    rw [hplus] at hstop
    exact absurd rfl (hstop '+' rfl)
  · rfl

theorem reads_group {before t after : Text} {e : PathExpr} (hbefore : Blanks before)
    (hsum : Derives .sum t e) (hafter : Blanks after) (ih : Reads .sum t e) :
    Reads .term ('(' :: (before ++ t ++ after ++ [')'])) e := by
  intro c c' steps htakes _ hsteps
  obtain ⟨steps, rfl⟩ := exists_succ_of_lt hsteps
  have hwhole : '(' :: (before ++ t ++ after ++ [')']) =
      ['('] ++ (before ++ (t ++ (after ++ [')']))) := by simp
  rw [hwhole] at htakes
  -- The cursor behind each piece of the group.
  obtain ⟨c₁, hopen, h⟩ := htakes.split
  obtain ⟨c₂, hskip, h⟩ := h.split
  obtain ⟨c₃, hinside, hclose⟩ := h.split
  obtain ⟨hparen, hend⟩ := hclose.skipBlanks_cons hafter (by decide)
  have hfollows : Follows c₃.rest := by
    rw [hclose.rest, List.append_assoc]
    exact follows_blanks hafter (follows_cons (by decide) _)
  have hlength := hopen.length
  have hlength' := hskip.length
  rw [List.length_singleton] at hlength
  obtain ⟨more, hmore, hread⟩ := ih c₂ c₃ steps hinside hfollows (by omega)
  have hstop : ∀ first ∈ c₃.skipBlanks.rest.head?, first ≠ '+' := by
    rw [hparen]
    simp
  rw [readSummands_of_stop (Nat.zero_lt_of_lt hmore) e hstop] at hread
  have hblanks := hskip.skipBlanks_of_derives hbefore hinside hsum
  have hadvance : c.advance 1 = c₁ := hopen.eq_advance
  have hrest : c.rest = '(' :: c₁.rest := hopen.rest
  have hagain : Cursor.skipBlanks ⟨c₃.offset + after.length, ')' :: c'.rest⟩ =
      ⟨c₃.offset + after.length, ')' :: c'.rest⟩ := skipBlanks_eq_self (by simp; decide)
  rw [readTerm]
  split
  case h_1 heq => simp [heq] at hrest
  case h_2 =>
    simp only [hadvance, hblanks, hread, hparen, hagain]
    rw [← hend]
  case h_3 hne heq =>
    rw [hrest, List.cons.injEq] at heq
    exact absurd heq.1.symm hne

theorem reads_single {t : Text} {e : PathExpr} (ih : Reads .term t e) (hterm : Derives .term t e) :
    Reads .sum t e := by
  intro c c' steps htakes hfollows hsteps
  obtain ⟨steps, rfl⟩ := exists_succ_of_lt hsteps
  have hlength := htakes.length
  obtain ⟨first, more, rfl, -⟩ := exists_cons_of_derives hterm
  rw [List.length_cons] at hlength
  refine ⟨steps, by omega, ?_⟩
  rw [readSum, ih c c' steps htakes hfollows (by omega)]

theorem reads_add {t before after u : Text} {left right : PathExpr} (ihLeft : Reads .sum t left)
    (hbefore : Blanks before) (hafter : Blanks after) (hright : Derives .term u right)
    (ihRight : Reads .term u right) :
    Reads .sum (t ++ (before ++ '+' :: (after ++ u))) (.concat left right) := by
  intro c c' steps htakes hfollows hsteps
  have hwhole : before ++ '+' :: (after ++ u) = (before ++ ['+']) ++ (after ++ u) := by simp
  rw [hwhole] at htakes
  obtain ⟨c₁, hleft, h⟩ := htakes.split
  obtain ⟨c₂, hplus, h⟩ := h.split
  obtain ⟨c₃, hskip, hterm⟩ := h.split
  have hfollowsLeft : Follows c₁.rest := by
    rw [hplus.rest, List.append_assoc]
    exact follows_blanks hbefore (follows_cons (by decide) _)
  obtain ⟨more, hmore, hread⟩ := ihLeft c c₁ steps hleft hfollowsLeft hsteps
  obtain ⟨more, rfl⟩ := exists_succ_of_lt hmore
  obtain ⟨hcons, hnext⟩ := hplus.skipBlanks_cons hbefore (by decide)
  have hlengthPlus := hplus.length
  have hlengthSkip := hskip.length
  have hlengthTerm := hterm.length
  rw [List.length_append, List.length_singleton] at hlengthPlus
  refine ⟨more, by omega, ?_⟩
  have hblanks := hskip.skipBlanks_of_derives hafter hterm hright
  rw [hread, readSummands, hcons]
  simp only
  rw [← hnext, hblanks, ihRight c₃ c' more hterm hfollows (by omega)]

theorem reads_of_derives (h : Derives rule t e) : Reads rule t e := by
  induction h with
  | quoted hquote hquotes => exact reads_quoted ⟨_, _, rfl, hquote, hquotes⟩
  | group hbefore hsum hafter ih => exact reads_group hbefore hsum hafter ih
  | quotedUrl hword hbefore hquote hquotes hafter =>
    exact reads_url hword fun c c' htakes =>
      readUrl_of_quoted hword hbefore ⟨_, _, rfl, hquote, hquotes⟩ hafter htakes
  | rawUrl hword hbefore hraw hnone =>
    exact reads_url hword fun c c' htakes => readUrl_of_raw hword hbefore hraw hnone htakes
  | word hnil hname => exact reads_word hnil hname
  | single hterm ih => exact reads_single ih hterm
  | add _ hbefore hafter hright ihLeft ihRight =>
    exact reads_add ihLeft hbefore hafter hright ihRight

/-! ## Lists -/

theorem readExpr_of_derives {before : Text} (hbefore : Blanks before) (h : Derives .sum t e)
    (hskip : Takes c before c') (hsum : Takes c' t c'') (hfollows : Follows c''.rest)
    (hstop : ∀ first ∈ c''.skipBlanks.rest.head?, first ≠ '+') :
    readExpr c = .ok (e, c''.skipBlanks) := by
  have hlength := hskip.length
  obtain ⟨more, hmore, hread⟩ :=
    reads_of_derives h c' c'' (2 * c.rest.length + 2) hsum hfollows (by omega)
  rw [readExpr, hskip.skipBlanks_of_derives hbefore hsum h, hread,
    readSummands_of_stop (Nat.zero_lt_of_lt hmore) e hstop]

theorem skipBlanks_skipBlanks (c : Cursor) : c.skipBlanks.skipBlanks = c.skipBlanks :=
  skipBlanks_eq_self (not_isBlank_of_skipBlanks c)

theorem readItems_of_lists {es : List PathExpr} (h : Lists t es) {steps offset : Nat}
    (hsteps : t.length < steps) : readItems steps ⟨offset, t⟩ = .ok es := by
  induction h generalizing steps offset with
  | @last before t after e hbefore hsum hafter =>
    obtain ⟨steps, rfl⟩ := exists_succ_of_lt hsteps
    have htakes : Takes ⟨offset, before ++ (t ++ after)⟩ (before ++ (t ++ after))
      ⟨offset + (before ++ (t ++ after)).length, []⟩ := ⟨by simp, rfl⟩
    obtain ⟨c₁, hskip, h⟩ := htakes.split
    obtain ⟨c₂, hinside, hend⟩ := h.split
    have hblanks := hend.skipBlanks_eq hafter (by simp)
    have hfollows : Follows c₂.rest := by
      rw [hend.rest]
      exact follows_blanks hafter (by simp [Follows])
    have hread := readExpr_of_derives hbefore hsum hskip hinside hfollows (by simp [hblanks])
    have hagain := skipBlanks_skipBlanks c₂
    rw [hblanks] at hagain
    rw [readItems, hread]
    simp only [hblanks, hagain]
  | @more before t after rest e es hbefore hsum hafter _ ih =>
    obtain ⟨steps, rfl⟩ := exists_succ_of_lt hsteps
    have hwhole : before ++ (t ++ (after ++ ',' :: rest)) =
        before ++ (t ++ (after ++ [','])) ++ rest := by simp
    have htakes : Takes ⟨offset, before ++ (t ++ (after ++ ',' :: rest))⟩
      (before ++ (t ++ (after ++ [','])))
      ⟨offset + (before ++ (t ++ (after ++ [',']))).length, rest⟩ := ⟨hwhole, rfl⟩
    obtain ⟨c₁, hskip, h⟩ := htakes.split
    obtain ⟨c₂, hinside, hend⟩ := h.split
    obtain ⟨hcomma, hnext⟩ := hend.skipBlanks_cons hafter (by decide)
    have hfollows : Follows c₂.rest := by
      rw [hend.rest, List.append_assoc]
      exact follows_blanks hafter (follows_cons (by decide) _)
    have hread := readExpr_of_derives hbefore hsum hskip hinside hfollows (by simp [hcomma])
    have hagain := skipBlanks_skipBlanks c₂
    rw [hcomma] at hagain
    rw [readItems, hread]
    simp only [hcomma, hagain]
    rw [ih]
    simp at hsteps
    omega

/-- The reader of lists accepts exactly the lists of the grammar. -/
theorem readList_eq_ok_iff {es : List PathExpr} : readList c = .ok es ↔ Lists c.rest es := by
  constructor
  · intro h
    have houtcome := outcome_readList c
    rw [h] at houtcome
    cases houtcome with
    | ok hlists => exact hlists
  · exact fun h => readItems_of_lists h (Nat.lt_succ_self _)

/-! ## Printing -/

end Sheet

open Sheet

/-- An expression with its texts in quotes and its right operands in parentheses. -/
def PathExpr.print : PathExpr → Text
  | .str s => '\x22' :: (escaped s ++ ['\x22'])
  | .word name => name
  | .url inner => "url(" ++ '\x22' :: (escaped inner ++ "\x22)")
  | .concat left right => left.print ++ " + (" ++ right.print ++ ")"

/-- The words of an expression are words: not empty, and of characters that are not set apart. -/
def PathExpr.IsPrintable : PathExpr → Prop
  | .str _ => True
  | .word name => name ≠ [] ∧ name.all isWordPart = true
  | .url _ => True
  | .concat left right => left.IsPrintable ∧ right.IsPrintable

instance PathExpr.decidableIsPrintable : (e : PathExpr) → Decidable e.IsPrintable
  | .str _ => inferInstanceAs (Decidable True)
  | .word name => inferInstanceAs (Decidable (name ≠ [] ∧ name.all isWordPart = true))
  | .url _ => inferInstanceAs (Decidable True)
  | .concat left right =>
    have := decidableIsPrintable left
    have := decidableIsPrintable right
    inferInstanceAs (Decidable (left.IsPrintable ∧ right.IsPrintable))

def PathExpr.printList (es : List PathExpr) : Text := Text.joinBy ", " (es.map print)

namespace Sheet

theorem quotes_escaped (s : Text) : Quotes '\x22' (escaped s) s := by
  induction s with
  | nil => exact .nil
  | cons c s ih =>
    by_cases hc : c = '\\' ∨ c = '\x22'
    · rw [escaped_cons_of_marked hc]
      exact .escaped ih
    · rw [escaped_cons_of_plain hc]
      rw [not_or] at hc
      exact .plain hc.2 hc.1 ih

theorem derives_print {e : PathExpr} (h : e.IsPrintable) : Derives .sum e.print e := by
  induction e with
  | str s => exact .single (.quoted (by decide) (quotes_escaped s))
  | word name => exact .single (.word h.1 (List.all_eq_true.1 h.2))
  | url inner =>
    have hword : Text.lowerAscii "url(" = "url(" := by decide
    have hderives := Derives.quotedUrl hword blanks_nil (by decide) (quotes_escaped inner)
      blanks_nil
    exact .single (by simpa [PathExpr.print] using hderives)
  | concat left right ihLeft ihRight =>
    have hblank : Blanks [' '] := by simp [Blanks]; decide
    have hgroup := Derives.group blanks_nil (ihRight h.2) blanks_nil
    have hderives := Derives.add (ihLeft h.1) hblank hblank hgroup
    simpa [PathExpr.print] using hderives

theorem lists_blanks {blanks t : Text} {es : List PathExpr} (hblanks : Blanks blanks)
    (h : Lists t es) : Lists (blanks ++ t) es := by
  cases h with
  | last hbefore hsum hafter =>
    rw [← List.append_assoc]
    exact .last (hblanks.append hbefore) hsum hafter
  | more hbefore hsum hafter hrest =>
    rw [← List.append_assoc]
    exact .more (hblanks.append hbefore) hsum hafter hrest

theorem lists_printList {es : List PathExpr} (hne : es ≠ []) (h : ∀ e ∈ es, e.IsPrintable) :
    Lists (PathExpr.printList es) es := by
  induction es with
  | nil => exact absurd rfl hne
  | cons e es ih =>
    obtain ⟨he, hes⟩ := List.forall_mem_cons.1 h
    cases es with
    | nil => simpa [PathExpr.printList, Text.joinBy] using
        Lists.last blanks_nil (derives_print he) blanks_nil
    | cons next es =>
      have hblank : Blanks [' '] := by simp [Blanks]; decide
      have hrest := lists_blanks hblank (ih (by simp) hes)
      simpa [PathExpr.printList, Text.joinBy] using
        Lists.more blanks_nil (derives_print he) blanks_nil hrest

/-- A list of path expressions is read exactly from the texts that the grammar derives for it; in
particular a list is read back from its print. -/
theorem readList_iff_lists (offset : Nat) (t : Text) :
    (∀ es, readList ⟨offset, t⟩ = .ok es ↔ Lists t es) ∧
      ∀ es : List PathExpr, es ≠ [] → (∀ e ∈ es, e.IsPrintable) →
        readList ⟨offset, PathExpr.printList es⟩ = .ok es :=
  ⟨fun _ => readList_eq_ok_iff, fun _ hne h => readList_eq_ok_iff.2 (lists_printList hne h)⟩

/-- A sum in a sum, a text with a quote and a backslash, and words that look like a URL. -/
def nestedPaths : List PathExpr :=
  [.concat (.word "url") (.concat (.str "a\"b\\") (.concat (.word "$c") (.url " d)"))), .word "url"]

theorem readList_iff_lists_nested :
    nestedPaths ≠ [] ∧ (∀ e ∈ nestedPaths, e.IsPrintable) ∧
    PathExpr.printList nestedPaths = "url + (\"a\\\"b\\\\\" + ($c + (url(\" d)\")))), url" ∧
    readList ⟨0, PathExpr.printList nestedPaths⟩ = .ok nestedPaths ∧
    Lists "URL( a\"b ) + 'c' ,d" [.concat (.url "a\"b") (.str "c"), .word "d"] := by
  have hne : nestedPaths ≠ [] := by decide
  have hprintable : ∀ e ∈ nestedPaths, e.IsPrintable := by decide +kernel
  refine ⟨hne, hprintable, by decide, (readList_iff_lists 0 []).2 nestedPaths hne hprintable, ?_⟩
  exact ((readList_iff_lists 0 _).1 _).1 (by decide +kernel)

end Sheet

end StyleImports
