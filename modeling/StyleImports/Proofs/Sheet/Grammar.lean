import Mathlib.Data.List.TakeWhile
import StyleImports.Sheet.Expr

/-!
# The grammar of import paths

The path of an import is a list of sums with commas between them (`Lists`), and a sum adds terms:
quoted texts, sums in parentheses, `url(…)` and words (`Derives`). Blanks may stand between tokens.

Every reader takes a text that its rule derives, or reports a fault within the text that it was
given (`outcomes`, `outcome_readList`); the number of its steps does not matter for that.
-/

set_option autoImplicit false

namespace StyleImports.Sheet

/-! ## Derivations -/

/-- Characters that may stand between tokens. -/
def Blanks (t : Text) : Prop := ∀ c ∈ t, Text.isBlank c = true

/-- The inside of quotes, and the text that it stands for. A backslash gives the character after
it. -/
inductive Quotes (quote : Char) : Text → Text → Prop where
  | nil : Quotes quote [] []
  | plain {c : Char} {body s : Text} :
      c ≠ quote → c ≠ '\\' → Quotes quote body s → Quotes quote (c :: body) (c :: s)
  | escaped {c : Char} {body s : Text} :
      Quotes quote body s → Quotes quote ('\\' :: c :: body) (c :: s)

inductive Rule where
  | term
  | sum
  deriving DecidableEq, Repr

/-- The texts of terms and sums, with the expressions that they stand for. -/
inductive Derives : Rule → Text → PathExpr → Prop where
  | quoted {quote : Char} {body s : Text} :
      isQuote quote = true → Quotes quote body s →
      Derives .term (quote :: (body ++ [quote])) (.str s)
  | group {before t after : Text} {e : PathExpr} :
      Blanks before → Derives .sum t e → Blanks after →
      Derives .term ('(' :: (before ++ t ++ after ++ [')'])) e
  | quotedUrl {word before body s after : Text} {quote : Char} :
      Text.lowerAscii word = "url(" → Blanks before → isQuote quote = true →
      Quotes quote body s → Blanks after →
      Derives .term (word ++ (before ++ (quote :: (body ++ [quote]) ++ (after ++ [')'])))) (.url s)
  /-- Without quotes the inside goes up to the first closing parenthesis. -/
  | rawUrl {word before raw : Text} :
      Text.lowerAscii word = "url(" → Blanks before →
      (∀ c ∈ raw.head?, Text.isBlank c = false ∧ isQuote c = false) → ')' ∉ raw →
      Derives .term (word ++ (before ++ (raw ++ [')']))) (.url (Text.trim raw))
  | word {name : Text} :
      name ≠ [] → (∀ c ∈ name, isWordPart c = true) → Derives .term name (.word name)
  | single {t : Text} {e : PathExpr} : Derives .term t e → Derives .sum t e
  | add {t before after u : Text} {left right : PathExpr} :
      Derives .sum t left → Blanks before → Blanks after → Derives .term u right →
      Derives .sum (t ++ (before ++ '+' :: (after ++ u))) (.concat left right)

/-- The texts of lists of sums. -/
inductive Lists : Text → List PathExpr → Prop where
  | last {before t after : Text} {e : PathExpr} :
      Blanks before → Derives .sum t e → Blanks after → Lists (before ++ (t ++ after)) [e]
  | more {before t after rest : Text} {e : PathExpr} {es : List PathExpr} :
      Blanks before → Derives .sum t e → Blanks after → Lists rest es →
      Lists (before ++ (t ++ (after ++ ',' :: rest))) (e :: es)

theorem Blanks.append {t u : Text} (ht : Blanks t) (hu : Blanks u) : Blanks (t ++ u) :=
  List.forall_mem_append.2 ⟨ht, hu⟩

theorem blanks_nil : Blanks [] := by simp [Blanks]

/-! ## Cursors -/

/-- From a cursor to another one, a reader has taken a text. -/
structure Takes (c : Cursor) (t : Text) (after : Cursor) : Prop where
  rest : c.rest = t ++ after.rest
  offset : after.offset = c.offset + t.length

/-- A fault lies within what is left of the line at a cursor, or right behind it. -/
def Within (c : Cursor) (fault : LineFault) : Prop :=
  c.offset ≤ fault.1 ∧ fault.1 ≤ c.offset + c.rest.length

variable {c c' c'' : Cursor} {t u : Text} {fault : LineFault}

theorem Takes.trans (h : Takes c t c') (h' : Takes c' u c'') : Takes c (t ++ u) c'' := by
  refine ⟨?_, ?_⟩
  · rw [h.rest, h'.rest, List.append_assoc]
  · rw [h'.offset, h.offset, List.length_append, Nat.add_assoc]

theorem Takes.within (h : Takes c t c') (hfault : Within c' fault) : Within c fault := by
  have hlength := congrArg List.length h.rest
  have hoffset := h.offset
  rw [List.length_append] at hlength
  unfold Within at hfault ⊢
  omega

theorem within_start (c : Cursor) (fault : ParseFault) : Within c (c.offset, fault) :=
  ⟨Nat.le_refl _, Nat.le_add_right _ _⟩

theorem takes_cons (offset : Nat) (first : Char) (rest : Text) :
    Takes ⟨offset, first :: rest⟩ [first] ⟨offset + 1, rest⟩ := ⟨rfl, rfl⟩

theorem takes_advance {n : Nat} (h : c.rest.take n = t) (hn : n ≤ c.rest.length) :
    Takes c t (c.advance n) := by
  refine ⟨?_, ?_⟩
  · rw [← h]
    exact (List.take_append_drop n c.rest).symm
  · show c.offset + n = c.offset + t.length
    rw [← h, List.length_take, Nat.min_eq_left hn]

theorem takes_takeWhile (c : Cursor) (p : Char → Bool) :
    Takes c (c.rest.takeWhile p) (c.advance (c.rest.takeWhile p).length) := by
  have hstarts := List.takeWhile_prefix (l := c.rest) p
  exact takes_advance (List.prefix_iff_eq_take.1 hstarts).symm hstarts.length_le

theorem takes_skipBlanks (c : Cursor) : ∃ blanks, Blanks blanks ∧ Takes c blanks c.skipBlanks :=
  ⟨_, fun _ hc => List.mem_takeWhile_imp hc, takes_takeWhile c Text.isBlank⟩

theorem takes_of_skipBlanks {offset : Nat} {first : Char} {rest : Text}
    (h : c.skipBlanks = ⟨offset, first :: rest⟩) :
    ∃ blanks, Blanks blanks ∧ Takes c (blanks ++ [first]) ⟨offset + 1, rest⟩ := by
  obtain ⟨blanks, hblanks, htakes⟩ := takes_skipBlanks c
  rw [h] at htakes
  exact ⟨blanks, hblanks, htakes.trans (takes_cons offset first rest)⟩

/-! ## Outcomes -/

/-- A reader takes a text of a kind, or reports a fault within the text that it was given. -/
inductive Outcome {α : Type} (c : Cursor) (Kind : Text → α → Prop) :
    Except LineFault (α × Cursor) → Prop where
  | ok {t : Text} {x : α} {after : Cursor} :
      Kind t x → Takes c t after → Outcome c Kind (.ok (x, after))
  | error {fault : LineFault} : Within c fault → Outcome c Kind (.error fault)

/-- The text of a quoted string. -/
def IsString (t s : Text) : Prop :=
  ∃ quote body, t = quote :: (body ++ [quote]) ∧ isQuote quote = true ∧ Quotes quote body s

/-- The text of a sum, with the blanks that are skipped behind it. -/
def IsPaddedSum (t : Text) (e : PathExpr) : Prop :=
  ∃ u blanks, t = u ++ blanks ∧ Derives .sum u e ∧ Blanks blanks

theorem quotes_of_readQuoted {quote : Char} {offset : Nat} {s : Text} {after : Cursor}
    (h : readQuoted quote offset t = some (s, after)) :
    ∃ body, Quotes quote body s ∧ Takes ⟨offset, t⟩ (body ++ [quote]) after := by
  fun_induction readQuoted quote offset t generalizing s with
  | case1 => cases h
  | case2 => cases h
  | case3 offset first rest ih =>
    obtain ⟨read, hread, heq⟩ := Option.map_eq_some_iff.1 h
    cases heq
    obtain ⟨body, hquotes, htakes⟩ := ih hread
    refine ⟨'\\' :: first :: body, .escaped hquotes, ?_⟩
    exact (takes_cons offset '\\' _).trans ((takes_cons (offset + 1) first _).trans htakes)
  | case4 offset rest =>
    cases h
    exact ⟨[], .nil, takes_cons offset quote rest⟩
  | case5 offset first rest hlast hescape hquote ih =>
    obtain ⟨read, hread, heq⟩ := Option.map_eq_some_iff.1 h
    cases heq
    obtain ⟨body, hquotes, htakes⟩ := ih hread
    have hplain : first ≠ '\\' := by
      rintro rfl
      cases rest with
      | nil => exact hlast rfl rfl
      | cons next rest => exact hescape next rest rfl rfl
    exact ⟨first :: body, .plain hquote hplain hquotes, (takes_cons offset first _).trans htakes⟩

theorem outcome_readString (h : ∀ first ∈ c.rest.head?, isQuote first = true) :
    Outcome c IsString (readString c) := by
  obtain ⟨offset, rest⟩ := c
  unfold readString
  split
  · exact .error (within_start _ _)
  · rename_i quote rest hrest
    subst hrest
    split
    · rename_i read hread
      obtain ⟨body, hquotes, htakes⟩ := quotes_of_readQuoted hread
      exact .ok ⟨quote, body, rfl, h quote rfl, hquotes⟩ ((takes_cons _ _ _).trans htakes)
    · exact .error (within_start _ _)

theorem advance_takeWhile_rest (c : Cursor) (p : Char → Bool) :
    (c.advance (c.rest.takeWhile p).length).rest = c.rest.dropWhile p := by
  have hsplit := List.takeWhile_append_dropWhile (p := p) (l := c.rest)
  rw [← List.append_cancel_left_eq (c.rest.takeWhile p), hsplit]
  exact (takes_takeWhile c p).rest.symm

/-- What is left after a run of characters does not go on with one of them. -/
theorem not_of_advance_takeWhile (c : Cursor) (p : Char → Bool) :
    ∀ first ∈ (c.advance (c.rest.takeWhile p).length).rest.head?, p first = false := by
  intro first hfirst
  have hnot := List.head?_dropWhile_not p c.rest
  rw [← advance_takeWhile_rest, Option.mem_def.1 hfirst] at hnot
  exact Bool.eq_false_iff.2 (by simpa using hnot)

theorem not_isBlank_of_skipBlanks (c : Cursor) :
    ∀ first ∈ c.skipBlanks.rest.head?, Text.isBlank first = false :=
  not_of_advance_takeWhile c Text.isBlank

theorem takeWhile_eq_nil {p : Char → Bool} (h : ∀ first ∈ t.head?, p first = false) :
    t.takeWhile p = [] := by
  cases t with
  | nil => rfl
  | cons first t => simp [h first rfl]

theorem skipBlanks_eq_self (h : ∀ first ∈ c.rest.head?, Text.isBlank first = false) :
    c.skipBlanks = c := by
  simp [Cursor.skipBlanks, Cursor.advance, takeWhile_eq_nil h]

/-- What follows a term up to a closing parenthesis. -/
theorem outcome_close {α : Type} {Kind : Text → α → Prop} {x : α} (htakes : Takes c t c')
    (hkind : ∀ blanks, Blanks blanks → Kind (t ++ (blanks ++ [')'])) x) :
    Outcome c Kind
      (match c'.skipBlanks with
      | ⟨offset, ')' :: rest⟩ => .ok (x, ⟨offset + 1, rest⟩)
      | _ => .error (c.offset, .unbalanced)) := by
  split
  · rename_i hskip
    obtain ⟨blanks, hblanks, hclose⟩ := takes_of_skipBlanks hskip
    exact .ok (hkind blanks hblanks) (htakes.trans hclose)
  · exact .error (within_start _ _)

theorem takes_of_startsUrl (h : startsUrl c.rest = true) :
    ∃ word, Text.lowerAscii word = "url(" ∧ Takes c word (c.advance 4) := by
  have hword : Text.lowerAscii (c.rest.take 4) = "url(" := of_decide_eq_true h
  have hlength := congrArg List.length hword
  rw [Text.lowerAscii, List.length_map, List.length_take] at hlength
  refine ⟨_, hword, takes_advance rfl ?_⟩
  simp only [String.length_toList] at hlength
  have : "url(".length = 4 := rfl
  omega

theorem outcome_readUrl (h : startsUrl c.rest = true) :
    Outcome c (Derives .term) (readUrl c) := by
  obtain ⟨word, hword, hopen⟩ := takes_of_startsUrl h
  obtain ⟨before, hbefore, hskip⟩ := takes_skipBlanks (c.advance 4)
  have hblank := not_isBlank_of_skipBlanks (c.advance 4)
  have hinside := hopen.trans hskip
  unfold readUrl
  generalize (c.advance 4).skipBlanks = inside at hskip hblank hinside
  by_cases hquote : (inside.rest.head?.map isQuote).getD false = true
  · have hstring := outcome_readString (c := inside) fun first hfirst => by
      simpa [Option.mem_def.1 hfirst] using hquote
    simp only [hquote, if_true]
    generalize readString inside = read at hstring
    cases hstring with
    | error hfault => exact .error (hinside.within hfault)
    | ok hstring htakes =>
      obtain ⟨quote, body, rfl, hisQuote, hquotes⟩ := hstring
      refine outcome_close (hinside.trans htakes) fun after hafter => ?_
      simpa using Derives.quotedUrl hword hbefore hisQuote hquotes hafter
  · simp only [hquote, Bool.false_eq_true, if_false]
    have hraw := takes_takeWhile inside (· ≠ ')')
    have hplain : ∀ first ∈ (inside.rest.takeWhile (· ≠ ')')).head?,
        Text.isBlank first = false ∧ isQuote first = false := by
      intro first hfirst
      rw [List.head?_takeWhile] at hfirst
      have hfirst := (Option.mem_filter_iff.1 hfirst).1
      exact ⟨hblank first hfirst, by simpa [Option.mem_def.1 hfirst] using hquote⟩
    have hnone : ')' ∉ inside.rest.takeWhile (· ≠ ')') :=
      fun hmem => by simpa using List.mem_takeWhile_imp hmem
    have hend := not_of_advance_takeWhile inside (· ≠ ')')
    generalize inside.advance (inside.rest.takeWhile (· ≠ ')')).length = after at hraw hend ⊢
    obtain ⟨offset, rest⟩ := after
    cases rest with
    | nil => exact .error (within_start _ _)
    | cons first rest =>
      obtain rfl : first = ')' := by simpa using hend first rfl
      rw [skipBlanks_eq_self (by simp; decide)]
      refine .ok (.rawUrl hword hbefore hplain hnone) ?_
      simpa using (hinside.trans hraw).trans (takes_cons offset ')' rest)

section
variable {steps : Nat}

/-- What the readers of expressions come to, whatever their number of steps. A further summand is
read behind what was taken since some earlier cursor. -/
structure Outcomes (steps : Nat) : Prop where
  term : ∀ c, Outcome c (Derives .term) (readTerm steps c)
  sum : ∀ c, Outcome c IsPaddedSum (readSum steps c)
  summands : ∀ c c' t left, Derives .sum t left → Takes c t c' →
    Outcome c IsPaddedSum (readSummands steps left c')

theorem outcomes_zero : Outcomes 0 := by
  refine ⟨fun c => ?_, fun c => ?_, fun c c' t left hleft htakes => ?_⟩
  · rw [readTerm]
    exact .error (within_start _ _)
  · rw [readSum]
    exact .error (within_start _ _)
  · rw [readSummands]
    exact .ok ⟨t, [], by simp, hleft, blanks_nil⟩ htakes

theorem outcome_readTerm (h : Outcomes steps) (c : Cursor) :
    Outcome c (Derives .term) (readTerm (steps + 1) c) := by
  rw [readTerm]
  split
  · exact .error (within_start _ _)
  · rename_i rest hrest
    have hopen : Takes c ['('] (c.advance 1) := takes_advance (by simp [hrest]) (by simp [hrest])
    -- A parenthesis: blanks, a sum, blanks and the closing one.
    obtain ⟨before, hbefore, hskip⟩ := takes_skipBlanks (c.advance 1)
    have hinside := hopen.trans hskip
    have hsum := h.sum (c.advance 1).skipBlanks
    generalize readSum steps (c.advance 1).skipBlanks = read at hsum
    cases hsum with
    | error hfault => exact .error (hinside.within hfault)
    | ok hpadded htakes =>
      obtain ⟨t, blanks, rfl, hsum, hblanks⟩ := hpadded
      refine outcome_close (hinside.trans htakes) fun after hafter => ?_
      simpa using Derives.group hbefore hsum (hblanks.append hafter)
  · rename_i first rest hgroup hrest
    split
    · rename_i hquote
      have hstring := outcome_readString (c := c) fun next hnext => by
        rw [hrest] at hnext
        cases hnext
        exact hquote
      generalize readString c = read at hstring
      cases hstring with
      | error hfault => exact .error hfault
      | ok hstring htakes =>
        obtain ⟨quote, body, rfl, hisQuote, hquotes⟩ := hstring
        exact .ok (.quoted hisQuote hquotes) htakes
    · split
      · rename_i hurl
        exact outcome_readUrl hurl
      · split
        · exact .error (within_start _ _)
        · rename_i hname
          exact .ok (.word hname fun _ hc => List.mem_takeWhile_imp hc)
            (takes_takeWhile c isWordPart)

theorem outcome_readSum (h : Outcomes steps) (c : Cursor) :
    Outcome c IsPaddedSum (readSum (steps + 1) c) := by
  rw [readSum]
  have hterm := h.term c
  generalize readTerm steps c = read at hterm
  cases hterm with
  | error hfault => exact .error hfault
  | ok hterm htakes => exact h.summands _ _ _ _ (.single hterm) htakes

theorem outcome_readSummands (h : Outcomes steps) {left : PathExpr} (hleft : Derives .sum t left)
    (htakes : Takes c t c') : Outcome c IsPaddedSum (readSummands (steps + 1) left c') := by
  rw [readSummands]
  split
  · rename_i offset rest hplus
    obtain ⟨before, hbefore, hplus⟩ := takes_of_skipBlanks hplus
    obtain ⟨after, hafter, hskip⟩ := takes_skipBlanks ⟨offset + 1, rest⟩
    have hsum := (htakes.trans hplus).trans hskip
    have hterm := h.term (Cursor.skipBlanks ⟨offset + 1, rest⟩)
    generalize readTerm steps (Cursor.skipBlanks ⟨offset + 1, rest⟩) = read at hterm
    cases hterm with
    | error hfault => exact .error (hsum.within hfault)
    | ok hterm hright =>
      refine h.summands _ _ _ _ (.add hleft hbefore hafter hterm) ?_
      simpa using hsum.trans hright
  · obtain ⟨blanks, hblanks, hskip⟩ := takes_skipBlanks c'
    exact .ok ⟨t, blanks, rfl, hleft, hblanks⟩ (htakes.trans hskip)

theorem outcomes (steps : Nat) : Outcomes steps := by
  induction steps with
  | zero => exact outcomes_zero
  | succ steps ih =>
    exact ⟨outcome_readTerm ih, outcome_readSum ih,
      fun _ _ _ _ hleft htakes => outcome_readSummands ih hleft htakes⟩

end

/-! ## Lists -/

/-- A list is read, or its fault lies within the text. -/
inductive ListOutcome (c : Cursor) : Except LineFault (List PathExpr) → Prop where
  | ok {es : List PathExpr} : Lists c.rest es → ListOutcome c (.ok es)
  | error {fault : LineFault} : Within c fault → ListOutcome c (.error fault)

theorem outcome_readItems (steps : Nat) (c : Cursor) : ListOutcome c (readItems steps c) := by
  induction steps generalizing c with
  | zero =>
    rw [readItems]
    exact .error (within_start _ _)
  | succ steps ih =>
    rw [readItems, readExpr]
    obtain ⟨before, hbefore, hskip⟩ := takes_skipBlanks c
    have hsum := (outcomes (2 * c.rest.length + 2)).sum c.skipBlanks
    generalize readSum (2 * c.rest.length + 2) c.skipBlanks = read at hsum
    cases hsum with
    | error hfault => exact .error (hskip.within hfault)
    | @ok _ e after hpadded htakes =>
      obtain ⟨t, blanks, rfl, hsum, hblanks⟩ := hpadded
      have hitem := hskip.trans htakes
      obtain ⟨more, hmore, hend⟩ := takes_skipBlanks after
      dsimp only
      split
      · rename_i hnil
        have hwhole := (hitem.trans hend).rest
        rw [hnil, List.append_nil] at hwhole
        refine .ok ?_
        rw [hwhole]
        simpa using Lists.last hbefore hsum (hblanks.append hmore)
      · rename_i offset rest hcomma
        rw [hcomma] at hend
        have hitem := (hitem.trans hend).trans (takes_cons offset ',' rest)
        have hrest := ih ⟨offset + 1, rest⟩
        generalize readItems steps ⟨offset + 1, rest⟩ = read at hrest
        cases hrest with
        | error hfault => exact .error (hitem.within hfault)
        | ok hlists =>
          refine .ok ?_
          rw [hitem.rest]
          simpa using Lists.more hbefore hsum (hblanks.append hmore) hlists
      · rename_i hother
        rw [hother] at hend
        exact .error ((hitem.trans hend).within (within_start _ _))

/-- What is read as a list is one, and a fault lies within the text. -/
theorem outcome_readList (c : Cursor) : ListOutcome c (readList c) := outcome_readItems _ c

end StyleImports.Sheet
