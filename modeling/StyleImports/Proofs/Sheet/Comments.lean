import StyleImports.Proofs.Sheet.Alignment

/-!
# Comments that are left

Stripping comments reads a text from left to right and looks one character ahead, to tell a slash
from a comment. As a `Scanner` it reads one character at a time instead and holds back a slash
outside quotes until the next character is known (`stripFrom_eq_strip`): what it shows of two texts
in a row is what it shows of the first, and then of the second from where the first has left it
(`Scanner.strip_append`).

What is shown is a text again, and `Place` says where a text without comments stands in its row. A
text is its own stripped text exactly if it holds no comment (`strip_eq_self_iff`). The scanner and
the text that it shows never disagree on quotes, only on parentheses (`Place.Within`): those that
are open before a comment of several rows stay open for the scanner, though the row that they
belong to has ended. Behind them a `//` is kept that stands outside the parentheses of its own row,
and no other comment is ever left (`exists_slashes_of_cut`, `hasComment_strip_iff`). In a text that
opens no `/*` the two agree on parentheses as well, so that stripping once more leaves nothing
(`not_hidesComment`).
-/

set_option autoImplicit false

namespace StyleImports.Sheet

/-! ## Texts without comments -/

/-- Where a text without comments stands. `depth` counts the open parentheses of the row, and quotes
and parentheses end with it. -/
inductive Place where
  /-- Outside quotes. -/
  | code (depth : Nat)
  /-- Inside quotes of the given kind. -/
  | quoted (quote : Char) (depth : Nat)
  /-- Inside quotes, behind a backslash. -/
  | escaped (quote : Char) (depth : Nat)

namespace Place

def next (place : Place) (c : Char) : Place :=
  if c = '\n' then code 0
  else match place with
    | code depth =>
      if isQuote c then quoted c depth
      else if c = '(' then code (depth + 1)
      else if c = ')' then code (depth - 1)
      else code depth
    | quoted quote depth =>
      if c = '\\' then escaped quote depth
      else if c = quote then code depth
      else quoted quote depth
    | escaped quote depth => quoted quote depth

def after (place : Place) (t : Text) : Place := t.foldl next place

variable {place : Place} {t : Text}

@[simp] theorem after_nil : place.after [] = place := rfl

@[simp] theorem after_cons (c : Char) : place.after (c :: t) = (place.next c).after t := rfl

theorem after_append (u : Text) : place.after (t ++ u) = (place.after t).after u :=
  List.foldl_append

@[simp] theorem next_lineFeed : place.next '\n' = code 0 := if_pos rfl

@[simp] theorem next_slash (depth : Nat) : (code depth).next '/' = code depth := rfl

/-- The same place, with at most as many open parentheses. -/
inductive Within : Place → Place → Prop
  | code {own depth : Nat} (h : own ≤ depth) : Within (.code own) (.code depth)
  | quoted {own depth : Nat} (quote : Char) (h : own ≤ depth) :
    Within (.quoted quote own) (.quoted quote depth)
  | escaped {own depth : Nat} (quote : Char) (h : own ≤ depth) :
    Within (.escaped quote own) (.escaped quote depth)

theorem Within.next {own place : Place} (h : own.Within place) (c : Char) :
    (own.next c).Within (place.next c) := by
  cases h with
  | code h => simp only [Place.next]; split_ifs <;> constructor <;> omega
  | quoted quote h => simp only [Place.next]; split_ifs <;> constructor <;> omega
  | escaped quote h => simp only [Place.next]; split_ifs <;> constructor <;> omega

end Place

/-- What follows opens a comment. -/
def Opens : Place → Text → Prop
  | .code depth, rest => ['/', '*'] <+: rest ∨ depth = 0 ∧ ['/', '/'] <+: rest
  | _, _ => False

/-- A text that starts at the given place holds a comment: `/*` outside quotes, or `//` outside
quotes and outside the parentheses of its row. -/
def HasComment (place : Place) (t : Text) : Prop :=
  ∃ front rest, t = front ++ rest ∧ Opens (place.after front) rest

variable {place : Place} {c : Char} {t : Text}

theorem not_hasComment_nil : ¬ HasComment place [] := by
  rintro ⟨front, rest, heq, hopen⟩
  obtain ⟨rfl, rfl⟩ := List.append_eq_nil_iff.1 heq.symm
  cases place <;> simp [Opens] at hopen

theorem hasComment_cons :
    HasComment place (c :: t) ↔ Opens place (c :: t) ∨ HasComment (place.next c) t := by
  constructor
  · rintro ⟨_ | ⟨d, front⟩, rest, heq, hopen⟩
    · exact .inl (by rwa [heq])
    · obtain ⟨rfl, rfl⟩ := List.cons_eq_cons.1 heq
      exact .inr ⟨front, rest, rfl, hopen⟩
  · rintro (hopen | ⟨front, rest, rfl, hopen⟩)
    · exact ⟨[], _, rfl, hopen⟩
    · exact ⟨c :: front, rest, rfl, hopen⟩

theorem not_opens_of_ne (h : c ≠ '/') : ¬ Opens place (c :: t) := by
  cases place <;> simp [Opens, h.symm]

/-! ## The scanner -/

/-- Where a reader of comments stands that reads one character at a time. -/
inductive Scanner where
  /-- Outside comments. -/
  | outside (place : Place)
  /-- Outside quotes and comments, behind a slash that is not shown yet. -/
  | slash (depth : Nat)
  /-- Inside `/* … */`, behind a star or not. -/
  | block (star : Bool) (depth : Nat)
  /-- After `//`. -/
  | line

namespace Scanner

def next : Scanner → Char → Scanner
  | .outside (.code depth), c =>
    if c = '/' then slash depth else .outside ((Place.code depth).next c)
  | .outside place, c => .outside (place.next c)
  | slash depth, c =>
    if c = '*' then block false depth
    else if c = '/' then if depth = 0 then line else slash depth
    else .outside ((Place.code depth).next c)
  | block star depth, c =>
    if star && c = '/' then .outside (.code depth) else block (c = '*') depth
  | line, c => if c = '\n' then .outside (.code 0) else line

/-- What a reader shows when it reads a character. -/
def shows : Scanner → Char → Text
  | .outside (.code _), c => if c = '/' then [] else [c]
  | .outside _, c => [c]
  | slash depth, c =>
    if c = '*' then [' ', ' ']
    else if c = '/' then if depth = 0 then [] else ['/']
    else ['/', c]
  | block _ _, c => [if c = '\n' then '\n' else ' ']
  | line, c => if c = '\n' then [c] else []

/-- What is held back. -/
def pending : Scanner → Text
  | slash _ => ['/']
  | _ => []

/-- The place in the row. -/
def toPlace : Scanner → Place
  | .outside place => place
  | slash depth => .code depth
  | block _ depth => .code depth
  | line => .code 0

def after (scanner : Scanner) (t : Text) : Scanner := t.foldl next scanner

def shown : Scanner → Text → Text
  | _, [] => []
  | scanner, c :: t => scanner.shows c ++ (scanner.next c).shown t

/-- What is shown of a whole text. -/
def strip (scanner : Scanner) (t : Text) : Text := scanner.shown t ++ (scanner.after t).pending

variable {scanner : Scanner} {own : Place}

@[simp] theorem after_nil : scanner.after [] = scanner := rfl

@[simp] theorem after_cons (c : Char) : scanner.after (c :: t) = (scanner.next c).after t := rfl

theorem strip_nil : scanner.strip [] = scanner.pending := rfl

theorem strip_cons (c : Char) :
    scanner.strip (c :: t) = scanner.shows c ++ (scanner.next c).strip t := by
  simp [strip, shown]

theorem strip_append (u : Text) :
    scanner.strip (t ++ u) = scanner.shown t ++ (scanner.after t).strip u := by
  induction t generalizing scanner with
  | nil => rfl
  | cons c t ih => simp [strip_cons, ih, shown]

/-- What one character does to a scanner, and what is shown then. -/
inductive Move : Scanner → Char → Text → Scanner → Prop
  | held (depth : Nat) : Move (.outside (.code depth)) '/' [] (slash depth)
  | read {place : Place} {c : Char} (h : ∀ depth, place = .code depth → c ≠ '/') :
    Move (.outside place) c [c] (.outside (place.next c))
  | opened (depth : Nat) : Move (slash depth) '*' [' ', ' '] (block false depth)
  | dropped : Move (slash 0) '/' [] line
  | kept (depth : Nat) : Move (slash (depth + 1)) '/' ['/'] (slash (depth + 1))
  | released {c : Char} (depth : Nat) (hstar : c ≠ '*') (hslash : c ≠ '/') :
    Move (slash depth) c ['/', c] (.outside ((Place.code depth).next c))
  | blanked (star star' : Bool) (depth : Nat) (c d : Char) (h : d = ' ' ∨ d = '\n') :
    Move (block star depth) c [d] (block star' depth)
  | closed (star : Bool) (depth : Nat) : Move (block star depth) '/' [' '] (.outside (.code depth))
  | ended : Move line '\n' ['\n'] (.outside (.code 0))
  | skipped (c : Char) : Move line c [] line

theorem move (scanner : Scanner) (c : Char) :
    Move scanner c (scanner.shows c) (scanner.next c) := by
  cases scanner with
  | outside place =>
    cases place with
    | code depth =>
      by_cases hc : c = '/'
      · subst hc
        exact .held depth
      · rw [shows, Scanner.next, if_neg hc, if_neg hc]
        exact .read fun _ _ => hc
    | quoted quote depth => exact .read (by simp)
    | escaped quote depth => exact .read (by simp)
  | slash depth =>
    by_cases hstar : c = '*'
    · subst hstar
      exact .opened depth
    by_cases hc : c = '/'
    · subst hc
      cases depth with
      | zero => exact .dropped
      | succ depth => exact .kept depth
    · simp only [shows, Scanner.next, if_neg hstar, if_neg hc]
      exact .released depth hstar hc
  | block star depth =>
    rw [Scanner.next]
    split_ifs with hend
    · obtain ⟨-, rfl⟩ : star = true ∧ c = '/' := by simpa using hend
      exact .closed star depth
    · refine .blanked star _ depth c _ ?_
      split_ifs <;> simp
  | line =>
    by_cases hc : c = '\n'
    · subst hc
      exact .ended
    · rw [shows, Scanner.next, if_neg hc, if_neg hc]
      exact .skipped c

theorem exists_move (scanner : Scanner) (c : Char) : ∃ out next, Move scanner c out next ∧
    scanner.shows c = out ∧ scanner.next c = next :=
  ⟨_, _, scanner.move c, rfl, rfl⟩

theorem strip_code_cons (depth : Nat) (h : c ≠ '/') :
    (Scanner.outside (.code depth)).strip (c :: t) =
      c :: (Scanner.outside ((Place.code depth).next c)).strip t := by
  simp [strip_cons, Scanner.next, shows, h]

theorem strip_code_slash (depth : Nat) :
    (Scanner.outside (.code depth)).strip ('/' :: t) = (slash depth).strip t := rfl

theorem strip_quoted_cons (quote : Char) (depth : Nat) :
    (Scanner.outside (.quoted quote depth)).strip (c :: t) =
      c :: (Scanner.outside ((Place.quoted quote depth).next c)).strip t := rfl

theorem strip_escaped_cons (quote : Char) (depth : Nat) :
    (Scanner.outside (.escaped quote depth)).strip (c :: t) =
      c :: (Scanner.outside ((Place.escaped quote depth).next c)).strip t := rfl

theorem strip_slash_of_head? {depth : Nat} (hstar : t.head? ≠ some '*') (h : t.head? ≠ some '/') :
    (slash depth).strip t = '/' :: (Scanner.outside (.code depth)).strip t := by
  cases t with
  | nil => rfl
  | cons c t =>
    have hslash : c ≠ '/' := fun heq => h (by simp [heq])
    have hstar : c ≠ '*' := fun heq => hstar (by simp [heq])
    simp [strip_cons, Scanner.next, shows, hslash, hstar]

/-- The reader of comments and the scanner that stands where it does. -/
def ofState : CommentState → Scanner
  | .code depth => .outside (.code depth)
  | .quoted quote depth => .outside (.quoted quote depth)
  | .block star depth => block star depth
  | .line => line

end Scanner

open Scanner

theorem stripFrom_eq_strip (state : CommentState) (t : Text) :
    stripFrom state t = (ofState state).strip t := by
  fun_induction stripFrom state t with
  | case1 state => cases state <;> rfl
  | case2 depth rest ih => simp [ih, strip_cons, ofState, Scanner.next, shows]
  | case3 rest ih => simp [ih, strip_cons, ofState, Scanner.next, shows]
  | case4 depth rest hdepth ih => simp [ih, strip_cons, ofState, Scanner.next, shows, hdepth]
  | case5 depth c rest _ _ hquote ih =>
    rw [ih]
    rcases (by simpa using hquote : c = '\x22' ∨ c = '\x27') with rfl | rfl <;> rfl
  | case6 depth rest _ _ _ ih => rw [ih]; rfl
  | case7 depth rest _ _ _ _ ih => rw [ih]; rfl
  | case8 depth rest _ _ _ _ _ ih => rw [ih]; rfl
  | case9 depth c rest hstar hslash hquote hopen hclose hfeed ih =>
    have hnext : (Place.code depth).next c = .code depth := by
      simp_all [Place.next, isQuote]
    rw [ofState] at ih ⊢
    -- The scanner holds a slash back until it has seen the next character.
    by_cases hc : c = '/'
    · subst hc
      rw [strip_code_slash, strip_slash_of_head?, ih]
      · intro hhead
        obtain ⟨more, heq⟩ := List.head?_eq_some_iff.1 hhead
        exact hstar more rfl heq
      · intro hhead
        obtain ⟨more, heq⟩ := List.head?_eq_some_iff.1 hhead
        exact hslash more rfl heq
    · rw [strip_code_cons depth hc, hnext, ih]
  | case10 quote depth rest ih => rw [ih]; rfl
  | case11 quote depth c rest hfeed ih =>
    rw [ih, ofState, strip_quoted_cons, Place.next]
    simp [strip_escaped_cons, Place.next, hfeed]
  | case12 quote depth rest _ ih => rw [ih]; rfl
  | case13 depth c rest hback hfeed ih =>
    -- A backslash at the end of the text escapes nothing.
    cases rest with
    | nil => rfl
    | cons d rest =>
      have hc : c ≠ '\\' := fun heq => hback d rest heq rfl
      rw [ih, ofState, ofState, strip_quoted_cons, Place.next]
      simp [hfeed, hc]
  | case14 quote depth c rest hback hfeed hquote ih =>
    cases rest with
    | nil => rfl
    | cons d rest =>
      have hc : c ≠ '\\' := fun heq => hback d rest heq rfl
      have hnext : (Place.quoted quote depth).next c = .quoted quote depth := by
        simp [Place.next, hfeed, hc, hquote]
      rw [ih, ofState]
      change _ = c :: (Scanner.outside ((Place.quoted quote depth).next c)).strip (d :: rest)
      rw [hnext]
  | case15 star depth c rest shown hend ih =>
    rw [ih, ofState, ofState, strip_cons, Scanner.next, if_pos hend]
    rfl
  | case16 star depth c rest shown hend ih =>
    rw [ih, ofState, ofState, strip_cons, Scanner.next, if_neg hend]
    rfl
  | case17 rest ih => simp [ih, strip_cons, ofState, Scanner.next, shows]
  | case18 c rest hc ih => simp [ih, strip_cons, ofState, Scanner.next, shows, hc]

theorem stripComments_eq_strip (source : Text) :
    stripComments source = (Scanner.outside (.code 0)).strip source :=
  stripFrom_eq_strip _ _

/-! ## A text that is its own stripped text -/

theorem length_strip_le (scanner : Scanner) (t : Text) :
    (scanner.strip t).length ≤ scanner.pending.length + t.length := by
  induction t generalizing scanner with
  | nil => simp [strip_nil]
  | cons c t ih =>
    have hmove : (scanner.shows c).length + (scanner.next c).pending.length ≤
        scanner.pending.length + 1 := by
      obtain ⟨out, next, hmove, hshows, hnext⟩ := scanner.exists_move c
      rw [hshows, hnext]
      cases hmove <;> simp [pending]
    have hrest := ih (scanner.next c)
    simp only [strip_cons, List.length_append, List.length_cons]
    omega

theorem length_stripFrom_le (state : CommentState) (t : Text) :
    (stripFrom state t).length ≤ t.length := by
  have hlength := length_strip_le (ofState state) t
  have hpending : (ofState state).pending = [] := by cases state <;> rfl
  rw [hpending, List.length_nil, Nat.zero_add] at hlength
  rwa [stripFrom_eq_strip]

theorem not_mem_stripFrom (state : CommentState) (h : '\n' ∉ t) : '\n' ∉ stripFrom state t := by
  have haligned := alignedWith_stripFrom state t
  rw [AlignedWith, Text.splitOn_of_not_mem h] at haligned
  cases hparts : Text.splitOn '\n' (stripFrom state t) with
  | nil => exact absurd hparts (Text.splitOn_ne_nil _ _)
  | cons part parts =>
    rw [hparts] at haligned
    obtain rfl : parts = [] := by
      cases haligned with
      | cons _ hrest =>
        cases hrest
        rfl
    have hjoin := Text.joinWith_splitOn '\n' (stripFrom state t)
    rw [hparts, Text.joinWith] at hjoin
    exact hjoin ▸ Text.not_mem_of_mem_splitOn (hparts ▸ List.mem_cons_self)

/-- Where no comment opens, a text whose first character is shown is its own stripped text if the
rest of it is. -/
theorem cons_eq_self_iff (hopen : ¬ Opens place (c :: t)) {u : Text}
    (h : u = t ↔ ¬ HasComment (place.next c) t) :
    c :: u = c :: t ↔ ¬ HasComment place (c :: t) := by
  rw [hasComment_cons, not_or, List.cons.injEq, h]
  simp [hopen]

theorem strip_slashes_ne (t : Text) : (slash 0).strip ('/' :: t) ≠ '/' :: '/' :: t := by
  intro heq
  have hlength := length_strip_le .line t
  have hshown := congrArg List.length heq
  simp [strip_cons, shows, Scanner.next, pending] at hlength hshown
  omega

theorem strip_eq_iff (t : Text) :
    (∀ place, (Scanner.outside place).strip t = t ↔ ¬ HasComment place t) ∧
      ∀ depth, (slash depth).strip t = '/' :: t ↔ ¬ HasComment (.code depth) ('/' :: t) := by
  induction t with
  | nil =>
    refine ⟨fun place => by simp [strip_nil, pending, not_hasComment_nil], fun depth => ?_⟩
    simp [strip_nil, pending, hasComment_cons, not_hasComment_nil, Opens]
  | cons c t ih =>
    obtain ⟨hat, hslash⟩ := ih
    constructor
    · intro place
      cases place with
      | code depth =>
        by_cases hc : c = '/'
        · rw [hc, strip_code_slash, hslash]
        · rw [strip_code_cons depth hc]
          exact cons_eq_self_iff (not_opens_of_ne hc) (hat _)
      | quoted quote depth => exact cons_eq_self_iff id (hat _)
      | escaped quote depth => exact cons_eq_self_iff id (hat _)
    · intro depth
      -- What comes after the held slash decides whether a comment opens at it.
      by_cases hstar : c = '*'
      · have hopen : HasComment (.code depth) ('/' :: c :: t) :=
          hasComment_cons.2 (.inl (.inl (by simp [hstar])))
        simp [strip_cons, shows, hstar, hstar ▸ hopen]
      by_cases hc : c = '/'
      · by_cases hdepth : depth = 0
        · have hopen : HasComment (.code depth) ('/' :: c :: t) :=
            hasComment_cons.2 (.inl (.inr ⟨hdepth, by simp [hc]⟩))
          have hne : (slash depth).strip (c :: t) ≠ '/' :: c :: t := by
            rw [hc, hdepth]
            exact strip_slashes_ne t
          simp [hne, hopen]
        · have hopen : ¬ Opens (.code depth) ('/' :: c :: t) := by simp [Opens, hc, hdepth]
          have hstrip : (slash depth).strip (c :: t) = '/' :: (slash depth).strip t := by
            simp [strip_cons, shows, Scanner.next, hc, hdepth]
          rw [hstrip]
          exact cons_eq_self_iff hopen (by rw [hc, Place.next_slash]; exact hslash depth)
      · have hopen : ¬ Opens (.code depth) ('/' :: c :: t) := by
          simp [Opens, Ne.symm hc, Ne.symm hstar]
        rw [strip_slash_of_head? (by simpa using hstar) (by simpa using hc),
          strip_code_cons depth hc]
        exact cons_eq_self_iff hopen (cons_eq_self_iff (not_opens_of_ne hc) (hat _))

/-- A text is its own stripped text exactly if it holds no comment. -/
theorem strip_eq_self_iff (t : Text) :
    stripComments t = t ↔ ¬ HasComment (.code 0) t := by
  rw [stripComments_eq_strip]
  exact (strip_eq_iff t).1 _

/-! ## Comments that are left -/

/-- The scanner has the place that the text it shows has in its row, and maybe more open
parentheses. -/
theorem within_move {scanner scanner' : Scanner} {shown : Text}
    (hmove : Move scanner c shown scanner') {own : Place} (h : own.Within scanner.toPlace) :
    (own.after shown).Within scanner'.toPlace := by
  cases hmove with
  | held depth => exact h
  | read _ => exact h.next c
  | opened depth =>
    obtain ⟨h⟩ := h
    exact .code h
  | dropped => exact h
  | kept depth =>
    obtain ⟨h⟩ := h
    exact .code h
  | released depth _ _ =>
    obtain ⟨h⟩ := h
    exact (Place.Within.code h).next c
  | blanked _ _ depth _ d hd =>
    obtain ⟨h⟩ := h
    obtain rfl | rfl := hd
    · exact .code h
    · exact .code (Nat.zero_le depth)
  | closed _ depth =>
    obtain ⟨h⟩ := h
    exact .code h
  | ended =>
    obtain ⟨h⟩ := h
    exact .code (Nat.zero_le 0)
  | skipped _ => exact h

/-- Behind a slash that is inside parentheses for the scanner, a slash is shown next, unless a
comment opens. -/
theorem exists_strip_slash (depth : Nat) (t : Text) :
    ∃ d rest, (slash (depth + 1)).strip t = d :: rest ∧
      (t.head? = some '*' ∧ d = ' ' ∨ t.head? ≠ some '*' ∧ d = '/') := by
  cases t with
  | nil => exact ⟨'/', [], rfl, by simp⟩
  | cons c t =>
    obtain ⟨out, next, hmove, hshows, hnext⟩ := (slash (depth + 1)).exists_move c
    rw [strip_cons, hshows, hnext]
    cases hmove with
    | opened => exact ⟨' ', _, rfl, by simp⟩
    | kept => exact ⟨'/', _, rfl, by simp⟩
    | released _ hstar _ => exact ⟨'/', _, rfl, by simp [hstar]⟩

/-- A cut in what is shown at once for one character, before two characters that look like the start
of a comment, is a cut before a slash that is kept inside parentheses. -/
theorem Scanner.Move.kept_of_cut {scanner next : Scanner} {out : Text}
    (hmove : Move scanner c out next) {own : Place} (h : own.Within scanner.toPlace)
    {front out' rest : Text} (hout : out = front ++ out') (hne : out' ≠ []) {depth : Nat}
    (hplace : own.after front = .code depth)
    (hopen : ['/', '*'] <+: out' ++ rest ∨ ['/', '/'] <+: out' ++ rest) :
    ∃ more, scanner = slash (more + 1) ∧ next = slash (more + 1) ∧ c = '/' ∧ front = [] ∧
      out' = ['/'] := by
  obtain ⟨d, out'', rfl⟩ := List.exists_cons_of_ne_nil hne
  have hd : d = '/' := by
    rcases hopen with hopen | hopen <;> exact (List.cons_prefix_cons.1 hopen).1.symm
  subst hd
  -- A move that shows one character can only be cut before it.
  have hone : ∀ {d : Char} {front : Text}, [d] = front ++ '/' :: out'' →
      d = '/' ∧ front = [] ∧ out'' = [] := by
    intro d front heq
    cases front with
    | nil => simpa using heq
    | cons e front => simp at heq
  cases hmove with
  | held depth => simp at hout
  | read hread =>
    obtain ⟨rfl, rfl, rfl⟩ := hone hout
    rw [Place.after_nil] at hplace
    subst hplace
    cases h with
    | code _ => exact absurd rfl (hread _ rfl)
  | opened depth =>
    have : '/' ∈ [' ', ' '] := by rw [hout]; simp
    simp at this
  | dropped => simp at hout
  | kept more =>
    obtain ⟨-, rfl, rfl⟩ := hone hout
    exact ⟨more, rfl, rfl, rfl, rfl, rfl⟩
  | released depth hstar hslash =>
    rcases front with _ | ⟨e, front⟩
    · obtain rfl : out'' = [c] := by simpa using hout.symm
      simp [Ne.symm hstar, Ne.symm hslash] at hopen
    · obtain ⟨heq, -, -⟩ := hone (List.cons.inj hout).2
      exact absurd heq hslash
  | blanked _ _ depth _ d hd =>
    obtain ⟨rfl, -, -⟩ := hone hout
    simp at hd
  | closed _ depth =>
    obtain ⟨heq, -, -⟩ := hone hout
    simp at heq
  | ended =>
    obtain ⟨heq, -, -⟩ := hone hout
    simp at heq
  | skipped _ => simp at hout

/-- Where the text that is shown opens what looks like a comment outside quotes, two slashes have
been read inside parentheses. -/
theorem exists_slashes_of_cut {scanner : Scanner} {own : Place} (h : own.Within scanner.toPlace)
    {front rest : Text} (hcut : scanner.strip t = front ++ rest) {depth : Nat}
    (hplace : own.after front = .code depth) (hopen : ['/', '*'] <+: rest ∨ ['/', '/'] <+: rest) :
    ['/', '/'] <+: rest ∧ ∃ before after more, t = before ++ '/' :: after ∧
      scanner.after before = slash (more + 1) ∧ scanner.shown before = front ∧
      after.head? ≠ some '*' := by
  induction t generalizing scanner own front with
  | nil =>
    have hlength := congrArg List.length hcut
    have htwo : 2 ≤ rest.length := by
      rcases hopen with hopen | hopen <;> exact hopen.length_le
    cases scanner <;> simp [strip_nil, pending] at hlength <;> omega
  | cons c t ih =>
    obtain ⟨out, next, hmove, hshows, hnext⟩ := scanner.exists_move c
    rw [strip_cons, hshows, hnext] at hcut
    by_cases hlong : out <+: front
    · obtain ⟨front', rfl⟩ := hlong
      rw [List.append_assoc, List.append_cancel_left_eq] at hcut
      rw [Place.after_append] at hplace
      obtain ⟨hslashes, before, after, more, rfl, hafter, rfl, hhead⟩ :=
        ih (within_move hmove h) hcut hplace
      refine ⟨hslashes, c :: before, after, more, rfl, ?_, ?_, hhead⟩
      · rw [after_cons, hnext, hafter]
      · rw [shown, hshows, hnext]
    · -- The cut is at a character that is shown now.
      rcases List.append_eq_append_iff.1 hcut with ⟨front', rfl, -⟩ | ⟨out', hout, rfl⟩
      · exact absurd (List.prefix_append _ _) hlong
      · have hne : out' ≠ [] := by
          rintro rfl
          exact hlong ⟨[], by simp [hout]⟩
        obtain ⟨more, rfl, rfl, rfl, rfl, rfl⟩ := hmove.kept_of_cut h hout hne hplace hopen
        obtain ⟨d, rest, hstrip, hhead⟩ := exists_strip_slash more t
        rw [hstrip] at hopen ⊢
        obtain ⟨-, rfl⟩ | ⟨hstar, rfl⟩ := hhead
        · simp at hopen
        · exact ⟨by simp, [], t, more, rfl, rfl, rfl, hstar⟩

/-- A `//` of the text is kept inside parentheses that are not of its row: the row shows none that
is open before it. -/
def HidesComment (source : Text) : Prop :=
  ∃ front rest depth, source = front ++ '/' :: rest ∧
    (Scanner.outside (.code 0)).after front = slash (depth + 1) ∧
    (Place.code 0).after ((Scanner.outside (.code 0)).shown front) = .code 0 ∧
    rest.head? ≠ some '*'

theorem hasComment_strip_iff (source : Text) :
    HasComment (.code 0) (stripComments source) ↔ HidesComment source := by
  rw [stripComments_eq_strip]
  have hwithin : (Place.code 0).Within (Scanner.outside (.code 0)).toPlace := .code (Nat.le_refl 0)
  constructor
  · rintro ⟨front, rest, hcut, hopen⟩
    cases hplace : (Place.code 0).after front with
    | code depth =>
      rw [hplace, Opens] at hopen
      obtain ⟨hslashes, before, after, more, rfl, hafter, rfl, hhead⟩ :=
        exists_slashes_of_cut hwithin hcut hplace (hopen.imp_right And.right)
      refine ⟨before, after, more, rfl, hafter, ?_, hhead⟩
      rcases hopen with hstar | ⟨hdepth, -⟩
      · obtain ⟨tail, rfl⟩ := hslashes
        simp at hstar
      · rw [hplace, hdepth]
    | quoted quote depth => simp [hplace, Opens] at hopen
    | escaped quote depth => simp [hplace, Opens] at hopen
  · rintro ⟨front, rest, depth, rfl, hafter, hplace, hhead⟩
    obtain ⟨d, tail, hstrip, ⟨hstar, -⟩ | ⟨-, rfl⟩⟩ := exists_strip_slash depth rest
    · exact absurd hstar hhead
    · refine ⟨_, _, strip_append _, ?_⟩
      rw [hplace, hafter, strip_cons]
      have hkept : (slash (depth + 1)).next '/' = slash (depth + 1) := rfl
      rw [hkept, hstrip]
      exact .inr ⟨rfl, ['/', '/'].prefix_append tail⟩

/-! ## Stripping once more -/

/-- Outside quotes nothing opens `/*`. -/
def OpensNoBlock (place : Place) (t : Text) : Prop :=
  ∀ front rest, t = front ++ '/' :: '*' :: rest → ∀ depth, place.after front ≠ .code depth

theorem opensNoBlock_strip (source : Text) : OpensNoBlock (.code 0) (stripComments source) := by
  intro front rest hcut depth hplace
  rw [stripComments_eq_strip] at hcut
  have hwithin : (Place.code 0).Within (Scanner.outside (.code 0)).toPlace := .code (Nat.le_refl 0)
  obtain ⟨hslashes, -⟩ :=
    exists_slashes_of_cut hwithin hcut hplace (.inl (['/', '*'].prefix_append rest))
  simp at hslashes

theorem OpensNoBlock.next (h : OpensNoBlock place (c :: t)) : OpensNoBlock (place.next c) t := by
  rintro front rest rfl
  exact h (c :: front) rest rfl

/-- Unless it drops the rest of a row, the scanner stands where the text stands that it has read and
where the text stands that it shows. -/
def Steady (scanner : Scanner) (place own : Place) : Prop :=
  scanner = line ∨ (∀ star depth, scanner ≠ block star depth) ∧
    place = scanner.toPlace ∧ own = scanner.toPlace

theorem steady_move {scanner next : Scanner} {out : Text} (hmove : Move scanner c out next)
    {own : Place} (h : Steady scanner place own)
    (hblock : OpensNoBlock place (scanner.pending ++ c :: t)) :
    Steady next (place.next c) (own.after out) ∧
      OpensNoBlock (place.next c) (next.pending ++ t) := by
  rcases h with rfl | ⟨hnot, rfl, rfl⟩
  · cases hmove with
    | ended => exact ⟨.inr ⟨by simp, by simp [toPlace], by simp [toPlace]⟩, hblock.next⟩
    | skipped _ => exact ⟨.inl rfl, hblock.next⟩
  · cases hmove with
    | held depth => exact ⟨.inr ⟨by simp, rfl, rfl⟩, hblock⟩
    | read _ => exact ⟨.inr ⟨by simp, rfl, rfl⟩, hblock.next⟩
    | opened depth => exact absurd rfl (hblock [] t rfl depth)
    | dropped => exact ⟨.inl rfl, hblock.next.next⟩
    | kept depth => exact ⟨.inr ⟨by simp, rfl, rfl⟩, hblock.next⟩
    | released depth _ _ => exact ⟨.inr ⟨by simp, rfl, rfl⟩, hblock.next.next⟩
    | blanked star _ depth _ _ _ => exact absurd rfl (hnot star depth)
    | closed star depth => exact absurd rfl (hnot star depth)
    | ended => exact ⟨.inr ⟨by simp, rfl, rfl⟩, hblock.next⟩
    | skipped _ => exact ⟨.inl rfl, hblock.next⟩

theorem steady_after {scanner : Scanner} {own : Place} (h : Steady scanner place own)
    (t rest : Text) (hblock : OpensNoBlock place (scanner.pending ++ (t ++ rest))) :
    Steady (scanner.after t) (place.after t) (own.after (scanner.shown t)) := by
  induction t generalizing scanner place own with
  | nil => exact h
  | cons c t ih =>
    obtain ⟨hsteady, hblock⟩ := steady_move (scanner.move c) h hblock
    rw [shown, Place.after_append]
    exact ih hsteady hblock

theorem not_hidesComment {source : Text} (h : OpensNoBlock (.code 0) source) :
    ¬ HidesComment source := by
  rintro ⟨front, rest, depth, rfl, hafter, hplace, -⟩
  have hstart : Steady (.outside (.code 0)) (.code 0) (.code 0) := .inr ⟨by simp, rfl, rfl⟩
  have hsteady := steady_after hstart front ('/' :: rest) h
  rw [hafter, hplace] at hsteady
  obtain hline | ⟨-, -, hown⟩ := hsteady
  · cases hline
  · cases hown

/-- Stripping a stylesheet twice is stripping it once, and no comment is left, unless parentheses
that a comment of several rows has kept open hide a `//` of a later row. A third time never changes
anything. -/
theorem stripComments_idem_iff (source : Text) :
    (stripComments (stripComments source) = stripComments source ↔ ¬ HidesComment source) ∧
    (¬ HasComment (.code 0) (stripComments source) ↔ ¬ HidesComment source) ∧
    stripComments (stripComments (stripComments source)) =
      stripComments (stripComments source) := by
  refine ⟨?_, not_congr (hasComment_strip_iff source), ?_⟩
  · rw [strip_eq_self_iff, hasComment_strip_iff]
  · rw [strip_eq_self_iff, hasComment_strip_iff]
    exact not_hidesComment (opensNoBlock_strip source)

/-- A parenthesis, a comment that ends on the next row, and a `//` behind the import there. -/
def hiddenSource : Text := "a(/*\n*/@import 'b' // c\n".toList

/-- The `//` of the second row is left, and stripping once more drops it. -/
theorem not_stripComments_idem :
    stripComments hiddenSource = "a(  \n  @import 'b' // c\n".toList ∧
    stripComments (stripComments hiddenSource) = "a(  \n  @import 'b' \n".toList ∧
    stripComments (stripComments hiddenSource) ≠ stripComments hiddenSource ∧
    HasComment (.code 0) (stripComments hiddenSource) := by
  have hne : stripComments (stripComments hiddenSource) ≠ stripComments hiddenSource := by decide
  refine ⟨by decide, by decide, hne, ?_⟩
  by_contra hnot
  exact hne ((strip_eq_self_iff _).2 hnot)

end StyleImports.Sheet
