import Mathlib.Data.List.Chain
import Mathlib.Data.List.TakeWhile
import StyleImports.Files.Memory
import StyleImports.Url.Rebaser

/-!
# Which calls are rebased

`IsCall` says how a call of `url` is written, and `readCall_eq_some` that the reader takes exactly
the calls. `Cut` lays a line out as characters and calls; its parameter says whether a call may
follow another one with nothing in between. Rebasing puts the new form in place of each call of the
cut where it may not (`rebaseSteps_of_cut`), so it rebases every call of a line in which no two
calls touch (`rebase_calls`). Of two that touch, the second is left as it is.
-/

set_option autoImplicit false

namespace StyleImports

/-- A word that is read letter case aside; only the long s is no matter of ASCII. -/
theorem Specifier.afterWord?_eq_some {word t rest : Text} (hword : 's' ∉ word) :
    afterWord? word t = some rest ↔ ∃ front, t = front ++ rest ∧ Text.lowerAscii front = word := by
  induction word generalizing t with
  | nil =>
    simp only [afterWord?, Option.some.injEq]
    constructor
    · rintro rfl
      exact ⟨[], rfl, rfl⟩
    · rintro ⟨front, rfl, hlower⟩
      rw [List.map_eq_nil_iff.1 hlower, List.nil_append]
  | cons letter word ih =>
    rw [List.mem_cons, not_or] at hword
    -- Without an `s` in the word, folding is lower case in ASCII.
    have hfolds : ∀ c, foldsTo letter c = true ↔ c.toLower = letter := fun c => by
      simp [foldsTo, Ne.symm hword.1]
    cases t with
    | nil =>
      constructor
      · intro h
        cases h
      · rintro ⟨front, hfront, hlower⟩
        rw [(List.append_eq_nil_iff.1 hfront.symm).1] at hlower
        cases hlower
    | cons c t =>
      simp only [afterWord?]
      split
      case isTrue hc =>
        rw [ih hword.2]
        constructor
        · rintro ⟨front, rfl, rfl⟩
          exact ⟨c :: front, rfl, by rw [← (hfolds c).1 hc]; rfl⟩
        · rintro ⟨front, hfront, hlower⟩
          cases front with
          | nil => cases hlower
          | cons d front =>
            obtain ⟨rfl, rfl⟩ := List.cons.inj hfront
            exact ⟨front, rfl, (List.cons.inj hlower).2⟩
      case isFalse hc =>
        constructor
        · intro h
          cases h
        · rintro ⟨front, hfront, hlower⟩
          cases front with
          | nil => cases hlower
          | cons d front =>
            obtain ⟨rfl, rfl⟩ := List.cons.inj hfront
            exact absurd ((hfolds c).2 (List.cons.inj hlower).1) hc

namespace UrlRebaser

variable {t rest written inner : Text} {argument : Argument}

/-! ## Calls as they are written -/

/-- An argument in quotes that it does not hold, or of bare characters. -/
inductive IsArgument : Text → Argument → Prop where
  | quoted {quote : Char} {url : Text} (hquote : quote = '\x22' ∨ quote = '\x27')
      (hurl : quote ∉ url) : IsArgument (quote :: (url ++ [quote])) (.quoted url)
  | bare {url : Text} (hne : url ≠ []) (hurl : ∀ c ∈ url, isBare c = true) :
      IsArgument url (.bare url)

/-- `url`, letter case aside, and an argument in parentheses, with blanks around it. -/
inductive IsCall : Text → Argument → Prop where
  | intro {word before inner after : Text} {argument : Argument}
      (hword : Text.lowerAscii word = "url") (hbefore : ∀ c ∈ before, Text.isBlank c = true)
      (hinner : IsArgument inner argument) (hafter : ∀ c ∈ after, Text.isBlank c = true) :
      IsCall (word ++ '(' :: (before ++ (inner ++ (after ++ [')'])))) argument

/-- The URL of an argument. -/
def Argument.url : Argument → Text
  | .quoted url => url
  | .bare url => url

/-- A bare argument that starts with the sign of a variable. -/
def Argument.isVariable : Argument → Bool
  | .bare ('$' :: _) => true
  | _ => false

/-- A call is written anew with its URL resolved and in quotes; a variable has no new form. -/
theorem rebaseArgument_eq (r : UrlRebaser) (file : Path) (argument : Argument) :
    r.rebaseArgument file argument =
      if argument.isVariable then none
      else some ("url(\x22" ++ r.resolve file argument.url ++ "\x22)") := by
  unfold rebaseArgument
  split
  case h_1 => rfl
  case h_2 url hvariable =>
    have hbare : Argument.isVariable (.bare url) = false := by
      unfold Argument.isVariable
      split
      case h_1 rest heq => exact absurd (Argument.bare.inj heq) (hvariable rest)
      case h_2 => rfl
    rw [hbare]
    rfl
  case h_3 => rfl

theorem IsCall.ne_nil (h : IsCall written argument) : written ≠ [] := by
  cases h
  simp

theorem isCall_bare {url : Text} (hne : url ≠ []) (hurl : ∀ c ∈ url, isBare c = true) :
    IsCall ("url(" ++ (url ++ ")")) (.bare url) :=
  @IsCall.intro "url" [] url [] _ (by decide) nofun (.bare hne hurl) nofun

theorem isBlank_quote {c : Char} (hc : c = '\x22' ∨ c = '\x27') : Text.isBlank c = false := by
  rcases hc with rfl | rfl <;> decide

theorem isBare_quote {c : Char} (hc : c = '\x22' ∨ c = '\x27') : isBare c = false := by
  rcases hc with rfl | rfl <;> decide

theorem isBlank_of_isBare {c : Char} (hc : isBare c = true) : Text.isBlank c = false := by
  simp only [isBare, Bool.and_eq_true, Bool.not_eq_true'] at hc
  exact hc.2

theorem isBare_of_closing {after : Text} (hafter : ∀ c ∈ after, Text.isBlank c = true) {c : Char}
    (hc : (after ++ ')' :: rest).head? = some c) : isBare c = false := by
  cases after with
  | nil =>
    cases hc
    decide
  | cons d more =>
    cases hc
    have hblank := hafter c List.mem_cons_self
    simp [isBare, hblank]

theorem IsArgument.isBlank_head (h : IsArgument inner argument) {c : Char}
    (hc : (inner ++ rest).head? = some c) : Text.isBlank c = false := by
  cases h with
  | quoted hquote hurl =>
    cases hc
    exact isBlank_quote hquote
  | bare hne hurl =>
    obtain ⟨d, tail, rfl⟩ := List.exists_cons_of_ne_nil hne
    cases hc
    exact isBlank_of_isBare (hurl c List.mem_cons_self)

/-! ## Reading calls -/

theorem exists_trimStart (t : Text) : ∃ blanks, (∀ c ∈ blanks, Text.isBlank c = true) ∧
    t = blanks ++ Text.trimStart t :=
  ⟨t.takeWhile Text.isBlank, fun _ hc => List.mem_takeWhile_imp hc,
    List.takeWhile_append_dropWhile.symm⟩

theorem readArgument_sound (h : readArgument t = some (argument, rest)) :
    ∃ inner, t = inner ++ rest ∧ IsArgument inner argument := by
  unfold readArgument at h
  split at h
  case h_1 => cases h
  case h_2 c tail =>
    split at h
    case isTrue hquote =>
      obtain ⟨⟨url, left⟩, hcut, heq⟩ := Option.map_eq_some_iff.1 h
      cases heq
      obtain ⟨rfl, hurl⟩ := Text.splitFirst_eq_some hcut
      exact ⟨c :: (url ++ [c]), by simp, .quoted (by simpa using hquote) hurl⟩
    case isFalse =>
      split at h
      case h_1 => cases h
      case h_2 hne =>
        cases h
        exact ⟨_, List.takeWhile_append_dropWhile.symm, .bare hne fun d hd =>
          List.mem_takeWhile_imp hd⟩

/-- An argument is read up to a character that can be no part of it. -/
theorem IsArgument.readArgument_append (h : IsArgument inner argument)
    (hrest : ∀ c, rest.head? = some c → isBare c = false) :
    readArgument (inner ++ rest) = some (argument, rest) := by
  cases h with
  | @quoted quote url hquote hurl =>
    have hopens : (quote = '\x22' || quote = '\x27') = true := by simpa using hquote
    simp only [List.cons_append, List.append_assoc, List.nil_append, readArgument, hopens, if_true,
      Text.splitFirst_append_sep hurl, Option.map_some]
  | bare hne hurl =>
    obtain ⟨htake, hdrop⟩ := Text.takeWhile_append_stop hurl hrest
    obtain ⟨c, tail, rfl⟩ := List.exists_cons_of_ne_nil hne
    have hopens : ¬ (c = '\x22' || c = '\x27') = true := fun hquote => by
      have hbare := hurl c List.mem_cons_self
      rw [isBare_quote (by simpa using hquote)] at hbare
      cases hbare
    rw [List.cons_append] at htake hdrop ⊢
    simp only [readArgument, if_neg hopens, htake, hdrop]

theorem afterOpening?_eq_some : afterOpening? t = some rest ↔
    ∃ word, t = word ++ '(' :: rest ∧ Text.lowerAscii word = "url" := by
  have hword : 's' ∉ ("url" : String).toList := by decide
  constructor
  · intro h
    unfold afterOpening? at h
    split at h
    case h_1 left hleft =>
      cases h
      exact (Specifier.afterWord?_eq_some hword).1 hleft
    case h_2 => cases h
  · intro h
    simp only [afterOpening?, (Specifier.afterWord?_eq_some hword).2 h]

/-- The reader takes exactly the calls. -/
theorem readCall_eq_some : readCall t = some (argument, rest) ↔
    ∃ written, t = written ++ rest ∧ IsCall written argument := by
  constructor
  · intro h
    unfold readCall at h
    split at h
    case h_1 => cases h
    case h_2 found left hargument =>
      split at h
      case h_2 => cases h
      case h_1 closed hclosed =>
        cases h
        -- What each step of the reader takes, put together, is the call.
        obtain ⟨opened, hopened, hread⟩ := Option.bind_eq_some_iff.1 hargument
        obtain ⟨word, rfl, hword⟩ := afterOpening?_eq_some.1 hopened
        obtain ⟨inner, hinner, hcall⟩ := readArgument_sound hread
        obtain ⟨before, hbefore, hopen⟩ := exists_trimStart opened
        obtain ⟨after, hafter, hclose⟩ := exists_trimStart left
        rw [hinner] at hopen
        rw [hclosed] at hclose
        refine ⟨_, ?_, .intro hword hbefore hcall hafter⟩
        rw [hopen, hclose]
        simp
  · rintro ⟨written, rfl, h⟩
    cases h with
    | @intro word before inner after _ hword hbefore hinner hafter =>
      have hopened : afterOpening? (word ++ '(' :: (before ++ (inner ++ (after ++ ')' :: rest)))) =
          some (before ++ (inner ++ (after ++ ')' :: rest))) :=
        afterOpening?_eq_some.2 ⟨word, rfl, hword⟩
      have hstart : Text.trimStart (before ++ (inner ++ (after ++ ')' :: rest))) =
          inner ++ (after ++ ')' :: rest) :=
        (Text.takeWhile_append_stop hbefore fun c hc => hinner.isBlank_head hc).2
      have hargument : readArgument (inner ++ (after ++ ')' :: rest)) =
          some (argument, after ++ ')' :: rest) :=
        hinner.readArgument_append fun c hc => isBare_of_closing hafter hc
      have hclose : Text.trimStart (after ++ ')' :: rest) = ')' :: rest :=
        (Text.takeWhile_append_stop hafter fun c hc => by cases hc; decide).2
      simp only [List.append_assoc, List.cons_append, List.nil_append, readCall, hopened,
        Option.bind_some, hstart, hargument, hclose]

/-- A text that starts with a call. -/
def StartsCall (t : Text) : Prop := ∃ written argument rest, t = written ++ rest ∧
  IsCall written argument

theorem readCall_eq_none : readCall t = none ↔ ¬ StartsCall t := by
  rw [Option.eq_none_iff_forall_ne_some]
  constructor
  · rintro h ⟨written, argument, rest, ht, hcall⟩
    exact h _ (readCall_eq_some.2 ⟨written, ht, hcall⟩)
  · rintro h ⟨argument, rest⟩ hread
    obtain ⟨written, ht, hcall⟩ := readCall_eq_some.1 hread
    exact h ⟨written, argument, rest, ht, hcall⟩

instance (t : Text) : Decidable (StartsCall t) :=
  decidable_of_iff ((readCall t).isSome = true) <| by
    rw [Option.isSome_iff_ne_none, Ne, readCall_eq_none, not_not]

theorem IsCall.unique {written' rest' : Text} {argument' : Argument} (h : IsCall written argument)
    (h' : IsCall written' argument') (heq : written ++ rest = written' ++ rest') :
    written = written' ∧ argument = argument' ∧ rest = rest' := by
  have hread : readCall (written ++ rest) = some (argument, rest) :=
    readCall_eq_some.2 ⟨written, rfl, h⟩
  have hread' : readCall (written ++ rest) = some (argument', rest') :=
    readCall_eq_some.2 ⟨written', heq, h'⟩
  rw [hread, Option.some.injEq, Prod.mk.injEq] at hread'
  obtain ⟨rfl, rfl⟩ := hread'
  exact ⟨List.append_cancel_right heq, rfl, rfl⟩

/-! ## Lines as characters and calls -/

/-- A piece of a line: a character, or a call as it is written. -/
inductive Piece where
  | char (c : Char)
  | call (written : Text) (argument : Argument)

namespace Piece

def isCall : Piece → Bool
  | .char _ => false
  | .call _ _ => true

def text : Piece → Text
  | .char c => [c]
  | .call written _ => written

/-- What a piece becomes; a call without a new form stays as it is written. -/
def put (rebased : Argument → Option Text) : Piece → Text
  | .char c => [c]
  | .call written argument => (rebased argument).getD written

/-- What a piece becomes in a line of a file: a call takes its URL as seen from the entry, in
quotes, and a call of a variable stays. -/
def rebased (r : UrlRebaser) (file : Path) : Piece → Text
  | .char c => [c]
  | .call written argument =>
    if argument.isVariable then written
    else "url(\x22" ++ r.resolve file argument.url ++ "\x22)"

theorem put_rebaseArgument (r : UrlRebaser) (file : Path) (piece : Piece) :
    piece.put (r.rebaseArgument file) = piece.rebased r file := by
  cases piece with
  | char c => rfl
  | call written argument =>
    rw [put, rebased, rebaseArgument_eq]
    split <;> rfl

end Piece

/-- The pieces of a text from left to right: a call is one piece wherever it may start. `atCall`
tells whether one may start right here, and `touching` whether one may right after another. -/
inductive Cut (touching : Bool) : Bool → Text → List Piece → Prop where
  | nil {atCall : Bool} : Cut touching atCall [] []
  | call {t written rest : Text} {argument : Argument} {pieces : List Piece}
      (ht : t = written ++ rest) (hcall : IsCall written argument)
      (hrest : Cut touching touching rest pieces) :
      Cut touching true t (.call written argument :: pieces)
  | char {atCall : Bool} {c : Char} {rest : Text} {pieces : List Piece}
      (hcall : atCall = true → ¬ StartsCall (c :: rest))
      (hrest : Cut touching (endsName c) rest pieces) :
      Cut touching atCall (c :: rest) (.char c :: pieces)

/-- No call follows another one with nothing in between. -/
def Apart (pieces : List Piece) : Prop :=
  pieces.IsChain fun first next => ¬ (first.isCall = true ∧ next.isCall = true)

variable {touching atCall : Bool} {pieces : List Piece}

/-- Nothing of a text is lost. -/
theorem Cut.flatMap_text (h : Cut touching atCall t pieces) : pieces.flatMap Piece.text = t := by
  induction h with
  | nil => rfl
  | call ht hcall hrest ih => rw [List.flatMap_cons, ih, Piece.text, ht]
  | char hcall hrest ih => rw [List.flatMap_cons, ih, Piece.text, List.singleton_append]

theorem exists_cut (touching atCall : Bool) (t : Text) : ∃ pieces, Cut touching atCall t pieces := by
  induction hlength : t.length using Nat.strongRecOn generalizing atCall t with
  | ind length ih =>
    subst hlength
    cases t with
    | nil => exact ⟨[], .nil⟩
    | cons c rest =>
      by_cases hstarts : atCall = true ∧ StartsCall (c :: rest)
      · obtain ⟨rfl, written, argument, left, ht, hcall⟩ := hstarts
        -- No call is empty, so what follows it is shorter.
        have hpos := List.length_pos_iff.2 hcall.ne_nil
        have hshorter : left.length < (c :: rest).length := by
          rw [ht, List.length_append]
          omega
        obtain ⟨pieces, hpieces⟩ := ih left.length hshorter touching left rfl
        exact ⟨_, .call ht hcall hpieces⟩
      · obtain ⟨pieces, hpieces⟩ := ih rest.length (Nat.lt_succ_self _) (endsName c) rest rfl
        exact ⟨_, .char (fun h hcall => hstarts ⟨h, hcall⟩) hpieces⟩

/-- A text has one cut only. -/
theorem Cut.unique (h : Cut touching atCall t pieces) {pieces' : List Piece}
    (h' : Cut touching atCall t pieces') : pieces = pieces' := by
  induction h generalizing pieces' with
  | nil =>
    cases h' with
    | nil => rfl
    | call ht hcall _ => exact absurd (List.append_eq_nil_iff.1 ht.symm).1 hcall.ne_nil
  | call ht hcall hrest ih =>
    cases h' with
    | nil => exact absurd (List.append_eq_nil_iff.1 ht.symm).1 hcall.ne_nil
    | call ht' hcall' hrest' =>
      obtain ⟨rfl, rfl, rfl⟩ := hcall.unique hcall' (ht.symm.trans ht')
      rw [ih hrest']
    | char hnone _ => exact absurd ⟨_, _, _, ht, hcall⟩ (hnone rfl)
  | char hnone hrest ih =>
    cases h' with
    | call ht hcall _ => exact absurd ⟨_, _, _, ht, hcall⟩ (hnone rfl)
    | char _ hrest' => rw [ih hrest']

/-- Where no two calls touch, it makes no difference whether two may. -/
theorem Cut.of_apart (h : Cut true atCall t pieces) (hapart : Apart pieces) :
    Cut false atCall t pieces ∧
      ((∀ piece ∈ pieces.head?, piece.isCall = false) → Cut false false t pieces) := by
  -- A call is kept; what follows it has to be cut as if no call might start there.
  induction h with
  | nil => exact ⟨.nil, fun _ => .nil⟩
  | @call _ _ _ _ pieces ht hcall hrest ih =>
    have hnext : ∀ piece ∈ pieces.head?, piece.isCall = false := fun piece hpiece => by
      have hboth := (List.isChain_cons.1 hapart).1 piece hpiece
      simpa [Piece.isCall] using hboth
    refine ⟨.call ht hcall ((ih hapart.tail).2 hnext), fun hhead => ?_⟩
    have hfirst := hhead _ rfl
    cases hfirst
  | char hnone hrest ih =>
    have htail := (ih hapart.tail).1
    exact ⟨.char hnone htail, fun _ => .char nofun htail⟩

/-! ## Rebasing a line -/

/-- The new forms are put in place of the calls of a cut in which none follows another one
directly; the length of the text bounds the steps. -/
theorem rebaseSteps_of_cut (rebased : Argument → Option Text) (h : Cut false atCall t pieces)
    {steps : Nat} (hsteps : t.length < steps) :
    rebaseSteps rebased steps atCall t = pieces.flatMap (Piece.put rebased) := by
  induction h generalizing steps with
  | nil => cases steps <;> rfl
  | @call t written rest argument pieces ht hcall hrest ih =>
    have hpos := List.length_pos_iff.2 hcall.ne_nil
    have hlength : t.length = written.length + rest.length := by rw [ht, List.length_append]
    have hread : readCall t = some (argument, rest) := readCall_eq_some.2 ⟨written, ht, hcall⟩
    have htake : t.take (t.length - rest.length) = written := by
      rw [hlength, Nat.add_sub_cancel, ht, List.take_left]
    match t, steps with
    | [], _ => simp only [List.length_nil] at hlength; omega
    | c :: tail, 0 => exact absurd hsteps (Nat.not_lt_zero _)
    | c :: tail, steps + 1 =>
      simp only [rebaseSteps, if_true, hread]
      rw [List.flatMap_cons, Piece.put, ← List.length_cons, htake, ih (by omega)]
  | @char atCall c rest pieces hnone hrest ih =>
    have hread : (if atCall = true then readCall (c :: rest) else none) = none := by
      split
      case isTrue hstart => exact readCall_eq_none.2 (hnone hstart)
      case isFalse => rfl
    match steps with
    | 0 => exact absurd hsteps (Nat.not_lt_zero _)
    | steps + 1 =>
      rw [List.length_cons] at hsteps
      rw [rebaseSteps, hread, List.flatMap_cons, Piece.put, ih (by omega)]
      rfl

theorem rebase_of_cut (r : UrlRebaser) (file : Path) (h : Cut false true t pieces) :
    r.rebase file t = pieces.flatMap (Piece.rebased r file) := by
  rw [rebase, rebaseSteps_of_cut _ h (Nat.lt_succ_self _)]
  exact congrArg pieces.flatMap (funext (Piece.put_rebaseArgument r file))

/-- **Every call of a line in which no two calls touch is rebased, and nothing else changes**: the
line has one cut, which loses nothing, and each call of it takes its new form. In every line, this
is what happens to the calls that follow no other call directly. -/
theorem rebase_calls (r : UrlRebaser) (file : Path) (t : Text) :
    (∃! pieces, Cut true true t pieces) ∧
    (∀ pieces, Cut true true t pieces → pieces.flatMap Piece.text = t ∧
      (Apart pieces → r.rebase file t = pieces.flatMap (Piece.rebased r file))) ∧
    ∃ pieces, Cut false true t pieces ∧ pieces.flatMap Piece.text = t ∧
      r.rebase file t = pieces.flatMap (Piece.rebased r file) := by
  refine ⟨?_, fun pieces h => ⟨h.flatMap_text, fun hapart => ?_⟩, ?_⟩
  · obtain ⟨pieces, h⟩ := exists_cut true true t
    exact ⟨pieces, h, fun pieces' h' => h'.unique h⟩
  · exact rebase_of_cut r file (h.of_apart hapart).1
  · obtain ⟨pieces, h⟩ := exists_cut false true t
    exact ⟨pieces, h, h.flatMap_text, rebase_of_cut r file h⟩

/-- Two images beside an imported file. -/
def imageFiles : Memory :=
  ((Memory.empty ⟨"/p".toList⟩).add ⟨"sub/a.png".toList⟩ []).add ⟨"sub/b.png".toList⟩ []

/-- Rebases to the directory of an entry above the images. -/
def imageRebaser : UrlRebaser := ofOptions imageFiles.fileSystem ⟨"/p/main.styl".toList⟩ {} []

theorem isCall_a : IsCall "url(a.png)" (.bare "a.png") :=
  @isCall_bare "a.png" (by decide +kernel) (List.all_eq_true.1 (by decide +kernel))

theorem isCall_quoted : IsCall "URL( 'b.png' )" (.quoted "b.png") :=
  @IsCall.intro "URL" [' '] "'b.png'" [' '] _ (by decide +kernel)
    (List.all_eq_true.1 (by decide +kernel))
    (@IsArgument.quoted '\x27' "b.png" (.inr rfl) (by decide +kernel))
    (List.all_eq_true.1 (by decide +kernel))

/-- Two calls with a blank between them are both rebased. -/
theorem rebase_calls_spaced :
    imageRebaser.rebase ⟨"/p/sub/x.styl".toList⟩ "url(a.png) URL( 'b.png' )" =
      "url(\x22sub/a.png\x22) url(\x22sub/b.png\x22)" := by
  have hcut : Cut true true "url(a.png) URL( 'b.png' )"
      [.call "url(a.png)" (.bare "a.png"), .char ' ',
        .call "URL( 'b.png' )" (.quoted "b.png")] :=
    @Cut.call _ _ _ " URL( 'b.png' )" _ _ (by decide +kernel) isCall_a <|
      @Cut.char _ _ ' ' "URL( 'b.png' )" _ (fun _ => by decide +kernel) <|
        @Cut.call _ _ _ [] _ _ (by decide +kernel) isCall_quoted .nil
  have hapart : Apart [.call "url(a.png)" (.bare "a.png"), .char ' ',
      .call "URL( 'b.png' )" (.quoted "b.png")] := by
    simp [Apart, Piece.isCall]
  rw [((rebase_calls imageRebaser ⟨"/p/sub/x.styl".toList⟩ _).2.1 _ hcut).2 hapart]
  decide +kernel

/-- Of two calls that touch, the second stays. -/
theorem not_rebase_calls : ¬ ∀ pieces, Cut true true "url(a.png)url(b.png)" pieces →
    imageRebaser.rebase ⟨"/p/sub/x.styl".toList⟩ "url(a.png)url(b.png)" =
      pieces.flatMap (Piece.rebased imageRebaser ⟨"/p/sub/x.styl".toList⟩) := by
  intro hall
  have hcut : Cut true true "url(a.png)url(b.png)"
      [.call "url(a.png)" (.bare "a.png"), .call "url(b.png)" (.bare "b.png")] :=
    @Cut.call _ _ _ "url(b.png)" _ _ (by decide +kernel) isCall_a <|
      @Cut.call _ _ _ [] _ _ (by decide +kernel)
        (@isCall_bare "b.png" (by decide +kernel) (List.all_eq_true.1 (by decide +kernel))) .nil
  have heq := hall _ hcut
  revert heq
  decide +kernel

end UrlRebaser

end StyleImports
