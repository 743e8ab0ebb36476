import Mathlib.Data.List.Basic
import Mathlib.Data.List.TakeWhile
import StyleImports.Glob.Expand

/-!
# How patterns end

A pattern that ends in a plain character matches only paths that end in it (`ends_of_readPatterns`).
Each stage keeps the last character: braces are expanded in front of it, it is the last sign that is
read, and nothing but itself can match it.
-/

set_option autoImplicit false

namespace StyleImports

namespace Glob

variable {a b : Char} {s t : Text}

theorem getLast?_of_append (hne : a ≠ b) (h : (s ++ a :: t).getLast? = some b) :
    t.getLast? = some b := by
  rw [List.getLast?_append_cons] at h
  cases t with
  | nil => exact absurd (Option.some.inj h) hne
  | cons c rest => exact h

/-! ## Braces -/

theorem readGroup_append {depth : Nat} {part : Text} {parts : List Text} {ending : Text}
    (h : readGroup depth part t = some (parts, ending)) :
    ∃ inside, t = inside ++ '}' :: ending := by
  induction depth, part, t using readGroup.induct generalizing parts with
  | case1 => cases h
  | case2 depth part rest ih =>
    rw [readGroup] at h
    obtain ⟨inside, rfl⟩ := ih h
    exact ⟨'{' :: inside, rfl⟩
  | case3 part rest =>
    rw [readGroup] at h
    cases h
    exact ⟨[], rfl⟩
  | case4 part rest depth ih =>
    rw [readGroup] at h
    obtain ⟨inside, rfl⟩ := ih h
    exact ⟨'}' :: inside, rfl⟩
  | case5 part rest ih =>
    rw [readGroup] at h
    obtain ⟨⟨others, ending'⟩, hinner, heq⟩ := Option.map_eq_some_iff.1 h
    cases heq
    obtain ⟨inside, rfl⟩ := ih hinner
    exact ⟨',' :: inside, rfl⟩
  | case6 part rest depth ih =>
    rw [readGroup] at h
    obtain ⟨inside, rfl⟩ := ih h
    exact ⟨',' :: inside, rfl⟩
  | case7 depth part c rest hopen hclose hcomma ih =>
    rw [readGroup] at h
    · obtain ⟨inside, rfl⟩ := ih h
      exact ⟨c :: inside, rfl⟩
    · exact hopen
    · exact hclose
    · exact hcomma

/-- Every choice of the braces of a text ends as the text does. -/
theorem getLast?_of_mem_expandGroups (hb : b ≠ '}') {n : Nat} {choice : Text}
    (h : t.getLast? = some b) (hchoice : choice ∈ expandGroups n t) :
    choice.getLast? = some b := by
  induction n generalizing t with
  | zero =>
    rw [List.mem_singleton.1 hchoice]
    exact h
  | succ n ih =>
    rw [expandGroups] at hchoice
    split at hchoice
    · rw [List.mem_singleton.1 hchoice]
      exact h
    case h_2 start rest hfirst =>
      split at hchoice
      · rw [List.mem_singleton.1 hchoice]
        exact h
      case h_2 parts ending hgroup =>
        obtain ⟨part, _, hmem⟩ := List.mem_flatMap.1 hchoice
        obtain ⟨inside, hinside⟩ := readGroup_append hgroup
        have hending : ending.getLast? = some b := by
          rw [(Text.splitFirst_eq_some hfirst).1, hinside, ← List.cons_append, ← List.append_assoc] at h
          exact getLast?_of_append hb.symm h
        refine ih ?_ hmem
        rw [List.getLast?_append, hending]
        rfl

/-! ## Signs -/

/-- A character that stands for itself wherever it ends a pattern. -/
def IsPlainEnd (c : Char) : Prop := c ∉ ['?', '*', '[', ']', '/', '}']

instance (c : Char) : Decidable (IsPlainEnd c) := inferInstanceAs (Decidable (c ∉ _))

theorem readClass_append {sign : PatternSign} {rest : Text}
    (h : readClass t = some (sign, rest)) : ∃ inside, t = inside ++ ']' :: rest := by
  unfold readClass at h
  split at h
  case h_1 first text =>
    obtain ⟨cut, hcut, heq⟩ := Option.map_eq_some_iff.1 h
    cases heq
    exact ⟨'!' :: first :: cut.1, by rw [(Text.splitFirst_eq_some hcut).1]; rfl⟩
  case h_2 => cases h
  case h_3 first text _ _ =>
    obtain ⟨cut, hcut, heq⟩ := Option.map_eq_some_iff.1 h
    cases heq
    exact ⟨first :: cut.1, by rw [(Text.splitFirst_eq_some hcut).1]; rfl⟩
  case h_4 => cases h

theorem getLast?_of_readSigns (hb : IsPlainEnd b) {steps : Nat} {last : Option Char}
    {signs out : List PatternSign} (hsteps : t.length ≤ steps) (ht : t.getLast? = some b)
    (h : readSigns steps last signs t = .ok out) : out.getLast? = some (.char b) := by
  simp only [IsPlainEnd, List.mem_cons, List.not_mem_nil, or_false, not_or] at hb
  obtain ⟨hany, hstar, hopen, hclose, hslash, _⟩ := hb
  induction steps generalizing last signs t with
  | zero =>
    rw [List.eq_nil_of_length_eq_zero (Nat.le_zero.1 hsteps)] at ht
    cases ht
  | succ steps ih =>
    cases t with
    | nil => cases ht
    | cons c rest =>
      have hrest : rest.length ≤ steps := Nat.le_of_succ_le_succ hsteps
      have htail : ∀ {d : Char} {s after : Text}, d ≠ b → c :: rest = s ++ d :: after →
          after.getLast? = some b := fun hd heq => getLast?_of_append hd (heq ▸ ht)
      unfold readSigns at h
      split at h
      · exact ih hrest (htail (s := []) (Ne.symm hany) rfl) h
      · -- A run of stars ends before the last character.
        have hstars : rest.getLast? = some b := htail (s := []) (Ne.symm hstar) rfl
        have hafter : (rest.dropWhile (· = '*')).getLast? = some b := by
          have hne : rest.dropWhile (· = '*') ≠ [] := by
            rw [ne_eq, List.dropWhile_eq_nil_iff]
            intro hall
            exact hstar (by simpa using hall b (List.mem_of_getLast? hstars))
          have hsplit := List.takeWhile_append_dropWhile (p := (· = '*')) (l := rest)
          rw [← hsplit, List.getLast?_append_of_ne_nil _ hne] at hstars
          exact hstars
        have hlength : (rest.dropWhile (· = '*')).length ≤ steps :=
          Nat.le_trans (List.dropWhile_sublist _).length_le hrest
        split at h
        · exact ih hlength hafter h
        · split at h
          · split at h
            case h_1 hnil =>
              rw [hnil] at hafter
              cases hafter
            case h_2 after hcut =>
              rw [hcut] at hafter hlength
              exact ih (Nat.le_of_succ_le hlength)
                (getLast?_of_append (s := []) (Ne.symm hslash) hafter) h
            · cases h
          · cases h
        · cases h
      · split at h
        case h_1 sign after hclass =>
          obtain ⟨inside, rfl⟩ := readClass_append hclass
          refine ih ?_ (htail (s := '[' :: inside) (Ne.symm hclose) rfl) h
          simp only [List.length_append, List.length_cons] at hrest
          omega
        · cases h
      · cases rest with
        | nil =>
          cases ht
          cases steps <;> (cases h; simp)
        | cons d rest => exact ih hrest ht h

/-- A run of characters leaves an end of the text to the signs after it. -/
theorem exists_suffix_of_matchRun {deep : Bool} {rest : Bool → Text → MatchOutcome}
    {atStart : Bool} (h : matchRun deep rest atStart t = .holds) :
    ∃ atStart' ending, ending <:+ t ∧ rest atStart' ending = .holds := by
  induction t generalizing atStart with
  | nil => exact ⟨atStart, [], List.suffix_rfl, h⟩
  | cons c t ih =>
    rw [matchRun] at h
    have hbelow : ∀ {atStart}, matchRun deep rest atStart t = .holds →
        ∃ atStart' ending, ending <:+ c :: t ∧ rest atStart' ending = .holds := fun h => by
      obtain ⟨atStart', ending, hsuffix, hholds⟩ := ih h
      exact ⟨atStart', ending, hsuffix.trans (List.suffix_cons c t), hholds⟩
    split at h
    · cases h
    · split at h
      · cases h
      · split at h
        · exact hbelow h
        · split at h
          · exact hbelow h
          · exact ⟨_, t, List.suffix_cons c t, h⟩

theorem getLast?_of_suffix (h : s <:+ t) (hs : s.getLast? = some b) : t.getLast? = some b := by
  obtain ⟨front, rfl⟩ := h
  rw [List.getLast?_append, hs]
  rfl

/-- A text that is matched by signs ends in the last of them, if that is a character. -/
theorem getLast?_of_matchSigns {signs : List PatternSign} {atStart : Bool}
    (hsigns : signs.getLast? = some (.char b)) (h : matchSigns signs atStart t = .holds) :
    t.getLast? = some b := by
  induction signs generalizing atStart t with
  | nil => cases hsigns
  | cons sign signs ih =>
    cases signs with
    | nil =>
      cases hsigns
      cases t with
      | nil => cases h
      | cons c t =>
        simp only [matchSigns] at h
        split at h
        case isTrue hadmits =>
          have heq : c = b := of_decide_eq_true hadmits
          cases t with
          | nil => rw [heq]; rfl
          | cons d t => cases h
        · cases h
    | cons next signs =>
      have hlast : (next :: signs).getLast? = some (.char b) := hsigns
      -- A star leaves some end of the text to the signs after it.
      have hbelow : ∀ {deep atStart},
          matchRun deep (matchSigns (next :: signs)) atStart t = .holds →
            t.getLast? = some b := fun h => by
        obtain ⟨atStart', ending, hsuffix, hholds⟩ := exists_suffix_of_matchRun h
        exact getLast?_of_suffix hsuffix (ih hlast hholds)
      cases sign with
      | star =>
        rw [matchSigns] at h
        split at h
        · exact hbelow h
        · exact ih hlast h
      | deepStar =>
        rw [matchSigns] at h
        split at h
        · exact hbelow h
        · exact ih hlast h
      | _ =>
        cases t with
        | nil => cases h
        | cons c t =>
          simp only [matchSigns] at h
          split at h
          · exact getLast?_of_suffix (List.suffix_cons c t) (ih hlast h)
          · cases h

theorem exists_of_mem_mapM {α β ε : Type} {f : α → Except ε β} {xs : List α} {ys : List β}
    (h : xs.mapM f = .ok ys) {y : β} (hy : y ∈ ys) : ∃ x ∈ xs, f x = .ok y := by
  induction xs generalizing ys with
  | nil =>
    cases h
    cases hy
  | cons x xs ih =>
    rw [List.mapM_cons] at h
    cases hx : f x with
    | error e =>
      rw [hx] at h
      cases h
    | ok z =>
      cases hrest : xs.mapM f with
      | error e =>
        rw [hx, hrest] at h
        cases h
      | ok zs =>
        rw [hx, hrest] at h
        cases h
        rcases List.mem_cons.1 hy with rfl | hy
        · exact ⟨x, List.mem_cons_self, hx⟩
        · obtain ⟨x', hx', hread⟩ := ih hrest hy
          exact ⟨x', List.mem_cons_of_mem _ hx', hread⟩

/-- A pattern that ends in a plain character matches only paths that end in it. -/
theorem ends_of_readPatterns (hb : IsPlainEnd b) {pattern path : Text}
    (hpattern : pattern.getLast? = some b) {patterns : List (List PatternSign)}
    (h : readPatterns pattern = .ok patterns) (hmatch : patterns.any (matchesPath · path) = true) :
    path.getLast? = some b := by
  obtain ⟨signs, hsigns, hholds⟩ := List.any_eq_true.1 hmatch
  simp only [matchesPath, decide_eq_true_eq] at hholds
  obtain ⟨choice, hchoice, hread⟩ := exists_of_mem_mapM h hsigns
  have hlast : choice.getLast? = some b :=
    getLast?_of_mem_expandGroups (by rintro rfl; simp [IsPlainEnd] at hb) hpattern hchoice
  split at hread
  case h_1 hok =>
    cases hread
    exact getLast?_of_matchSigns (getLast?_of_readSigns hb (Nat.le_refl _) hlast hok) hholds
  case h_2 => cases hread

end Glob

end StyleImports
