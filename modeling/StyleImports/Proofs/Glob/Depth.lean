import Mathlib.Data.List.Count
import StyleImports.Proofs.Glob.Ending
import StyleImports.Proofs.Path.Parts

/-!
# How deep patterns reach

A path that is matched by a pattern without `**` has no more slashes than the pattern. Each stage
keeps the bound: a choice of the braces has no more slashes than the text (`count_of_mem_expand`),
the signs that are read from it stand for no more (`slashes_of_readPattern`), and only a sign for a
slash matches one (`count_of_matchesPath`). So such a path leads through fewer directories than the
pattern has segments (`depthLimit`).
-/

set_option autoImplicit false

namespace StyleImports

namespace Glob

variable {c : Char} {t : Text}

/-! ## Braces -/

/-- An alternative and what follows its group hold no more of a character than the text of both. -/
theorem count_of_readGroup {depth : Nat} {part alternative : Text} {parts : List Text}
    {ending : Text} (h : readGroup depth part t = some (parts, ending))
    (hmem : alternative ∈ parts) :
    alternative.count c + ending.count c ≤ part.count c + t.count c := by
  -- By the cases of the reader: each character goes to one alternative, to the ending, or nowhere.
  induction depth, part, t using readGroup.induct generalizing parts with
  | case1 => cases h
  | case2 depth part rest ih =>
    rw [readGroup] at h
    have hinner := ih h hmem
    rw [List.count_cons] at hinner ⊢
    omega
  | case3 part rest =>
    rw [readGroup] at h
    cases h
    rw [List.mem_singleton.1 hmem, List.count_reverse, List.count_cons]
    omega
  | case4 part rest depth ih =>
    rw [readGroup] at h
    have hinner := ih h hmem
    rw [List.count_cons] at hinner ⊢
    omega
  | case5 part rest ih =>
    rw [readGroup] at h
    obtain ⟨⟨others, ending'⟩, hinner, heq⟩ := Option.map_eq_some_iff.1 h
    cases heq
    rw [List.count_cons]
    rcases List.mem_cons.1 hmem with rfl | hmem
    · obtain ⟨inside, rfl⟩ := readGroup_append hinner
      rw [List.count_reverse, List.count_append, List.count_cons]
      dsimp only
      omega
    · have hothers := ih hinner hmem
      rw [List.count_nil] at hothers
      omega
  | case6 part rest depth ih =>
    rw [readGroup] at h
    have hinner := ih h hmem
    rw [List.count_cons] at hinner ⊢
    omega
  | case7 depth part d rest hopen hclose hcomma ih =>
    rw [readGroup] at h
    · have hinner := ih h hmem
      rw [List.count_cons] at hinner ⊢
      omega
    · exact hopen
    · exact hclose
    · exact hcomma

theorem count_of_mem_expandGroups {n : Nat} {choice : Text} (h : choice ∈ expandGroups n t) :
    choice.count c ≤ t.count c := by
  induction n generalizing t with
  | zero => rw [List.mem_singleton.1 h]
  | succ n ih =>
    rw [expandGroups] at h
    split at h
    · rw [List.mem_singleton.1 h]
    case h_2 start rest hfirst =>
      split at h
      · rw [List.mem_singleton.1 h]
      case h_2 parts ending hgroup =>
        obtain ⟨part, hpart, hmem⟩ := List.mem_flatMap.1 h
        have hchoice := ih hmem
        have hgroup := count_of_readGroup (c := c) hgroup hpart
        rw [List.count_nil] at hgroup
        rw [(Text.splitFirst_eq_some hfirst).1]
        rw [List.count_append, List.count_append] at hchoice
        rw [List.count_append, List.count_cons]
        omega

/-- A choice of the braces of a text holds no more of a character than the text. -/
theorem count_of_mem_expand {choice : Text} (h : choice ∈ expandBraces t) (c : Char) :
    choice.count c ≤ t.count c :=
  count_of_mem_expandGroups h

/-! ## Signs -/

/-- How many slashes some signs stand for. -/
def slashes (signs : List PatternSign) : Nat := signs.count (.char '/')

theorem slashes_nil : slashes [] = 0 := List.count_nil

theorem slashes_cons_self (signs : List PatternSign) :
    slashes (.char '/' :: signs) = slashes signs + 1 :=
  List.count_cons_self

theorem slashes_cons_of_ne {sign : PatternSign} (h : sign ≠ .char '/')
    (signs : List PatternSign) : slashes (sign :: signs) = slashes signs :=
  List.count_cons_of_ne h

theorem slashes_reverse (signs : List PatternSign) : slashes signs.reverse = slashes signs :=
  List.count_reverse

theorem slashes_pushDeepStar (signs : List PatternSign) :
    slashes (pushDeepStar signs) = slashes signs := by
  rw [pushDeepStar.eq_def]
  split
  · rfl
  · exact slashes_cons_of_ne (by simp) _

theorem slashes_of_readSigns {steps : Nat} {last : Option Char} {signs out : List PatternSign}
    (h : readSigns steps last signs t = .ok out) : slashes out ≤ slashes signs + t.count '/' := by
  induction steps generalizing last signs t with
  | zero =>
    have hout : out = signs.reverse := by
      cases t <;> (cases h; rfl)
    rw [hout, slashes_reverse]
    exact Nat.le_add_right _ _
  | succ steps ih =>
    cases t with
    | nil =>
      cases h
      rw [slashes_reverse]
      exact Nat.le_add_right _ _
    | cons d rest =>
      unfold readSigns at h
      split at h
      · have hrest := ih h
        rw [slashes_cons_of_ne (by simp)] at hrest
        rw [List.count_cons_of_ne (by decide)]
        exact hrest
      · -- After a run of stars no more slashes are left than before it.
        have hsplit := List.takeWhile_append_dropWhile (p := (· = '*')) (l := rest)
        have hcount : (rest.dropWhile (· = '*')).count '/' ≤ rest.count '/' :=
          (List.dropWhile_sublist _).count_le _
        rw [List.count_cons_of_ne (by decide)]
        split at h
        · have hrest := ih h
          rw [slashes_cons_of_ne (by simp)] at hrest
          omega
        · split at h
          · split at h
            · have hrest := ih h
              rw [slashes_pushDeepStar, List.count_nil] at hrest
              omega
            case h_2 after hafter =>
              have hrest := ih h
              rw [slashes_pushDeepStar] at hrest
              rw [hafter, List.count_cons_self] at hcount
              omega
            · cases h
          · cases h
        · cases h
      · split at h
        case h_1 sign after hclass =>
          have hrest := ih h
          have hsign : slashes (sign :: signs) = slashes signs := by
            refine slashes_cons_of_ne ?_ _
            rintro rfl
            simp only [readClass] at hclass
            split at hclass <;> simp at hclass
          obtain ⟨inside, rfl⟩ := readClass_append hclass
          rw [hsign] at hrest
          rw [List.count_cons_of_ne (by decide), List.count_append,
            List.count_cons_of_ne (by decide)]
          omega
        · cases h
      · have hrest := ih h
        by_cases hd : d = '/'
        · rw [hd, slashes_cons_self] at hrest
          rw [hd, List.count_cons_self]
          omega
        · rw [slashes_cons_of_ne (by simpa using hd)] at hrest
          rw [List.count_cons_of_ne hd]
          exact hrest

/-- The signs of a pattern stand for no more slashes than the pattern has. -/
theorem slashes_of_readPattern {signs : List PatternSign} (h : readPattern t = .ok signs) :
    slashes signs ≤ t.count '/' := by
  have hsigns := slashes_of_readSigns h
  rwa [slashes_nil, Nat.zero_add] at hsigns

/-! ## Matches -/

theorem count_of_matchRun {rest : Bool → Text → MatchOutcome} {atStart : Bool}
    (h : matchRun false rest atStart t = .holds) :
    ∃ atStart' ending, t.count '/' = ending.count '/' ∧ rest atStart' ending = .holds := by
  induction t generalizing atStart with
  | nil => exact ⟨atStart, [], rfl, h⟩
  | cons d t ih =>
    rw [matchRun] at h
    split at h
    · cases h
    · split at h
      · cases h
      case isFalse hslash =>
        have hcount : (d :: t).count '/' = t.count '/' :=
          List.count_cons_of_ne (by simpa using hslash)
        rw [hcount]
        split at h
        · exact ih h
        · split at h
          · exact ih h
          · exact ⟨_, t, rfl, h⟩

theorem not_admits_slash {sign : PatternSign} (h : sign ≠ .char '/') (atStart : Bool) :
    sign.admits atStart '/' = false := by
  cases sign with
  | char d =>
    have hd : '/' ≠ d := fun heq => h (by rw [heq])
    exact decide_eq_false hd
  | _ => rfl

theorem count_of_matchSigns {signs : List PatternSign} (hdeep : .deepStar ∉ signs)
    {atStart : Bool} (h : matchSigns signs atStart t = .holds) : t.count '/' ≤ slashes signs := by
  induction signs generalizing atStart t with
  | nil =>
    rw [matchSigns] at h
    split at h
    case isTrue hempty =>
      rw [List.isEmpty_iff.1 hempty]
      exact Nat.le_refl 0
    case isFalse => cases h
  | cons sign signs ih =>
    rw [List.mem_cons, not_or] at hdeep
    -- Only the sign for a slash takes one, and it counts as one.
    have hone : ∀ {d : Char} {rest : Text}, sign.admits atStart d = true →
        matchSigns signs (d = '/') rest = .holds →
          (d :: rest).count '/' ≤ slashes (sign :: signs) := by
      intro d rest hadmits hrest
      have hbelow := ih hdeep.2 hrest
      by_cases hd : d = '/'
      · have hsign : sign = .char '/' := by
          by_contra hne
          rw [hd, not_admits_slash hne] at hadmits
          cases hadmits
        rw [hd, hsign, slashes_cons_self, List.count_cons_self]
        exact Nat.succ_le_succ hbelow
      · rw [List.count_cons_of_ne hd]
        exact Nat.le_trans hbelow (List.count_le_count_cons ..)
    cases sign with
    | deepStar => exact absurd rfl hdeep.1
    | star =>
      rw [slashes_cons_of_ne (by simp)]
      rw [matchSigns] at h
      split at h
      · obtain ⟨atStart', ending, hcount, hrest⟩ := count_of_matchRun h
        rw [hcount]
        exact ih hdeep.2 hrest
      · exact ih hdeep.2 h
    | _ =>
      cases t with
      | nil => cases h
      | cons d rest =>
        simp only [matchSigns] at h
        split at h
        case isTrue hadmits => exact hone hadmits h
        case isFalse => cases h

/-- A path that is matched by a choice of a pattern without `**` has no more slashes than the
pattern. -/
theorem count_of_matchesPath {pattern choice path : Text} {signs : List PatternSign}
    (hchoice : choice ∈ expandBraces pattern) (hread : readPattern choice = .ok signs)
    (hdeep : .deepStar ∉ signs) (h : matchesPath signs path = true) :
    path.count '/' ≤ pattern.count '/' :=
  calc path.count '/' ≤ slashes signs := count_of_matchSigns hdeep (of_decide_eq_true h)
    _ ≤ choice.count '/' := slashes_of_readPattern hread
    _ ≤ pattern.count '/' := count_of_mem_expand hchoice '/'

end Glob

end StyleImports
