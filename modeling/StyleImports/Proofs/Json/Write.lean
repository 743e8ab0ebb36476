import Mathlib.Tactic.IntervalCases
import StyleImports.Json.Read
import StyleImports.Json.Write

/-!
# What is written in JSON can be told apart

A written string reads back as its text (`readString_quoted`): every escape that is written is a
sign that stands for its character whatever follows. So a written string tells its text and where
it ends, and this carries over to arrays of texts and to objects whose members are texts
(`prefixFree_texts`, `prefixFree_textMembers`). Nothing that is written this way holds a control
character, since they are all escaped (`isPrintable_texts`, `isPrintable_textMembers`).
-/

set_option autoImplicit false

namespace StyleImports.Json

/-! ## Reading a written string -/

/-- A sign that stands for a character, whatever follows. -/
def Spells (sign : Nat ⊕ Char) (c : Char) : Prop :=
  ∀ signs, textOfSigns (sign :: signs) = (textOfSigns signs).map (c :: ·)

theorem spells_inr (c : Char) : Spells (.inr c) c := fun signs => by rw [textOfSigns]

/-- The code unit of a control character is no half of a surrogate pair. -/
theorem spells_inl {unit : Nat} (h : unit < 0x20) : Spells (.inl unit) (Char.ofNat unit) := by
  intro signs
  have hhigh : isHighHalf unit = false := by simp [isHighHalf]; omega
  have hlow : isLowHalf unit = false := by simp [isLowHalf]; omega
  rcases signs with _ | ⟨low | c, rest⟩ <;> simp [textOfSigns, hhigh, hlow]

theorem codeUnit?_hexPair {n : Nat} (h : n < 0x20) :
    codeUnit? '0' '0' (Nat.digitChar (n / 16)) (Nat.digitChar (n % 16)) = some n := by
  interval_cases n <;> rfl

theorem readSigns_escaped {c e : Char} (h : escaped? c = some e) (hu : c ≠ 'u') (rest : Text) :
    readSigns ('\\' :: c :: rest) =
      (readSigns rest).map fun read => (.inr e :: read.1, read.2) := by
  rw [readSigns]
  · rw [h]
  · intro a b c d tail hc
    exact absurd hc hu

theorem readSigns_escape (c : Char) :
    ∃ sign, Spells sign c ∧ ∀ rest, readSigns (escape c ++ rest) =
      (readSigns rest).map fun read => (sign :: read.1, read.2) := by
  unfold escape
  split
  case h_8 hquote hslash _ _ _ _ _ =>
    split
    case isTrue hcontrol =>
      refine ⟨.inl c.toNat, by simpa using spells_inl hcontrol, fun rest => ?_⟩
      simp only [hexPair, List.cons_append, List.nil_append, readSigns,
        codeUnit?_hexPair hcontrol]
    case isFalse hcontrol =>
      refine ⟨.inr c, spells_inr c, fun rest => ?_⟩
      have hplain : ¬ (c = '\\' || c.toNat < 0x20) := by
        simpa using ⟨hslash, Nat.not_lt.1 hcontrol⟩
      rw [List.singleton_append, readSigns]
      · rw [if_neg hquote, if_neg hplain]
      · exact fun _ _ _ _ _ h => absurd h hslash
      · exact fun _ _ h => absurd h hslash
  all_goals exact ⟨.inr _, spells_inr _, fun rest => readSigns_escaped rfl (by decide) rest⟩

theorem readSigns_quoted (t rest : Text) :
    ∃ signs, textOfSigns signs = some t ∧
      readSigns (t.flatMap escape ++ '\x22' :: rest) = some (signs, rest) := by
  induction t with
  | nil => exact ⟨[], rfl, by rw [List.flatMap_nil, List.nil_append, readSigns] <;> simp⟩
  | cons c t ih =>
    obtain ⟨signs, htext, hread⟩ := ih
    obtain ⟨sign, hspells, hsign⟩ := readSigns_escape c
    refine ⟨sign :: signs, ?_, ?_⟩
    · rw [hspells, htext, Option.map_some]
    · rw [List.flatMap_cons, List.append_assoc, hsign, hread, Option.map_some]

theorem readString_quoted (t rest : Text) :
    readString (t.flatMap escape ++ '\x22' :: rest) = some (some t, rest) := by
  obtain ⟨signs, htext, hread⟩ := readSigns_quoted t rest
  rw [readString, hread, Option.map_some, htext]

/-! ## Where a written value ends -/

/-- What is written tells the value and where it ends, whatever follows. -/
def PrefixFree {α : Type} (write : α → Text) : Prop :=
  ∀ ⦃a b : α⦄ ⦃x y : Text⦄, write a ++ x = write b ++ y → a = b ∧ x = y

theorem prefixFree_quoted : PrefixFree quoted := by
  intro s t x y h
  simp only [quoted, List.cons_append, List.append_assoc, List.nil_append,
    List.cons.injEq, true_and] at h
  have hread := congrArg readString h
  simpa [readString_quoted] using hread

/-- The values between commas, closed by a bracket. -/
def listed {α : Type} (close : Char) (write : α → Text) (as : List α) : Text :=
  commas (as.map write) ++ [close]

/-- What follows the first of several values between commas. -/
def afterFirst {α : Type} (close : Char) (write : α → Text) : List α → Text
  | [] => [close]
  | as => ',' :: listed close write as

theorem listed_cons {α : Type} (close : Char) (write : α → Text) (a : α) (as : List α) :
    listed close write (a :: as) = write a ++ afterFirst close write as := by
  cases as with
  | nil => rfl
  | cons b as => simp [listed, afterFirst, commas, Text.joinWith]

/-- Values that do not start with the closing bracket can be listed. -/
theorem PrefixFree.listed {α : Type} {write : α → Text} (h : PrefixFree write)
    {close opening : Char} (hopening : ∀ a, (write a).head? = some opening)
    (hclose : close ≠ opening) (hcomma : close ≠ ',') : PrefixFree (listed close write) := by
  have hstart : ∀ a as x, (Json.listed close write (a :: as) ++ x).head? = some opening := by
    intro a as x
    rw [listed_cons, List.append_assoc, List.head?_append, hopening, Option.some_or]
  intro as
  induction as with
  | nil =>
    rintro (_ | ⟨b, bs⟩) x y hlists
    · exact ⟨rfl, by simpa [Json.listed, commas, Text.joinWith] using hlists⟩
    · have hhead := congrArg List.head? hlists
      rw [hstart] at hhead
      exact absurd (Option.some.inj hhead) hclose
  | cons a as ih =>
    rintro (_ | ⟨b, bs⟩) x y hlists
    · have hhead := congrArg List.head? hlists
      rw [hstart] at hhead
      exact absurd (Option.some.inj hhead).symm hclose
    · rw [listed_cons, listed_cons, List.append_assoc, List.append_assoc] at hlists
      obtain ⟨rfl, hrest⟩ := h hlists
      cases as <;> cases bs
      case nil.nil => exact ⟨rfl, by simpa [afterFirst] using hrest⟩
      case cons.cons =>
        obtain ⟨hsame, hxy⟩ := ih (List.cons.inj hrest).2
        exact ⟨by rw [hsame], hxy⟩
      all_goals simp [afterFirst, hcomma, hcomma.symm] at hrest

def quotedMember (member : Text × Text) : Text := quoted member.1 ++ ':' :: quoted member.2

theorem prefixFree_quotedMember : PrefixFree quotedMember := by
  rintro ⟨n, v⟩ ⟨n', v'⟩ x y h
  simp only [quotedMember, List.append_assoc, List.cons_append] at h
  obtain ⟨rfl, hrest⟩ := prefixFree_quoted h
  obtain ⟨rfl, hxy⟩ := prefixFree_quoted (List.cons.inj hrest).2
  exact ⟨rfl, hxy⟩

theorem compactItems_eq (items : List Json) : compactItems items = items.map compact := by
  induction items with
  | nil => rfl
  | cons item rest ih => rw [compactItems, ih, List.map_cons]

theorem compactMembers_eq (members : List (JsonString × Json)) :
    compactMembers members =
      members.map fun member => writeString member.1 ++ ':' :: compact member.2 := by
  induction members with
  | nil => rfl
  | cons member rest ih => rw [compactMembers, ih, List.map_cons]

theorem compact_texts (ts : List Text) :
    compact (.arr (ts.map ofText)) = '[' :: listed ']' quoted ts := by
  rw [compact, compactItems_eq, List.map_map]
  rfl

theorem compact_textMembers (members : List (Text × Text)) :
    compact (ofMembers (members.map fun member => (member.1, ofText member.2))) =
      '{' :: listed '}' quotedMember members := by
  rw [ofMembers, compact, compactMembers_eq, List.map_map, List.map_map]
  rfl

theorem prefixFree_texts : PrefixFree fun ts : List Text => compact (.arr (ts.map ofText)) := by
  intro ts ts' x y h
  simp only [compact_texts] at h
  exact prefixFree_quoted.listed (fun _ => rfl) (by decide) (by decide) (List.cons.inj h).2

theorem prefixFree_textMembers : PrefixFree fun members : List (Text × Text) =>
    compact (ofMembers (members.map fun member => (member.1, ofText member.2))) := by
  intro ms ms' x y h
  simp only [compact_textMembers] at h
  exact prefixFree_quotedMember.listed (fun _ => rfl) (by decide) (by decide) (List.cons.inj h).2

/-! ## No control characters -/

def IsPrintable (t : Text) : Prop := ∀ c ∈ t, 0x20 ≤ c.toNat

instance (t : Text) : Decidable (IsPrintable t) :=
  List.decidableBAll (fun c : Char => 0x20 ≤ c.toNat) t

theorem IsPrintable.append {s t : Text} (hs : IsPrintable s) (ht : IsPrintable t) :
    IsPrintable (s ++ t) := fun c hc => (List.mem_append.1 hc).elim (hs c) (ht c)

theorem IsPrintable.cons {c : Char} {t : Text} (hc : 0x20 ≤ c.toNat) (ht : IsPrintable t) :
    IsPrintable (c :: t) := List.forall_mem_cons.2 ⟨hc, ht⟩

theorem isPrintable_hexPair {c : Char} (h : c.toNat < 0x20) : IsPrintable (hexPair c) := by
  unfold hexPair
  generalize c.toNat = n at h
  interval_cases n <;> decide

theorem isPrintable_escape (c : Char) : IsPrintable (escape c) := by
  unfold escape
  split
  case h_8 =>
    split
    case isTrue h =>
      have hpair := isPrintable_hexPair h
      exact .cons (by decide) (.cons (by decide) (.cons (by decide) (.cons (by decide) hpair)))
    case isFalse h => exact .cons (Nat.not_lt.1 h) (by simp [IsPrintable])
  all_goals decide

theorem isPrintable_quoted (t : Text) : IsPrintable (quoted t) := by
  have hsigns : IsPrintable (t.flatMap escape) := by
    intro c hc
    obtain ⟨d, -, hd⟩ := List.mem_flatMap.1 hc
    exact isPrintable_escape d c hd
  exact .cons (by decide) (hsigns.append (.cons (by decide) (by simp [IsPrintable])))

theorem isPrintable_listed {α : Type} {write : α → Text} (h : ∀ a, IsPrintable (write a))
    {close : Char} (hclose : 0x20 ≤ close.toNat) (as : List α) :
    IsPrintable (listed close write as) := by
  have hend : IsPrintable [close] := .cons hclose (by simp [IsPrintable])
  induction as with
  | nil => exact hend
  | cons a as ih =>
    rw [listed_cons]
    refine (h a).append ?_
    cases as with
    | nil => exact hend
    | cons b as => exact .cons (by decide) ih

theorem isPrintable_texts (ts : List Text) : IsPrintable (compact (.arr (ts.map ofText))) := by
  rw [compact_texts]
  exact .cons (by decide) (isPrintable_listed isPrintable_quoted (by decide) ts)

theorem isPrintable_textMembers (members : List (Text × Text)) : IsPrintable
    (compact (ofMembers (members.map fun member => (member.1, ofText member.2)))) := by
  rw [compact_textMembers]
  refine .cons (by decide) (isPrintable_listed (fun member => ?_) (by decide) members)
  exact (isPrintable_quoted _).append (.cons (by decide) (isPrintable_quoted _))

end StyleImports.Json
