import StyleImports.Proofs.Glob.Depth

/-!
# The choices of braces

A text whose braces are balanced (`IsBalanced`) stands for the texts that are left when one
alternative is chosen in every group (`Chooses`). Wherever a group is opened in such a text it can
be read (`exists_group`), and reading gives the alternatives it is written with
(`readGroup_joinWith`), so a text has one decomposition into characters and groups. An expansion
that keeps the numbers of the alternatives (`pickGroups`) lists every choice once, the first group
varying slowest (`mem_pickGroups`, `pairwise_pickGroups`), and without the numbers it is the
expansion (`map_pickGroups`).
-/

set_option autoImplicit false

namespace StyleImports

namespace Glob

/-! ## Balanced texts -/

/-- How many groups are open after a text if so many were open before it; none if it closes one that
is not open. -/
def depthAfter : Nat → Text → Option Nat
  | depth, [] => some depth
  | depth, '{' :: t => depthAfter (depth + 1) t
  | 0, '}' :: _ => none
  | depth + 1, '}' :: t => depthAfter depth t
  | depth, _ :: t => depthAfter depth t

/-- Every brace has its partner. -/
def IsBalanced (t : Text) : Prop := depthAfter 0 t = some 0

instance (t : Text) : Decidable (IsBalanced t) :=
  inferInstanceAs (Decidable (depthAfter 0 t = some 0))

/-- What is left of an alternative inside so many open groups of its own: it closes them all, and no
comma of it is outside its own groups. -/
inductive RestOfAlternative : Nat → Text → Prop where
  | nil : RestOfAlternative 0 []
  | opening {depth : Nat} {t : Text} :
      RestOfAlternative (depth + 1) t → RestOfAlternative depth ('{' :: t)
  | closing {depth : Nat} {t : Text} :
      RestOfAlternative depth t → RestOfAlternative (depth + 1) ('}' :: t)
  | comma {depth : Nat} {t : Text} :
      RestOfAlternative (depth + 1) t → RestOfAlternative (depth + 1) (',' :: t)
  | char {depth : Nat} {c : Char} {t : Text} : c ≠ '{' → c ≠ '}' → c ≠ ',' →
      RestOfAlternative depth t → RestOfAlternative depth (c :: t)

/-- What can stand between the commas of a group. -/
def IsAlternative (t : Text) : Prop := RestOfAlternative 0 t

/-- A choice of one alternative in every group of a text: the numbers of the alternatives from left
to right, the groups of an alternative right behind its own number, and the text that is left. -/
inductive Chooses : Text → List Nat → Text → Prop where
  | nil : Chooses [] [] []
  | char {c : Char} {t x : Text} {picks : List Nat} :
      c ≠ '{' → c ≠ '}' → Chooses t picks x → Chooses (c :: t) picks (c :: x)
  | group {parts : List Text} {i : Nat} {part t x y : Text} {inner picks : List Nat} :
      (∀ part ∈ parts, IsAlternative part) → parts[i]? = some part →
      Chooses part inner x → Chooses t picks y →
      Chooses ('{' :: (Text.joinWith ',' parts ++ '}' :: t)) (i :: (inner ++ picks)) (x ++ y)

/-- The first number in which two choices differ is the smaller one in the first of them. -/
def PicksBefore (picks others : List Nat) : Prop :=
  ∃ front i j rest rest', picks = front ++ i :: rest ∧ others = front ++ j :: rest' ∧ i < j

variable {c : Char} {s t x start rest part ending : Text} {parts : List Text} {picks : List Nat}
  {depth n : Nat}

@[simp] theorem depthAfter_nil (depth : Nat) : depthAfter depth [] = some depth := by
  rw [depthAfter]

@[simp] theorem depthAfter_open (depth : Nat) (t : Text) :
    depthAfter depth ('{' :: t) = depthAfter (depth + 1) t := by
  rw [depthAfter]

@[simp] theorem depthAfter_close (depth : Nat) (t : Text) :
    depthAfter (depth + 1) ('}' :: t) = depthAfter depth t := by
  rw [depthAfter]

@[simp] theorem depthAfter_zero_close (t : Text) : depthAfter 0 ('}' :: t) = none := by
  rw [depthAfter]

theorem depthAfter_cons (hopen : c ≠ '{') (hclose : c ≠ '}') (depth : Nat) (t : Text) :
    depthAfter depth (c :: t) = depthAfter depth t := by
  rw [depthAfter]
  · exact hopen
  · exact fun _ => hclose
  · exact fun _ _ => hclose

theorem depthAfter_append (depth : Nat) (s t : Text) :
    depthAfter depth (s ++ t) = (depthAfter depth s).bind fun inner => depthAfter inner t := by
  induction depth, s using depthAfter.induct with
  | case1 depth => simp
  | case2 depth s ih => simpa using ih
  | case3 s => simp
  | case4 depth s ih => simpa using ih
  | case5 depth c s hopen hzero hsucc ih =>
    have hclose : c ≠ '}' := fun hc => by
      cases depth with
      | zero => exact hzero rfl hc
      | succ depth => exact hsucc depth rfl hc
    rw [List.cons_append, depthAfter_cons hopen hclose, depthAfter_cons hopen hclose]
    exact ih

theorem depthAfter_append_of_not_mem (hopen : '{' ∉ start) (hclose : '}' ∉ start) (depth : Nat)
    (t : Text) : depthAfter depth (start ++ t) = depthAfter depth t := by
  induction start with
  | nil => rfl
  | cons c start ih =>
    rw [List.mem_cons, not_or] at hopen hclose
    rw [List.cons_append, depthAfter_cons (Ne.symm hopen.1) (Ne.symm hclose.1)]
    exact ih hopen.2 hclose.2

/-- In front of its first group a balanced text closes none. -/
theorem IsBalanced.not_mem (h : IsBalanced (start ++ t)) (hopen : '{' ∉ start) :
    '}' ∉ start := by
  induction start with
  | nil => exact List.not_mem_nil
  | cons c start ih =>
    rw [List.mem_cons, not_or] at hopen
    have hclose : c ≠ '}' := by
      rintro rfl
      rw [IsBalanced, List.cons_append, depthAfter_zero_close] at h
      cases h
    rw [IsBalanced, List.cons_append, depthAfter_cons (Ne.symm hopen.1) hclose] at h
    exact List.not_mem_cons_of_ne_of_not_mem (Ne.symm hclose) (ih h hopen.2)

theorem RestOfAlternative.depthAfter_eq (h : RestOfAlternative depth t) :
    depthAfter depth t = some 0 := by
  induction h with
  | nil => simp
  | opening _ ih => simpa using ih
  | closing _ ih => simpa using ih
  | comma _ ih => simpa [depthAfter_cons] using ih
  | char hopen hclose _ _ ih => simpa [depthAfter_cons hopen hclose] using ih

/-- What follows an alternative is balanced if both are together. -/
theorem depthAfter_append_alternative (h : IsAlternative part) (t : Text) :
    depthAfter 0 (part ++ t) = depthAfter 0 t := by
  rw [depthAfter_append, h.depthAfter_eq]
  rfl

/-! ## Reading a group -/

theorem readGroup_append_rest (h : RestOfAlternative depth s) (part t : Text) :
    readGroup depth part (s ++ t) = readGroup 0 (s.reverse ++ part) t := by
  induction h generalizing part with
  | nil => rfl
  | opening _ ih => simpa [readGroup] using ih ('{' :: part)
  | closing _ ih => simpa [readGroup] using ih ('}' :: part)
  | comma _ ih => simpa [readGroup] using ih (',' :: part)
  | @char depth c t hopen hclose hcomma _ ih =>
    rw [List.cons_append, readGroup]
    · simpa using ih (c :: part)
    · exact hopen
    · exact hclose
    · exact hcomma

theorem readGroup_joinWith (hne : parts ≠ []) (h : ∀ part ∈ parts, IsAlternative part)
    (ending : Text) :
    readGroup 0 [] (Text.joinWith ',' parts ++ '}' :: ending) = some (parts, ending) := by
  induction parts with
  | nil => exact absurd rfl hne
  | cons part parts ih =>
    rw [List.forall_mem_cons] at h
    cases parts with
    | nil =>
      rw [Text.joinWith, readGroup_append_rest h.1, readGroup]
      simp
    | cons next parts =>
      rw [Text.joinWith, List.append_assoc, readGroup_append_rest h.1, List.cons_append, readGroup,
        ih (List.cons_ne_nil _ _) h.2]
      simp

/-- The first alternative of an open group goes up to a comma or to the closing brace. -/
theorem exists_rest_of_closed (h : depthAfter (depth + 1) t = some 0) :
    ∃ s sep rest, t = s ++ sep :: rest ∧ RestOfAlternative depth s ∧
      (sep = '}' ∧ IsBalanced rest ∨ sep = ',' ∧ depthAfter 1 rest = some 0) := by
  induction t generalizing depth with
  | nil => simp at h
  | cons c t ih =>
    by_cases hopen : c = '{'
    · subst hopen
      obtain ⟨s, sep, rest, rfl, hs, hrest⟩ := ih (by simpa using h)
      exact ⟨'{' :: s, sep, rest, rfl, hs.opening, hrest⟩
    by_cases hclose : c = '}'
    · subst hclose
      rw [depthAfter_close] at h
      cases depth with
      | zero => exact ⟨[], '}', t, rfl, .nil, .inl ⟨rfl, h⟩⟩
      | succ depth =>
        obtain ⟨s, sep, rest, rfl, hs, hrest⟩ := ih h
        exact ⟨'}' :: s, sep, rest, rfl, hs.closing, hrest⟩
    rw [depthAfter_cons hopen hclose] at h
    by_cases hcomma : c = ','
    · subst hcomma
      cases depth with
      | zero => exact ⟨[], ',', t, rfl, .nil, .inr ⟨rfl, h⟩⟩
      | succ depth =>
        obtain ⟨s, sep, rest, rfl, hs, hrest⟩ := ih h
        exact ⟨',' :: s, sep, rest, rfl, hs.comma, hrest⟩
    · obtain ⟨s, sep, rest, rfl, hs, hrest⟩ := ih h
      exact ⟨c :: s, sep, rest, rfl, hs.char hopen hclose hcomma, hrest⟩

/-- A group that is opened in a balanced text is a list of alternatives up to its closing brace. -/
theorem exists_group (h : depthAfter 1 t = some 0) :
    ∃ parts ending, parts ≠ [] ∧ (∀ part ∈ parts, IsAlternative part) ∧
      t = Text.joinWith ',' parts ++ '}' :: ending ∧ IsBalanced ending := by
  induction hlen : t.length using Nat.strong_induction_on generalizing t with
  | h len ih =>
    obtain ⟨s, sep, rest, rfl, hs, ⟨rfl, hrest⟩ | ⟨rfl, hrest⟩⟩ := exists_rest_of_closed h
    · exact ⟨[s], rest, List.cons_ne_nil _ _, List.forall_mem_singleton.2 hs, rfl, hrest⟩
    · obtain ⟨parts, ending, hne, hparts, rfl, hending⟩ :=
        ih _ (by rw [← hlen]; simp; omega) hrest rfl
      have hjoin : Text.joinWith ',' (s :: parts) = s ++ ',' :: Text.joinWith ',' parts :=
        Text.joinWith_append (List.cons_ne_nil s []) hne
      refine ⟨s :: parts, ending, List.cons_ne_nil _ _, List.forall_mem_cons.2 ⟨hs, hparts⟩, ?_,
        hending⟩
      rw [hjoin, List.append_assoc, List.cons_append]

/-! ## Choices -/

theorem PicksBefore.cons {others : List Nat} (h : PicksBefore picks others) (i : Nat) :
    PicksBefore (i :: picks) (i :: others) := by
  obtain ⟨front, j, k, rest, rest', rfl, rfl, hlt⟩ := h
  exact ⟨i :: front, j, k, rest, rest', rfl, rfl, hlt⟩

theorem chooses_nil : Chooses [] picks x ↔ picks = [] ∧ x = [] := by
  constructor
  · rintro ⟨⟩
    exact ⟨rfl, rfl⟩
  · rintro ⟨rfl, rfl⟩
    exact .nil

theorem chooses_cons (hopen : c ≠ '{') (hclose : c ≠ '}') :
    Chooses (c :: t) picks x ↔ ∃ y, x = c :: y ∧ Chooses t picks y := by
  constructor
  · intro h
    generalize htext : c :: t = text at h
    cases h with
    | nil => cases htext
    | char _ _ hrest =>
      cases htext
      exact ⟨_, rfl, hrest⟩
    | group => exact absurd (List.cons.inj htext).1 hopen
  · rintro ⟨y, rfl, hrest⟩
    exact .char hopen hclose hrest

theorem chooses_append_of_not_mem (hopen : '{' ∉ start) (hclose : '}' ∉ start) :
    Chooses (start ++ t) picks x ↔ ∃ y, x = start ++ y ∧ Chooses t picks y := by
  induction start generalizing x with
  | nil => simp
  | cons c start ih =>
    rw [List.mem_cons, not_or] at hopen hclose
    rw [List.cons_append, chooses_cons (Ne.symm hopen.1) (Ne.symm hclose.1)]
    simp only [ih hopen.2 hclose.2]
    constructor
    · rintro ⟨_, rfl, y, rfl, hy⟩
      exact ⟨y, rfl, hy⟩
    · rintro ⟨y, rfl, hy⟩
      exact ⟨_, rfl, y, rfl, hy⟩

theorem chooses_of_not_mem (hopen : '{' ∉ t) (ht : IsBalanced t) :
    Chooses t picks x ↔ picks = [] ∧ x = t := by
  rw [← List.append_nil t] at ht ⊢
  rw [chooses_append_of_not_mem hopen (ht.not_mem hopen)]
  simp [chooses_nil, and_comm]

/-- A choice of a text that begins with a group is one of an alternative and one of what follows the
group. -/
theorem chooses_group (hne : parts ≠ []) (hparts : ∀ part ∈ parts, IsAlternative part) :
    Chooses ('{' :: (Text.joinWith ',' parts ++ '}' :: t)) picks x ↔
      ∃ i part inner outer y z, parts[i]? = some part ∧ Chooses part inner y ∧
        Chooses t outer z ∧ picks = i :: (inner ++ outer) ∧ x = y ++ z := by
  constructor
  · intro h
    -- The same text read as another group gives the same alternatives.
    generalize htext : '{' :: (Text.joinWith ',' parts ++ '}' :: t) = text at h
    cases h with
    | nil => cases htext
    | char hopen => exact absurd (List.cons.inj htext).1.symm hopen
    | @group parts' i part t' y z inner outer hparts' hpart hinner houter =>
      have hne' : parts' ≠ [] := List.ne_nil_of_mem (List.mem_of_getElem? hpart)
      have hread := readGroup_joinWith hne hparts t
      rw [(List.cons.inj htext).2, readGroup_joinWith hne' hparts' t'] at hread
      cases hread
      exact ⟨i, part, inner, outer, y, z, hpart, hinner, houter, rfl, rfl⟩
  · rintro ⟨i, part, inner, outer, y, z, hpart, hinner, houter, rfl, rfl⟩
    exact .group hparts hpart hinner houter

/-- A choice of two texts is a choice of each if the first one is balanced. -/
theorem chooses_append (hs : IsBalanced s) :
    Chooses (s ++ t) picks x ↔
      ∃ inner outer y z, Chooses s inner y ∧ Chooses t outer z ∧ picks = inner ++ outer ∧
        x = y ++ z := by
  induction hlen : s.length using Nat.strong_induction_on generalizing s picks x with
  | h len ih =>
    cases s with
    | nil => simp [chooses_nil]
    | cons c s =>
      by_cases hopen : c = '{'
      · subst hopen
        rw [IsBalanced, depthAfter_open] at hs
        -- The first group ends within `s`, and what follows it is shorter and balanced.
        obtain ⟨parts, ending, hne, hparts, rfl, hending⟩ := exists_group hs
        have hlt : ending.length < len := by
          rw [← hlen]
          simp
          omega
        simp only [List.cons_append, List.append_assoc]
        simp only [chooses_group hne hparts, ih _ hlt hending rfl]
        constructor
        · rintro ⟨i, part, first, _, y, _, hpart, hfirst, hrest, rfl, rfl⟩
          obtain ⟨inner, outer, z, w, hinner, houter, rfl, rfl⟩ := hrest
          exact ⟨_, outer, _, w, ⟨i, part, first, inner, y, z, hpart, hfirst, hinner, rfl, rfl⟩,
            houter, by simp, by simp⟩
        · rintro ⟨_, outer, _, w, ⟨i, part, first, inner, y, z, hpart, hfirst, hinner, rfl, rfl⟩,
            houter, rfl, rfl⟩
          exact ⟨i, part, first, _, y, _, hpart, hfirst,
            ⟨inner, outer, z, w, hinner, houter, rfl, rfl⟩, by simp, by simp⟩
      · have hclose : c ≠ '}' := by
          rintro rfl
          rw [IsBalanced, depthAfter_zero_close] at hs
          cases hs
        rw [IsBalanced, depthAfter_cons hopen hclose] at hs
        simp only [List.cons_append, chooses_cons hopen hclose]
        simp only [ih s.length (by simp [← hlen]) hs rfl]
        constructor
        · rintro ⟨_, rfl, inner, outer, y, z, hinner, houter, rfl, rfl⟩
          exact ⟨inner, outer, _, z, ⟨y, rfl, hinner⟩, houter, rfl, rfl⟩
        · rintro ⟨inner, outer, _, z, ⟨y, rfl, hinner⟩, houter, rfl, rfl⟩
          exact ⟨_, rfl, inner, outer, y, z, hinner, houter, rfl, rfl⟩

theorem Chooses.not_mem (h : Chooses t picks x) : '{' ∉ x ∧ '}' ∉ x := by
  induction h with
  | nil => exact ⟨List.not_mem_nil, List.not_mem_nil⟩
  | char hopen hclose _ ih =>
    exact ⟨List.not_mem_cons_of_ne_of_not_mem (Ne.symm hopen) ih.1,
      List.not_mem_cons_of_ne_of_not_mem (Ne.symm hclose) ih.2⟩
  | group _ _ _ _ hinner houter =>
    simp only [List.mem_append, not_or]
    exact ⟨⟨hinner.1, houter.1⟩, hinner.2, houter.2⟩

/-! ## The expansion -/

theorem count_of_splitFirst (hfirst : Text.splitFirst '{' t = some (start, rest))
    (hgroup : readGroup 0 [] rest = some (parts, ending)) (hpart : part ∈ parts) :
    (start ++ part ++ ending).count '{' < t.count '{' := by
  have hcount := count_of_readGroup (c := '{') hgroup hpart
  rw [List.count_nil] at hcount
  rw [(Text.splitFirst_eq_some hfirst).1, List.count_append, List.count_append, List.count_append,
    List.count_cons_self]
  omega

/-- As many steps as the text has opening braces are enough. -/
theorem expandGroups_of_count_le {m : Nat} (hn : t.count '{' ≤ n) (hm : t.count '{' ≤ m) :
    expandGroups n t = expandGroups m t := by
  induction n generalizing m t with
  | zero =>
    have hnone : Text.splitFirst '{' t = none := by
      rw [Text.splitFirst_eq_none, ← List.count_eq_zero]
      omega
    cases m with
    | zero => rfl
    | succ m => rw [expandGroups, expandGroups, hnone]
  | succ n ih =>
    cases m with
    | zero =>
      have hnone : Text.splitFirst '{' t = none := by
        rw [Text.splitFirst_eq_none, ← List.count_eq_zero]
        omega
      rw [expandGroups, expandGroups, hnone]
    | succ m =>
      rw [expandGroups, expandGroups]
      split
      · rfl
      case h_2 start rest hfirst =>
        split
        · rfl
        case h_2 parts ending hgroup =>
          rw [List.flatMap_def, List.flatMap_def]
          congr 1
          refine List.map_congr_left fun part hpart => ?_
          have hlt := count_of_splitFirst hfirst hgroup hpart
          exact ih (by omega) (by omega)

/-- The expansion of a text, with the numbers of the alternatives that are taken. -/
def pickGroups : Nat → Text → List (List Nat × Text)
  | 0, t => [([], t)]
  | n + 1, t =>
    match Text.splitFirst '{' t with
    | none => [([], t)]
    | some (start, rest) =>
      match readGroup 0 [] rest with
      | none => [([], t)]
      | some (parts, ending) =>
        parts.zipIdx.flatMap fun pick => (pickGroups n (start ++ pick.1 ++ ending)).map
          fun choice => (pick.2 :: choice.1, choice.2)

theorem map_pickGroups (n : Nat) (t : Text) :
    (pickGroups n t).map (fun choice => choice.2) = expandGroups n t := by
  induction n generalizing t with
  | zero => rfl
  | succ n ih =>
    cases hfirst : Text.splitFirst '{' t with
    | none =>
      simp only [pickGroups, expandGroups, hfirst]
      rfl
    | some cut =>
      obtain ⟨start, rest⟩ := cut
      cases hgroup : readGroup 0 [] rest with
      | none =>
        simp only [pickGroups, expandGroups, hfirst, hgroup]
        rfl
      | some group =>
        obtain ⟨parts, ending⟩ := group
        simp only [pickGroups, expandGroups, hfirst, hgroup, List.map_flatMap, List.map_map,
          Function.comp_def, ih]
        -- The numbers play no part any more.
        conv_rhs => rw [← List.zipIdx_map_fst 0 parts, List.flatMap_map]

/-- The choices are listed with the first group varying slowest. -/
theorem pairwise_pickGroups (n : Nat) (t : Text) :
    (pickGroups n t).Pairwise fun a b => PicksBefore a.1 b.1 := by
  induction n generalizing t with
  | zero => exact List.pairwise_singleton _ _
  | succ n ih =>
    rw [pickGroups]
    split
    · exact List.pairwise_singleton _ _
    · split
      · exact List.pairwise_singleton _ _
      case h_2 start _ _ _ parts ending _ =>
        rw [List.pairwise_flatMap]
        constructor
        · intro pick _
          rw [List.pairwise_map]
          exact (ih _).imp fun h => h.cons pick.2
        · have hnumbers : parts.zipIdx.Pairwise fun a b => a.2 < b.2 := by
            rw [← List.pairwise_map (f := Prod.snd), List.zipIdx_map_snd]
            exact List.pairwise_lt_range'
          refine hnumbers.imp fun {first second} hlt a ha b hb => ?_
          obtain ⟨_, _, rfl⟩ := List.mem_map.1 ha
          obtain ⟨_, _, rfl⟩ := List.mem_map.1 hb
          exact ⟨[], first.2, second.2, _, _, rfl, rfl, hlt⟩

/-- Enough steps list the choices of a balanced text. -/
theorem mem_pickGroups (hn : t.count '{' ≤ n) (ht : IsBalanced t) :
    (picks, x) ∈ pickGroups n t ↔ Chooses t picks x := by
  induction n generalizing t picks x with
  | zero =>
    rw [pickGroups, List.mem_singleton, Prod.mk.injEq, chooses_of_not_mem _ ht]
    rw [← List.count_eq_zero]
    omega
  | succ n ih =>
    cases hfirst : Text.splitFirst '{' t with
    | none =>
      rw [chooses_of_not_mem (Text.splitFirst_eq_none.1 hfirst) ht]
      simp [pickGroups, hfirst]
    | some cut =>
      obtain ⟨start, rest⟩ := cut
      obtain ⟨rfl, hopen⟩ := Text.splitFirst_eq_some hfirst
      have hclose := ht.not_mem hopen
      rw [IsBalanced, depthAfter_append_of_not_mem hopen hclose, depthAfter_open] at ht
      obtain ⟨parts, ending, hne, hparts, rfl, hending⟩ := exists_group ht
      have hgroup := readGroup_joinWith hne hparts ending
      -- What is left after one alternative is chosen in the first group.
      have hstep : ∀ part ∈ parts, ∀ {picks x},
          (picks, x) ∈ pickGroups n (start ++ part ++ ending) ↔
            ∃ y, x = start ++ y ∧ ∃ inner outer z w, Chooses part inner z ∧
              Chooses ending outer w ∧ picks = inner ++ outer ∧ y = z ++ w := by
        intro part hpart picks x
        have hlt := count_of_splitFirst hfirst hgroup hpart
        rw [ih (by omega), List.append_assoc, chooses_append_of_not_mem hopen hclose]
        · simp only [chooses_append (hparts part hpart).depthAfter_eq]
        · rw [IsBalanced, List.append_assoc, depthAfter_append_of_not_mem hopen hclose,
            depthAfter_append_alternative (hparts part hpart)]
          exact hending
      rw [chooses_append_of_not_mem hopen hclose]
      simp only [chooses_group hne hparts]
      simp only [pickGroups, hfirst, hgroup, List.mem_flatMap, List.mem_map]
      constructor
      · rintro ⟨⟨part, i⟩, hpick, ⟨picks, x⟩, hchoice, heq⟩
        cases heq
        rw [List.mk_mem_zipIdx_iff_getElem?] at hpick
        obtain ⟨y, rfl, inner, outer, z, w, hinner, houter, rfl, rfl⟩ :=
          (hstep part (List.mem_of_getElem? hpick)).1 hchoice
        exact ⟨_, rfl, i, part, inner, outer, z, w, hpick, hinner, houter, rfl, rfl⟩
      · rintro ⟨_, rfl, i, part, inner, outer, z, w, hpick, hinner, houter, rfl, rfl⟩
        refine ⟨(part, i), List.mk_mem_zipIdx_iff_getElem?.2 hpick, (inner ++ outer, _), ?_, rfl⟩
        exact (hstep part (List.mem_of_getElem? hpick)).2
          ⟨_, rfl, inner, outer, z, w, hinner, houter, rfl, rfl⟩

/-- The expansion of a text with balanced braces lists the texts that are left by every choice of
one alternative in each group, each choice once and with the first group varying slowest; none of
them holds a brace. More steps than the text has opening braces change nothing, whatever the text,
and no text of an expansion has more slashes than the text that is expanded. -/
theorem expandBraces_choices (t : Text) :
    (∀ n, t.count '{' ≤ n → expandGroups n t = expandBraces t) ∧
      (∀ x ∈ expandBraces t, x.count '/' ≤ t.count '/') ∧
      (IsBalanced t → ∃ choices : List (List Nat × Text),
        expandBraces t = choices.map (fun choice => choice.2) ∧
          (∀ picks x, (picks, x) ∈ choices ↔ Chooses t picks x) ∧
          choices.Pairwise (fun a b => PicksBefore a.1 b.1) ∧
          ∀ x ∈ expandBraces t, '{' ∉ x ∧ '}' ∉ x) := by
  refine ⟨fun n hn => expandGroups_of_count_le hn (Nat.le_refl _),
    fun x hx => count_of_mem_expand hx '/', fun ht => ?_⟩
  have hlist : expandBraces t = (pickGroups (t.count '{') t).map (fun choice => choice.2) :=
    (map_pickGroups _ t).symm
  have hmem : ∀ picks x, (picks, x) ∈ pickGroups (t.count '{') t ↔ Chooses t picks x :=
    fun picks x => mem_pickGroups (Nat.le_refl _) ht
  refine ⟨_, hlist, hmem, pairwise_pickGroups _ t, fun x hx => ?_⟩
  rw [hlist] at hx
  obtain ⟨⟨picks, x⟩, hchoice, rfl⟩ := List.mem_map.1 hx
  exact ((hmem picks x).1 hchoice).not_mem

/-- A group inside an alternative, an empty alternative and a comma outside the groups. -/
def nestedPattern : Text := "x/\x7ba,\x7bb,c\x7d\x7d\x7b,d\x7d,"

theorem expandBraces_choices_nested :
    IsBalanced nestedPattern ∧ ∃ choices : List (List Nat × Text),
      expandBraces nestedPattern = choices.map (fun choice => choice.2) ∧
        (∀ picks x, (picks, x) ∈ choices ↔ Chooses nestedPattern picks x) ∧
        choices.Pairwise (fun a b => PicksBefore a.1 b.1) ∧
        ∀ x ∈ expandBraces nestedPattern, '{' ∉ x ∧ '}' ∉ x := by
  have hbalanced : IsBalanced nestedPattern := by decide
  exact ⟨hbalanced, (expandBraces_choices nestedPattern).2.2 hbalanced⟩

example : expandBraces nestedPattern =
    (["x/a,", "x/ad,", "x/b,", "x/bd,", "x/c,", "x/cd,"] : List Text) := by
  decide +kernel

end Glob

end StyleImports
