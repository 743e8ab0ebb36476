import StyleImports.Glob.Basic
import StyleImports.Proofs.Path.Parent

/-!
# Where dynamic specifiers are cut

A text is dynamic as soon as a part of it is (`isDynamic_of_isInfix`), so no static directory goes
past a dynamic segment. A specifier is cut into static segments and a rest that starts with a
dynamic segment or is the last segment alone (`Cut`), and this says what the cut is
(`Cut.ofSpecifier_eq`).

A cut should leave the longest static directory in front of the pattern (`IsSplit`). It does, unless
a group goes over a slash, so that a directory of static segments is dynamic as a whole, or the
pattern is right below the root, which is taken for no directory (`isSplit_iff`).
-/

set_option autoImplicit false

namespace StyleImports

theorem Text.splitOn_eq_append {sep : Char} {t before after : Text}
    (h : t = before ++ sep :: after) :
    splitOn sep t = splitOn sep before ++ splitOn sep after := by
  rw [h, splitOn_append_sep]

theorem Text.joinWith_isPrefix (sep : Char) (parts more : List Text) :
    joinWith sep parts <+: joinWith sep (parts ++ more) := by
  by_cases hparts : parts = []
  · rw [hparts]
    exact List.nil_prefix
  · by_cases hmore : more = []
    · refine ⟨[], ?_⟩
      rw [hmore, List.append_nil, List.append_nil]
    · exact ⟨sep :: joinWith sep more, (joinWith_append hparts hmore).symm⟩

namespace Glob

variable {s t : Text}

/-! ## Dynamic texts -/

theorem hasGroup_iff {opening closing : Char} :
    hasGroup opening closing t = true ↔ ∃ a b, t = a ++ opening :: b ∧ closing ∈ b := by
  induction t with
  | nil => simp [hasGroup]
  | cons c t ih =>
    by_cases hc : c = opening
    · subst hc
      have hgroup : hasGroup c closing (c :: t) = decide (closing ∈ t) := by simp [hasGroup]
      rw [hgroup, decide_eq_true_iff]
      constructor
      · exact fun hmem => ⟨[], t, rfl, hmem⟩
      · rintro ⟨a, b, heq, hmem⟩
        cases a with
        | nil =>
          cases heq
          exact hmem
        | cons d a =>
          rw [(List.cons.inj heq).2]
          exact List.mem_append_right a (List.mem_cons_of_mem c hmem)
    · have hgroup : hasGroup opening closing (c :: t) = hasGroup opening closing t := by
        simp [hasGroup, hc]
      rw [hgroup, ih]
      constructor
      · rintro ⟨a, b, rfl, hmem⟩
        exact ⟨c :: a, b, rfl, hmem⟩
      · rintro ⟨a, b, heq, hmem⟩
        cases a with
        | nil => exact absurd (List.cons.inj heq).1 hc
        | cons d a => exact ⟨a, b, (List.cons.inj heq).2, hmem⟩

theorem hasGroup_of_isInfix {opening closing : Char} (hst : s <:+: t)
    (h : hasGroup opening closing s = true) : hasGroup opening closing t = true := by
  obtain ⟨front, back, rfl⟩ := hst
  obtain ⟨a, b, rfl, hmem⟩ := hasGroup_iff.1 h
  exact hasGroup_iff.2 ⟨front ++ a, b ++ back, by simp, List.mem_append_left back hmem⟩

theorem isDynamic_of_isInfix (hst : s <:+: t) (h : isDynamic s = true) : isDynamic t = true := by
  simp only [isDynamic, Bool.or_eq_true, decide_eq_true_eq] at h ⊢
  rcases h with (hstar | hbraces) | hbrackets
  · exact .inl (.inl (hst.subset hstar))
  · exact .inl (.inr (hasGroup_of_isInfix hst hbraces))
  · exact .inr (hasGroup_of_isInfix hst hbrackets)

theorem isInfix_of_mem_splitOn {sep : Char} {part : Text} (h : part ∈ Text.splitOn sep t) :
    part <:+: t := by
  induction t generalizing part with
  | nil =>
    rw [Text.splitOn, List.mem_singleton] at h
    exact h ▸ List.infix_rfl
  | cons c t ih =>
    by_cases hc : c = sep
    · rw [hc, Text.splitOn_cons_self] at h
      rcases List.mem_cons.1 h with rfl | h
      · exact List.nil_infix
      · exact (ih h).trans (List.suffix_cons c t).isInfix
    · obtain ⟨first, parts, hsplit⟩ := Text.exists_splitOn_cons sep t
      rw [Text.splitOn_cons_of_ne hc hsplit] at h
      rcases List.mem_cons.1 h with rfl | h
      · have hfirst : first <+: t := by
          rw [← Text.joinWith_splitOn sep t, hsplit]
          exact Text.joinWith_isPrefix sep [first] parts
        exact (List.cons_prefix_cons.2 ⟨rfl, hfirst⟩).isInfix
      · exact (ih (hsplit ▸ List.mem_cons_of_mem first h)).trans (List.suffix_cons c t).isInfix

theorem isDynamic_of_mem_splitOn {segment : Text} (h : segment ∈ Text.splitOn '/' t)
    (hsegment : isDynamic segment = true) : isDynamic t = true :=
  isDynamic_of_isInfix (isInfix_of_mem_splitOn h) hsegment

/-! ## Cuts -/

/-- The segments of a specifier are static ones and then a dynamic one, or the last one alone. -/
structure Cut (s : Text) (front : List Text) (next : Text) (more : List Text) : Prop where
  segments : Text.splitOn '/' s = front ++ next :: more
  static : ∀ segment ∈ front, isDynamic segment = false
  stops : more = [] ∨ isDynamic next = true

theorem exists_cut (s : Text) : ∃ front next more, Cut s front next more := by
  have hcut : ∀ segments : List Text, segments ≠ [] →
      ∃ front next more, segments = front ++ next :: more ∧
        (∀ segment ∈ front, isDynamic segment = false) ∧ (more = [] ∨ isDynamic next = true) := by
    intro segments hne
    induction segments with
    | nil => exact absurd rfl hne
    | cons first rest ih =>
      by_cases hstop : rest = [] ∨ isDynamic first = true
      · exact ⟨[], first, rest, rfl, nofun, hstop⟩
      · rw [not_or] at hstop
        obtain ⟨front, next, more, rfl, hstatic, hstops⟩ := ih hstop.1
        refine ⟨first :: front, next, more, rfl, fun segment hsegment => ?_, hstops⟩
        rcases List.mem_cons.1 hsegment with rfl | hsegment
        · exact Bool.eq_false_iff.2 hstop.2
        · exact hstatic segment hsegment
  obtain ⟨front, next, more, hsegments, hstatic, hstops⟩ :=
    hcut (Text.splitOn '/' s) (Text.splitOn_ne_nil '/' s)
  exact ⟨front, next, more, hsegments, hstatic, hstops⟩

/-- The text of the segments in front of a pattern, `.` when there is none. -/
def baseOf (front : List Text) : Text :=
  if Text.joinWith '/' front = [] then ['.'] else Text.joinWith '/' front

namespace Cut

variable {front more : List Text} {next : Text}

/-- A specifier is cut before the first dynamic segment, or before the last. -/
theorem ofSpecifier_eq (h : Cut s front next more) :
    ofSpecifier s = ⟨baseOf front, Text.joinWith '/' (next :: more)⟩ := by
  have hcount : (front ++ next :: more).dropLast.takeWhile (!isDynamic ·) = front := by
    rw [List.dropLast_append_of_ne_nil (by simp),
      List.takeWhile_append_of_pos (by simpa using h.static)]
    have hnil : (next :: more).dropLast.takeWhile (!isDynamic ·) = [] := by
      rcases h.stops with rfl | hnext
      · rfl
      · cases more with
        | nil => rfl
        | cons last more =>
          rw [List.dropLast_cons_of_ne_nil (by simp),
            List.takeWhile_cons_of_neg (by simp [hnext])]
    rw [hnil, List.append_nil]
  simp only [ofSpecifier, h.segments, hcount, List.take_left, List.drop_left, baseOf]

theorem not_mem_slash (h : Cut s front next more) :
    ∀ segment ∈ front ++ next :: more, '/' ∉ segment := fun _ hsegment =>
  Text.not_mem_of_mem_splitOn (h.segments ▸ hsegment)

theorem eq_joinWith (h : Cut s front next more) :
    s = Text.joinWith '/' (front ++ next :: more) := by
  rw [← h.segments, Text.joinWith_splitOn]

/-- A directory of a specifier either has all the static segments and the dynamic one after them,
or it is made of static segments only. -/
theorem directory_cases (h : Cut s front next more) {dir rest : Text}
    (hs : s = dir ++ '/' :: rest) :
    isDynamic next = true ∧ next ∈ Text.splitOn '/' dir ∨
      ∃ others, front = Text.splitOn '/' dir ++ others := by
  have hsegments := (Text.splitOn_eq_append hs).symm.trans h.segments
  rcases List.append_eq_append_iff.1 hsegments with ⟨others, hfront, -⟩ | ⟨others, hdir, hrest⟩
  · exact .inr ⟨others, hfront⟩
  · cases others with
    | nil => exact .inr ⟨[], by rw [hdir, List.append_nil, List.append_nil]⟩
    | cons first others =>
      obtain ⟨rfl, hmore⟩ := List.cons.inj hrest
      have hne : more ≠ [] := by
        rw [hmore]
        exact List.append_ne_nil_of_right_ne_nil _ (Text.splitOn_ne_nil '/' rest)
      refine .inl ⟨h.stops.resolve_left hne, ?_⟩
      rw [hdir]
      exact List.mem_append_right front List.mem_cons_self

/-- A directory of static segments is a front of the static segments in front of the cut. -/
theorem isPrefix_of_segments (h : Cut s front next more) {dir rest : Text}
    (hs : s = dir ++ '/' :: rest)
    (hstatic : ∀ segment ∈ Text.splitOn '/' dir, isDynamic segment = false) :
    dir <+: Text.joinWith '/' front := by
  rcases h.directory_cases hs with ⟨hnext, hmem⟩ | ⟨others, hfront⟩
  · rw [hstatic next hmem] at hnext
    cases hnext
  · rw [hfront]
    conv_lhs => rw [← Text.joinWith_splitOn '/' dir]
    exact Text.joinWith_isPrefix _ _ _

theorem isDynamic_of_nil (h : Cut s [] next more) {dir rest : Text} (hs : s = dir ++ '/' :: rest) :
    isDynamic dir = true := by
  rcases h.directory_cases hs with ⟨hnext, hmem⟩ | ⟨others, hfront⟩
  · exact isDynamic_of_mem_splitOn hmem hnext
  · exact absurd (List.append_eq_nil_iff.1 hfront.symm).1 (Text.splitOn_ne_nil '/' dir)

end Cut

/-! ## Splits -/

/-- A specifier is spelled by its longest static directory, a slash and the pattern below it. If no
directory of it is static, the base is `.` and the pattern is the specifier. -/
inductive IsSplit (s : Text) : Glob → Prop where
  | below {base pattern : Text} : s = base ++ '/' :: pattern → isDynamic base = false →
      (∀ dir rest, s = dir ++ '/' :: rest → isDynamic dir = false → dir <+: base) →
      IsSplit s ⟨base, pattern⟩
  | bare : (∀ dir rest, s = dir ++ '/' :: rest → isDynamic dir = true) → IsSplit s ⟨['.'], s⟩

/-- A group goes over a slash: a directory is dynamic, but none of its segments is. -/
def GroupOverSlash (s : Text) : Prop :=
  ∃ dir rest, s = dir ++ '/' :: rest ∧ isDynamic dir = true ∧
    ∀ segment ∈ Text.splitOn '/' dir, isDynamic segment = false

/-- A pattern right below the root: no directory further down is static. -/
def PatternAtRoot (s : Text) : Prop :=
  ∃ pattern, s = '/' :: pattern ∧ ∀ dir rest, pattern = dir ++ '/' :: rest → isDynamic dir = true

/-- What is right below the root is cut off with an empty segment in front. -/
theorem PatternAtRoot.exists_cut (h : PatternAtRoot s) :
    ∃ next more, s = '/' :: Text.joinWith '/' (next :: more) ∧ Cut s [[]] next more := by
  obtain ⟨pattern, rfl, hdynamic⟩ := h
  obtain ⟨next, more, hsegments⟩ := Text.exists_splitOn_cons '/' pattern
  have hpattern : pattern = Text.joinWith '/' (next :: more) := by
    rw [← hsegments, Text.joinWith_splitOn]
  refine ⟨next, more, by rw [← hpattern], ?_, by simp [isDynamic, hasGroup], ?_⟩
  · rw [Text.splitOn_cons_self, hsegments]
    rfl
  · cases more with
    | nil => exact .inl rfl
    | cons last more => exact .inr (hdynamic next _ hpattern)

namespace IsSplit

theorem static {glob : Glob} (h : IsSplit s glob) : isDynamic glob.base = false := by
  cases h with
  | below _ hstatic _ => exact hstatic
  | bare _ => rfl

theorem not_groupOverSlash (h : IsSplit s (ofSpecifier s)) : ¬ GroupOverSlash s := by
  rintro ⟨dir, rest, hs, hdir, hsegments⟩
  obtain ⟨front, next, more, hcut⟩ := exists_cut s
  -- The directory is a front of the base, which is dynamic then.
  have hdynamic : isDynamic (Text.joinWith '/' front) = true :=
    isDynamic_of_isInfix (hcut.isPrefix_of_segments hs hsegments).isInfix hdir
  have hstatic := h.static
  rw [hcut.ofSpecifier_eq, baseOf] at hstatic
  split at hstatic
  case isTrue hnil =>
    rw [hnil] at hdynamic
    cases hdynamic
  case isFalse =>
    rw [hdynamic] at hstatic
    cases hstatic

theorem not_patternAtRoot (h : IsSplit s (ofSpecifier s)) : ¬ PatternAtRoot s := by
  intro hroot
  obtain ⟨next, more, hs, hcut⟩ := hroot.exists_cut
  rw [hcut.ofSpecifier_eq] at h
  generalize hbase : baseOf [[]] = base at h
  generalize hpattern : Text.joinWith '/' (next :: more) = pattern at h hs
  cases h with
  | below hsplit =>
    rw [← hbase, hs] at hsplit
    cases hsplit
  | bare => exact absurd (congrArg List.length hs) (by simp)

/-- Where no group goes over a slash and the pattern is not right below the root, the cut is as it
should be. -/
theorem of_cut (hgroup : ¬ GroupOverSlash s) (hroot : ¬ PatternAtRoot s) :
    IsSplit s (ofSpecifier s) := by
  obtain ⟨front, next, more, hcut⟩ := exists_cut s
  rw [hcut.ofSpecifier_eq]
  by_cases hfront : front = []
  · subst hfront
    have hs : Text.joinWith '/' (next :: more) = s := hcut.eq_joinWith.symm
    rw [hs]
    exact .bare fun dir rest hdir => hcut.isDynamic_of_nil hdir
  have hs : s = Text.joinWith '/' front ++ '/' :: Text.joinWith '/' (next :: more) := by
    rw [hcut.eq_joinWith]
    exact Text.joinWith_append hfront (List.cons_ne_nil next more)
  have hsegments : Text.splitOn '/' (Text.joinWith '/' front) = front :=
    Text.splitOn_joinWith (fun segment hsegment =>
      hcut.not_mem_slash segment (List.mem_append_left _ hsegment)) hfront
  have hbase : Text.joinWith '/' front ≠ [] := by
    intro hnil
    rw [hnil] at hs hsegments
    refine hroot ⟨_, hs, fun dir rest hdir => ?_⟩
    -- Behind the slash there are no static segments in front of the cut.
    have hbelow : Cut (Text.joinWith '/' (next :: more)) [] next more := by
      refine ⟨?_, nofun, hcut.stops⟩
      have hwhole := hcut.segments
      rw [hs, ← hsegments, List.nil_append, Text.splitOn_cons_self] at hwhole
      exact (List.cons.inj hwhole).2
    exact hbelow.isDynamic_of_nil hdir
  rw [baseOf, if_neg hbase]
  refine .below hs ?_ fun dir rest hdir hstatic => ?_
  · rw [← Bool.not_eq_true]
    exact fun hdynamic => hgroup ⟨_, _, hs, hdynamic, hsegments.symm ▸ hcut.static⟩
  · refine hcut.isPrefix_of_segments hdir fun segment hsegment => ?_
    rw [← Bool.not_eq_true]
    intro hdynamic
    rw [isDynamic_of_mem_splitOn hsegment hdynamic] at hstatic
    cases hstatic

end IsSplit

/-- A specifier is cut behind its longest static directory exactly if no group goes over a slash and
the pattern is not right below the root. -/
theorem isSplit_iff (s : Text) :
    IsSplit s (ofSpecifier s) ↔ ¬ GroupOverSlash s ∧ ¬ PatternAtRoot s :=
  ⟨fun h => ⟨h.not_groupOverSlash, h.not_patternAtRoot⟩, fun h => .of_cut h.1 h.2⟩

/-- The specifier `{a/b,c}/d.styl`. -/
def spanningSpecifier : Text := "\x7ba/b,c\x7d/d.styl".toList

/-- A group over a slash is taken into the base. -/
theorem not_isSplit_of_group :
    isDynamic spanningSpecifier = true ∧
    ofSpecifier spanningSpecifier = ⟨"\x7ba/b,c\x7d".toList, "d.styl".toList⟩ ∧
    isDynamic (ofSpecifier spanningSpecifier).base = true ∧
    ¬ IsSplit spanningSpecifier (ofSpecifier spanningSpecifier) := by
  have hbase : isDynamic (ofSpecifier spanningSpecifier).base = true := by decide
  refine ⟨by decide, by decide, hbase, fun hsplit => ?_⟩
  rw [hsplit.static] at hbase
  cases hbase

end Glob

end StyleImports
