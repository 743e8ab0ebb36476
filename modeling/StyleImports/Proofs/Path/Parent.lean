import StyleImports.Proofs.Path.Place

/-!
# The directory of an entry

The directory of a path has its parts without the last one (`parts_parent?`). Going on to an entry
and taking its directory gives the path back as it was spelled, if that path ends in a name
(`parent?_join_join`).
-/

set_option autoImplicit false

namespace StyleImports

namespace Text

theorem dropEndWhile_append_singleton {α : Type} {p : α → Bool} (xs : List α) {x : α}
    (h : p x = false) : dropEndWhile p (xs ++ [x]) = xs ++ [x] := by
  induction xs with
  | nil => simp [dropEndWhile, h]
  | cons y ys ih =>
    rw [List.cons_append, dropEndWhile, ih]
    cases ys <;> rfl

theorem filter_dropEndWhile {α : Type} {p : α → Bool} (xs : List α) :
    (dropEndWhile p xs).filter (!p ·) = xs.filter (!p ·) := by
  induction xs with
  | nil => rfl
  | cons x xs ih =>
    rw [dropEndWhile, List.filter_cons, ← ih]
    cases dropEndWhile p xs with
    | nil => cases hx : p x <;> simp [hx]
    | cons y ys => rw [List.filter_cons]

theorem dropEndWhile_eq_append {α : Type} {p : α → Bool} {xs ys : List α} {y : α}
    (h : dropEndWhile p xs = ys ++ [y]) : p y = false := by
  induction xs generalizing ys with
  | nil => simp [dropEndWhile] at h
  | cons x xs ih =>
    rw [dropEndWhile] at h
    cases hrest : dropEndWhile p xs with
    | nil =>
      simp only [hrest] at h
      cases hx : p x with
      | true => simp [hx] at h
      | false =>
        simp only [hx, Bool.false_eq_true, if_false] at h
        have hlast := congrArg List.getLast? h
        simp only [List.getLast?_singleton, List.getLast?_concat, Option.some.injEq] at hlast
        rw [← hlast, hx]
    | cons z zs =>
      simp only [hrest] at h
      cases ys with
      | nil => simp at h
      | cons w ws =>
        rw [List.cons_append, List.cons.injEq] at h
        exact ih (hrest.trans h.2)

theorem dropEndWhile_isPrefix {α : Type} {p : α → Bool} (xs : List α) :
    dropEndWhile p xs <+: xs := by
  induction xs with
  | nil => exact List.prefix_rfl
  | cons x xs ih =>
    rw [dropEndWhile]
    cases hrest : dropEndWhile p xs with
    | nil =>
      dsimp only
      split
      · exact List.nil_prefix
      · exact List.cons_prefix_cons.2 ⟨rfl, List.nil_prefix⟩
    | cons y ys =>
      exact List.cons_prefix_cons.2 ⟨rfl, hrest ▸ ih⟩

theorem splitOn_joinWith {sep : Char} {parts : List Text} (h : ∀ part ∈ parts, sep ∉ part)
    (hne : parts ≠ []) : splitOn sep (joinWith sep parts) = parts := by
  induction parts with
  | nil => exact absurd rfl hne
  | cons part rest ih =>
    cases rest with
    | nil => exact splitOn_of_not_mem (h part List.mem_cons_self)
    | cons next rest =>
      rw [joinWith, splitOn_append_sep, splitOn_of_not_mem (h part List.mem_cons_self),
        ih (fun q hq => h q (List.mem_cons_of_mem _ hq)) (by simp)]
      rfl

end Text

namespace Path

theorem cutHead_append (t : Text) : (cutHead t).1 ++ (cutHead t).2 = t := by
  unfold cutHead
  split <;> rfl

variable {p q dir : Path} {n : Text}

theorem ne_nil_of_isName (hn : (Part.name n).IsName) : n ≠ [] := fun hnil => by
  rw [hnil] at hn
  exact absurd hn.1 (by decide)

/-- The path of an entry of a directory whose spelling does not end in a slash. -/
theorem text_join (hp : p.text ≠ []) (hlast : p.text.getLast? ≠ some '/')
    (hn : (Part.name n).IsName) : (p.join ⟨n⟩).text = p.text ++ '/' :: n := by
  rw [join, isAbsolute_of_isName hn]
  simp [hp, hlast]

theorem getLast?_join (hn : (Part.name n).IsName) : (p.join ⟨n⟩).text.getLast? = n.getLast? := by
  obtain ⟨c, hc⟩ := Option.ne_none_iff_exists'.1
    (List.getLast?_eq_none_iff.not.2 (ne_nil_of_isName hn))
  rw [join, isAbsolute_of_isName hn, if_neg Bool.false_ne_true]
  split <;> simp [List.getLast?_append, List.getLast?_cons, hc]

theorem segments_join (hp : p.text ≠ []) (hlast : p.text.getLast? ≠ some '/')
    (hn : (Part.name n).IsName) :
    (cutHead (p.join ⟨n⟩).text).1 = (cutHead p.text).1 ∧
      (p.join ⟨n⟩).segments = p.segments ++ [n] := by
  have hhead : (cutHead (p.join ⟨n⟩).text).1 = (cutHead p.text).1 := by
    rw [text_join hp hlast hn, cutHead_append_slash hp]
  have hrest : (cutHead (p.join ⟨n⟩).text).2 = (cutHead p.text).2 ++ '/' :: n := by
    have hwhole := cutHead_append (p.join ⟨n⟩).text
    rw [hhead, text_join hp hlast hn] at hwhole
    rw [text_join hp hlast hn]
    refine List.append_cancel_left (hwhole.trans ?_)
    rw [← List.append_assoc, cutHead_append]
  refine ⟨hhead, ?_⟩
  rw [segments, hrest, Text.splitOn_append_sep, Text.splitOn_of_not_mem hn.2.2, segments]

/-- The directory of an entry of an entry is spelled as it was. -/
theorem parent?_join_join (hp : p.text ≠ []) (hlast : p.text.getLast? ≠ some '/') {m : Text}
    (hm : (Part.name m).IsName) (hn : (Part.name n).IsName) :
    ((p.join ⟨m⟩).join ⟨n⟩).parent? = some (p.join ⟨m⟩) := by
  have htext : (p.join ⟨m⟩).text ≠ [] := by
    rw [text_join hp hlast hm]
    simp
  have hend : (p.join ⟨m⟩).text.getLast? ≠ some '/' := by
    rw [getLast?_join hm]
    exact fun h => hm.2.2 (List.mem_of_getLast? h)
  obtain ⟨hhead, hsegments⟩ := segments_join htext hend hn
  have hinner := (segments_join hp hlast hm).2
  rw [parent?, hsegments, Text.dropEndWhile_append_singleton _ hn.1, List.reverse_append]
  simp only [List.reverse_singleton, List.singleton_append, List.reverse_reverse]
  rw [hinner, Text.dropEndWhile_append_singleton _ hm.1, ← hinner, hhead, segments,
    Text.joinWith_splitOn, cutHead_append]

/-! ## Parts -/

theorem parts_cutHead (t : Text) : (⟨(cutHead t).1⟩ : Path).parts = headParts (cutHead t).1 := by
  unfold cutHead
  split <;> rfl

theorem parts_of_isPrefix {segments : List Text} (h : segments <+: p.segments) :
    (⟨(cutHead p.text).1 ++ Text.joinWith '/' segments⟩ : Path).parts =
      headParts (cutHead p.text).1 ++ (segments.filter (!isIdle ·)).map partOf := by
  by_cases hne : segments = []
  · rw [hne]
    simpa [Text.joinWith] using parts_cutHead p.text
  have hslash : ∀ segment ∈ segments, '/' ∉ segment := fun segment hsegment =>
    Text.not_mem_of_mem_splitOn (h.subset hsegment)
  have hhead : (cutHead ((cutHead p.text).1 ++ Text.joinWith '/' segments)).1 =
      (cutHead p.text).1 ∨ (cutHead p.text).1 ++ Text.joinWith '/' segments = [] := by
    obtain ⟨rest, hrest⟩ := h
    have htext : (cutHead p.text).1 ++ Text.joinWith '/' p.segments = p.text := by
      rw [Path.segments, Text.joinWith_splitOn, cutHead_append]
    cases rest with
    | nil =>
      rw [List.append_nil] at hrest
      rw [hrest, htext]
      exact .inl rfl
    | cons next rest =>
      rw [← hrest, Text.joinWith_append hne (by simp), ← List.append_assoc] at htext
      by_cases hempty : (cutHead p.text).1 ++ Text.joinWith '/' segments = []
      · exact .inr hempty
      · refine .inl ?_
        rw [← cutHead_append_slash hempty (Text.joinWith '/' (next :: rest)), htext]
  rcases hhead with hhead | hempty
  · have hbody := cutHead_append ((cutHead p.text).1 ++ Text.joinWith '/' segments)
    rw [hhead] at hbody
    simp only [parts, Path.segments, hhead, List.append_cancel_left hbody,
      Text.splitOn_joinWith hslash hne]
  · obtain ⟨hnil, hjoin⟩ := List.append_eq_nil_iff.1 hempty
    have hsegments := Text.splitOn_joinWith hslash hne
    rw [hjoin] at hsegments
    rw [hempty, hnil, ← hsegments]
    rfl

theorem parts_eq_dropEndWhile (p : Path) :
    p.parts = headParts (cutHead p.text).1 ++
      ((Text.dropEndWhile isIdle p.segments).filter (!isIdle ·)).map partOf := by
  rw [Text.filter_dropEndWhile]
  rfl

theorem parts_parent? (h : p.parent? = some dir) : dir.parts = p.parts.dropLast := by
  rw [p.parts_eq_dropEndWhile]
  simp only [parent?] at h
  split at h
  case h_1 hnil =>
    rw [List.reverse_eq_nil_iff.1 hnil]
    split at h
    case isTrue hhere =>
      cases h
      rw [hhere]
      rfl
    case isFalse => cases h
  case h_2 last kept hkept =>
    cases h
    have hsegments := List.reverse_eq_cons_iff.1 hkept
    have hstart : Text.dropEndWhile isIdle kept.reverse <+: p.segments :=
      (Text.dropEndWhile_isPrefix _).trans
        ((List.prefix_append _ _).trans (hsegments ▸ Text.dropEndWhile_isPrefix p.segments))
    rw [parts_of_isPrefix hstart, hsegments, Text.filter_dropEndWhile, List.filter_append]
    simp [Text.dropEndWhile_eq_append hsegments]

theorem parent?_eq_none_iff : p.parent? = none ↔ p.parts = [] ∨ p.parts = [.root] := by
  rw [p.parts_eq_dropEndWhile]
  simp only [parent?]
  split
  case h_1 hnil =>
    rw [List.reverse_eq_nil_iff.1 hnil]
    unfold cutHead
    split <;> simp [headParts]
  case h_2 last kept hkept =>
    have hsegments := List.reverse_eq_cons_iff.1 hkept
    have hroot : partOf last ≠ .root := by
      rw [partOf]
      split <;> simp
    rw [hsegments, List.filter_append, List.map_append, ← List.append_assoc,
      List.append_eq_singleton_iff]
    simp [Text.dropEndWhile_eq_append hsegments, hroot]

/-- Spellings of one path have directories that are one path. -/
theorem parent?_congr (h : p.same q = true) :
    p.parent? = none ∧ q.parent? = none ∨
      ∃ above beside, p.parent? = some above ∧ q.parent? = some beside ∧
        above.same beside = true := by
  have hparts := same_iff.1 h
  cases hp : p.parent? with
  | none =>
    rw [parent?_eq_none_iff, hparts, ← parent?_eq_none_iff] at hp
    exact .inl ⟨rfl, hp⟩
  | some above =>
    cases hq : q.parent? with
    | none =>
      rw [parent?_eq_none_iff, ← hparts, ← parent?_eq_none_iff, hp] at hq
      cases hq
    | some beside =>
      refine .inr ⟨above, beside, rfl, rfl, same_iff.2 ?_⟩
      rw [parts_parent? hp, parts_parent? hq, hparts]

end Path

end StyleImports
