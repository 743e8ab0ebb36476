import Mathlib.Data.List.TakeWhile
import StyleImports.Request.Candidates

/-!
# Which requests stand for a specifier

A `~` marks a package where it comes first (`Specifier.isModule`). The search for it is wider: once
`./` or a root stands in front, it takes the first `~` before any `?` (`afterTilde?_eq_some`) and
drops all that comes before it. So a specifier that is not from the root is tried as it is written,
or with `./` in front, exactly if nothing follows a `~` before its query (`candidates_written_iff`).
-/

set_option autoImplicit false

namespace StyleImports.Request

variable {s rest request : Text}

/-! ## The mark -/

/-- What stands behind the first `~`, where no `?` comes before it. -/
theorem afterTilde?_eq_some : afterTilde? s = some rest ↔
    ∃ before, s = before ++ '~' :: rest ∧ '~' ∉ before ∧ '?' ∉ before := by
  unfold afterTilde?
  constructor
  · intro h
    split at h
    case isFalse => cases h
    case isTrue hmem =>
      obtain ⟨⟨before, after⟩, hcut, rfl⟩ := Option.map_eq_some_iff.1 h
      obtain ⟨rfl, hfirst⟩ := Text.splitFirst_eq_some hcut
      refine ⟨before, rfl, hfirst, fun hquery => hfirst ?_⟩
      -- With a `?` before the `~`, the path ends before the `~`.
      rw [List.takeWhile_append, if_neg] at hmem
      · exact (List.takeWhile_prefix _).subset hmem
      · intro hlength
        have hkept := (List.takeWhile_prefix _).eq_of_length hlength
        simpa using List.takeWhile_eq_self_iff.1 hkept '?' hquery
  · rintro ⟨before, rfl, hfirst, hquery⟩
    have hkept : ∀ c ∈ before, decide (c ≠ '?') = true := fun c hc =>
      decide_eq_true fun heq => hquery (heq ▸ hc)
    have hmem : '~' ∈ (before ++ '~' :: rest).takeWhile (· ≠ '?') := by
      rw [List.takeWhile_append_of_pos hkept]
      simp
    rw [if_pos hmem, Text.splitFirst_append_sep hfirst]
    rfl

/-- Something follows a `~`, and the `~` comes before any `?`. -/
def IsMarked (s : Text) : Prop :=
  ∃ before after, s = before ++ '~' :: after ∧ '?' ∉ before ∧ after ≠ []

theorem isMarked_iff : IsMarked s ↔ ∃ rest, afterTilde? s = some rest ∧ rest ≠ [] := by
  constructor
  · rintro ⟨before, after, rfl, hquery, hne⟩
    by_cases hmem : '~' ∈ before
    · obtain ⟨first, more, rfl, hfirst⟩ := List.eq_append_cons_of_mem hmem
      refine ⟨more ++ '~' :: after, afterTilde?_eq_some.2 ⟨first, by simp, hfirst, ?_⟩, by simp⟩
      exact fun h => hquery (List.mem_append_left _ h)
    · exact ⟨after, afterTilde?_eq_some.2 ⟨before, rfl, hmem, hquery⟩, hne⟩
  · rintro ⟨rest, h, hne⟩
    obtain ⟨before, rfl, -, hquery⟩ := afterTilde?_eq_some.1 h
    exact ⟨before, rest, rfl, hquery, hne⟩

instance (s : Text) : Decidable (IsMarked s) :=
  decidable_of_iff ((afterTilde? s).any (· ≠ []) = true) <| by
    simp [isMarked_iff, Option.any_eq_true]

/-! ## Requests -/

/-- No mark is put in front of a relative path, and none is hidden. -/
theorem afterTilde?_relative (s : Text) : afterTilde? ("./" ++ s) = afterTilde? s := by
  simp [afterTilde?, Text.splitFirst, Function.comp_def]

/-- A specifier that is not from the root is kept or made relative, whatever the root. -/
theorem pathRequest_cases (h : s.head? ≠ some '/') (root : Option Text) :
    pathRequest s root = s ∨ pathRequest s root = "./" ++ s := by
  unfold pathRequest
  split
  · exact .inl rfl
  · split
    · simp at h
    · split
      · exact .inl rfl
      · exact .inr rfl

/-- The bundler's form of a specifier that is not from the root: what its mark leaves of it, or a
relative path. -/
theorem ofUrl_eq (h : s.head? ≠ some '/') (hne : s ≠ []) (root : Option Text) :
    ofUrl s root = (afterTilde? s).getD (pathRequest s root) := by
  have hmark : afterTilde? (pathRequest s root) = afterTilde? s := by
    rcases pathRequest_cases h root with hpath | hpath
    · rw [hpath]
    · rw [hpath, afterTilde?_relative]
  simp only [ofUrl, if_neg hne, hmark]

theorem mem_candidates {root : Option Text} :
    request ∈ candidates s root ↔ request ≠ [] ∧ (request = ofUrl s root ∨ request = s) := by
  unfold candidates
  by_cases h : s = ofUrl s root
  · simp only [if_pos h, List.mem_filter, List.mem_singleton, decide_eq_true_eq]
    rw [← h, or_self, and_comm]
  · simp [h, and_comm]

/-- A specifier that is not from the root is tried as it is written, or with `./` in front, exactly
if nothing follows a `~` before its query. -/
theorem candidates_written_iff (h : s.head? ≠ some '/') (root : Option Text) :
    (∀ request ∈ candidates s root, request = s ∨ request = "./" ++ s) ↔ ¬ IsMarked s := by
  rw [isMarked_iff]
  constructor
  · rintro hall ⟨rest, hmark, hne⟩
    obtain ⟨before, hs, -, -⟩ := afterTilde?_eq_some.1 hmark
    have hlength : rest.length < s.length := by
      rw [hs, List.length_append, List.length_cons]
      omega
    have hurl : ofUrl s root = rest := by
      rw [ofUrl_eq h (by rw [hs]; simp), hmark]
      rfl
    -- What the mark leaves is shorter than the specifier, so it is neither of the two.
    rcases hall rest (mem_candidates.2 ⟨hne, .inl hurl.symm⟩) with heq | heq
    · rw [heq] at hlength
      omega
    · rw [heq, List.length_append] at hlength
      omega
  · intro hnone request hrequest
    obtain ⟨hne, rfl | rfl⟩ := mem_candidates.1 hrequest
    · have hs : s ≠ [] := fun hnil => hne (by rw [hnil]; rfl)
      rw [ofUrl_eq h hs] at hne ⊢
      cases hmark : afterTilde? s with
      | none => exact pathRequest_cases h root
      | some rest =>
        rw [hmark] at hne
        exact absurd ⟨rest, hmark, hne⟩ hnone
    · exact .inl rfl

/-- A `~` in the query marks nothing. -/
theorem candidates_written_iff_query :
    ("lib/a b.styl?~c" : Text).head? ≠ some '/' ∧ ¬ IsMarked "lib/a b.styl?~c" ∧
      ∀ request ∈ candidates "lib/a b.styl?~c" (some "~styles".toList),
        request = "lib/a b.styl?~c".toList ∨ request = "./" ++ "lib/a b.styl?~c" :=
  have hroot : ("lib/a b.styl?~c" : Text).head? ≠ some '/' := by decide
  have hnone : ¬ IsMarked "lib/a b.styl?~c" := by decide
  ⟨hroot, hnone, (candidates_written_iff hroot _).2 hnone⟩

/-- A specifier that asks for no package and is from no root loses the directories before a `~`. -/
theorem not_candidates_written :
    ("../a~b/c.styl" : Text) ≠ [] ∧ Specifier.isModule "../a~b/c.styl" = false ∧
      ("../a~b/c.styl" : Text).head? ≠ some '/' ∧
      Specifier.isDrivePath "../a~b/c.styl" = false ∧
      ¬ ∀ request ∈ candidates "../a~b/c.styl" none,
        request = "../a~b/c.styl".toList ∨ request = "./" ++ "../a~b/c.styl" := by
  decide

end StyleImports.Request
