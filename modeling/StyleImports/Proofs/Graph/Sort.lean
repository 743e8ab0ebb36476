import Mathlib.Data.List.Perm.Basic
import Mathlib.Data.List.Sort
import StyleImports.Graph.Diagnostic
import StyleImports.Proofs.Path.Order

/-!
# The order of diagnostics

`Diagnostic.before` orders diagnostics by file and position and leaves those of one place undecided.
Sorting keeps the given order of these. So the order in which diagnostics of different places were
found does not matter, whatever is listed behind them (`Diagnostic.sort_append_of_perm`).
-/

set_option autoImplicit false

namespace StyleImports

/-! ## Stable sorting -/

section Stable

variable {α : Type} {le : α → α → Bool}

/-- Sorting a list with one more element at its front puts it before all that it is not after. -/
theorem mergeSort_cons_eq (trans : ∀ a b c, le a b = true → le b c = true → le a c = true)
    (total : ∀ a b, (le a b || le b a) = true) (a : α) (xs : List α) :
    (a :: xs).mergeSort le = (xs.mergeSort le).orderedInsert (fun x y => le x y = true) a := by
  obtain ⟨first, last, hcons, hsorted, hfirst⟩ := List.mergeSort_cons trans total a xs
  have hpairwise := List.pairwise_mergeSort trans total (a :: xs)
  rw [hcons] at hpairwise
  rw [hcons, hsorted]
  clear hcons hsorted
  induction first with
  | nil =>
    cases last with
    | nil => rfl
    | cons b last =>
      have hab := (List.pairwise_cons.1 hpairwise).1 b List.mem_cons_self
      simp only [List.nil_append, List.orderedInsert_cons, hab, if_true]
  | cons b first ih =>
    have hb := hfirst b List.mem_cons_self
    have hnot : ¬le a b = true := by simpa using hb
    rw [List.cons_append, List.cons_append, List.orderedInsert_cons, if_neg hnot,
      ← ih (fun c hc => hfirst c (List.mem_cons_of_mem _ hc)) (List.pairwise_cons.1 hpairwise).2]

theorem orderedInsert_comm (trans : ∀ a b c, le a b = true → le b c = true → le a c = true)
    {a b : α} (hab : le a b = true) (hba : le b a = false) (xs : List α) :
    (xs.orderedInsert (fun x y => le x y = true) b).orderedInsert (fun x y => le x y = true) a =
      (xs.orderedInsert (fun x y => le x y = true) a).orderedInsert
        (fun x y => le x y = true) b := by
  induction xs with
  | nil => simp [hab, hba]
  | cons c xs ih =>
    by_cases hbc : le b c = true
    · have hac := trans a b c hab hbc
      simp [hab, hba, hbc, hac]
    · by_cases hac : le a c = true
      · simp [hba, hbc, hac]
      · simp [hbc, hac, ih]

/-- Lists that are the same up to the order of elements of different places are sorted alike,
whatever follows them. -/
theorem mergeSort_append_of_perm
    (trans : ∀ a b c, le a b = true → le b c = true → le a c = true)
    (total : ∀ a b, (le a b || le b a) = true) {xs ys : List α} (hperm : xs.Perm ys)
    (hplaces : ∀ a ∈ xs, ∀ b ∈ xs, a = b ∨ le a b = false ∨ le b a = false) (rest : List α) :
    (xs ++ rest).mergeSort le = (ys ++ rest).mergeSort le := by
  have hfold : ∀ zs : List α, (zs ++ rest).mergeSort le =
      zs.foldr (fun a sorted => sorted.orderedInsert (fun x y => le x y = true) a)
        (rest.mergeSort le) := by
    intro zs
    induction zs with
    | nil => rfl
    | cons a zs ih => rw [List.cons_append, mergeSort_cons_eq trans total, ih, List.foldr_cons]
  rw [hfold, hfold]
  refine hperm.foldr_eq' (fun a ha b hb sorted => ?_) _
  have hor := total a b
  rcases hplaces a ha b hb with rfl | hab | hba
  · rfl
  · rw [hab, Bool.false_or] at hor
    exact orderedInsert_comm trans hor hab sorted
  · rw [hba, Bool.or_false] at hor
    exact (orderedInsert_comm trans hor hba sorted).symm

end Stable

/-! ## Places -/

theorem Position.before_or {p r : Position} (q : Position) (h : p.before r = true) :
    p.before q = true ∨ q.before r = true := by
  simp only [Position.before, Bool.or_eq_true, decide_eq_true_eq, Bool.and_eq_true] at h ⊢
  omega

theorem Position.eq_of_not_before {p q : Position} (hpq : p.before q = false)
    (hqp : q.before p = false) : p = q := by
  obtain ⟨line, column⟩ := p
  obtain ⟨line', column'⟩ := q
  simp only [Position.before, Bool.or_eq_false_iff, Bool.and_eq_false_iff,
    decide_eq_false_iff_not] at hpq hqp
  rw [Position.mk.injEq]
  omega

theorem Path.before_or {p r : Path} (q : Path) (h : p.before r = true) :
    p.before q = true ∨ q.before r = true := by
  by_cases hpq : p.before q = true
  · exact .inl hpq
  · by_cases hsame : p.same q = true
    · rw [(before_congr hsame r).1] at h
      exact .inr h
    · have hqp : q.before p = true :=
        before_of_not_same (by rw [same_comm]; simpa using hsame) (by simpa using hpq)
      exact .inr (before_trans hqp h)

namespace Diagnostic

theorem positionBefore_or {p r : Option Position} (q : Option Position)
    (h : positionBefore p r = true) : positionBefore p q = true ∨ positionBefore q r = true := by
  cases p with
  | none =>
    cases r with
    | none => cases h
    | some r => cases q <;> simp [positionBefore]
  | some p =>
    cases r with
    | none => cases h
    | some r =>
      cases q with
      | none => exact .inr rfl
      | some q => exact Position.before_or q h

theorem positionBefore_asymm {p q : Option Position} (h : positionBefore p q = true) :
    positionBefore q p = false := by
  cases p <;> cases q <;> simp_all [positionBefore, Position.before]
  omega

theorem before_iff {d e : Diagnostic} : d.before e = true ↔ d.file.before e.file = true ∨
    d.file.same e.file = true ∧ positionBefore d.position? e.position? = true := by
  rw [before, Bool.or_eq_true, Bool.and_eq_true]

theorem before_asymm {d e : Diagnostic} (h : d.before e = true) : e.before d = false := by
  rw [Bool.eq_false_iff, ne_eq, before_iff]
  rcases before_iff.1 h with hfile | ⟨hsame, hposition⟩
  · rintro (hback | ⟨hsame, _⟩)
    · rw [Path.before_asymm hfile] at hback
      cases hback
    · rw [Path.same_comm, Path.not_same_of_before hfile] at hsame
      cases hsame
  · rintro (hback | ⟨_, hback⟩)
    · rw [Path.same_comm, Path.not_same_of_before hback] at hsame
      cases hsame
    · rw [positionBefore_asymm hposition] at hback
      cases hback

/-- What is before a diagnostic is also before any other one, or that one comes before it. -/
theorem before_or {d f : Diagnostic} (e : Diagnostic) (h : d.before f = true) :
    d.before e = true ∨ e.before f = true := by
  simp only [before_iff] at h ⊢
  rcases h with hfile | ⟨hsame, hposition⟩
  · exact (Path.before_or e.file hfile).imp .inl .inl
  · by_cases hde : d.file.same e.file = true
    · have hef := Path.same_trans (Path.same_symm hde) hsame
      exact (positionBefore_or e.position? hposition).imp (fun h => .inr ⟨hde, h⟩)
        fun h => .inr ⟨hef, h⟩
    · by_cases hbefore : d.file.before e.file = true
      · exact .inl (.inl hbefore)
      · have hed : e.file.before d.file = true :=
          Path.before_of_not_same (by rw [Path.same_comm]; simpa using hde) (by simpa using hbefore)
        rw [(Path.before_congr hsame e.file).2] at hed
        exact .inr (.inl hed)

/-- Of two diagnostics of different places one comes first. -/
theorem before_of_places {d e : Diagnostic}
    (h : d.file.same e.file = false ∨ d.position? ≠ e.position?) :
    d.before e = true ∨ e.before d = true := by
  simp only [before_iff]
  cases hsame : d.file.same e.file with
  | false =>
    cases hbefore : d.file.before e.file with
    | true => exact .inl (.inl rfl)
    | false =>
      rw [Path.same_comm] at hsame
      exact .inr (.inl (Path.before_of_not_same hsame hbefore))
  | true =>
    have hpositions := h.resolve_left (by simp [hsame])
    have hback : e.file.same d.file = true := Path.same_symm hsame
    simp only [hback, true_and]
    cases hd : d.position? with
    | none =>
      cases he : e.position? with
      | none => exact absurd (hd.trans he.symm) hpositions
      | some q => exact .inl (.inr rfl)
    | some p =>
      cases he : e.position? with
      | none => exact .inr (.inr rfl)
      | some q =>
        by_cases hpq : p.before q = true
        · exact .inl (.inr hpq)
        · by_cases hqp : q.before p = true
          · exact .inr (.inr hqp)
          · have heq := Position.eq_of_not_before (by simpa using hpq) (by simpa using hqp)
            exact absurd (by rw [hd, he, heq]) hpositions

/-! ## Sorting -/

theorem not_after_trans (d e f : Diagnostic) (hde : (!e.before d) = true)
    (hef : (!f.before e) = true) : (!f.before d) = true := by
  rw [Bool.not_eq_true'] at hde hef ⊢
  rw [Bool.eq_false_iff]
  intro hfd
  rcases before_or e hfd with hfe | hed
  · rw [hef] at hfe
    cases hfe
  · rw [hde] at hed
    cases hed

theorem not_after_total (d e : Diagnostic) : ((!e.before d) || !d.before e) = true := by
  cases hde : d.before e with
  | false => simp
  | true => simp [before_asymm hde]

theorem pairwise_sort (ds : List Diagnostic) :
    (sort ds).Pairwise fun d e => e.before d = false := by
  refine (List.pairwise_mergeSort not_after_trans not_after_total ds).imp fun h => ?_
  rwa [Bool.not_eq_true'] at h

/-- The order in which diagnostics of different places were found does not matter. -/
theorem sort_append_of_perm {ds es : List Diagnostic} (hperm : ds.Perm es)
    (hplaces : ∀ d ∈ ds, ∀ e ∈ ds, d = e ∨ d.before e = true ∨ e.before d = true)
    (rest : List Diagnostic) : sort (ds ++ rest) = sort (es ++ rest) := by
  refine mergeSort_append_of_perm not_after_trans not_after_total hperm (fun d hd e he => ?_) rest
  simpa using (hplaces d hd e he).imp_right Or.symm

/-- Diagnostics of different places have one order only. -/
theorem eq_of_perm {ds es : List Diagnostic} (hperm : ds.Perm es)
    (hplaces : ∀ d ∈ es, ∀ e ∈ es, d = e ∨ d.before e = true ∨ e.before d = true)
    (hds : ds.Pairwise fun d e => e.before d = false)
    (hes : es.Pairwise fun d e => e.before d = false) : ds = es := by
  refine hperm.eq_of_pairwise (fun d e hd he hde hed => ?_) hds hes
  rcases hplaces d (hperm.mem_iff.1 hd) e he with heq | hbefore | hbefore
  · exact heq
  · rw [hed] at hbefore
    cases hbefore
  · rw [hde] at hbefore
    cases hbefore

end Diagnostic

end StyleImports
