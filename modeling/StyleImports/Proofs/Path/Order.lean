import Mathlib.Data.List.Lex
import Mathlib.Data.List.Sort
import StyleImports.Proofs.Path.Table

/-!
# The order of paths

`Path.before` is a strict order of paths, total up to their spelling. A table keeps its entries in
this order (`PathTable.IsOrdered`), so two tables with the same entries are equal
(`PathTable.IsOrdered.ext`).
-/

set_option autoImplicit false

namespace StyleImports

/-! ## Parts -/

/-- The order of texts by code points. -/
def Text.before (s t : Text) : Bool := List.lex s t fun a b => a.toNat < b.toNat

theorem Text.before_iff {s t : Text} :
    Text.before s t = true ↔ List.Lex (fun a b : Char => a.toNat < b.toNat) s t := by
  simp [Text.before]

theorem Text.before_irrefl (t : Text) : Text.before t t = false := by
  rw [Bool.eq_false_iff, ne_eq, before_iff]
  exact List.lex_irrefl (fun c => Nat.lt_irrefl c.toNat) t

theorem Text.before_trans {s t u : Text} (hst : Text.before s t = true)
    (htu : Text.before t u = true) : Text.before s u = true := by
  rw [before_iff] at hst htu ⊢
  exact List.lex_trans (fun h₁ h₂ => Nat.lt_trans h₁ h₂) hst htu

theorem Text.eq_of_not_before {s t : Text} (hst : Text.before s t = false)
    (hts : Text.before t s = false) : s = t := by
  rw [Bool.eq_false_iff, ne_eq, before_iff] at hst hts
  induction s generalizing t with
  | nil =>
    cases t with
    | nil => rfl
    | cons c t => exact absurd .nil hst
  | cons c s ih =>
    cases t with
    | nil => exact absurd .nil hts
    | cons d t =>
      rw [List.cons_lex_cons_iff, not_or] at hst hts
      have hcd : c = d := Char.toNat_inj.1 (by omega)
      subst hcd
      rw [ih (fun h => hst.2 ⟨rfl, h⟩) fun h => hts.2 ⟨rfl, h⟩]

namespace Part

theorem before_irrefl (a : Part) : a.before a = false := by
  cases a with
  | name n => exact Text.before_irrefl n
  | _ => simp [before]

theorem before_trans {a b c : Part} (hab : a.before b = true) (hbc : b.before c = true) :
    a.before c = true := by
  cases a <;> cases b <;> cases c <;> simp_all [before, rank]
  simpa [Text.before] using Text.before_trans (by simpa [Text.before] using hab)
    (by simpa [Text.before] using hbc)

theorem eq_of_not_before {a b : Part} (hab : a.before b = false) (hba : b.before a = false) :
    a = b := by
  cases a <;> cases b <;> simp_all [before, rank]
  exact Text.eq_of_not_before (by simpa [Text.before] using hab) (by simpa [Text.before] using hba)

end Part

/-! ## Paths -/

namespace Path

theorem before_iff {p q : Path} :
    p.before q = true ↔ List.Lex (fun a b => Part.before a b = true) p.parts q.parts := by
  simp [before]

theorem not_same_of_before {p q : Path} (h : p.before q = true) : p.same q = false := by
  rw [Bool.eq_false_iff]
  intro hsame
  rw [before_iff, same_iff.1 hsame] at h
  exact List.lex_irrefl (fun a => by simp [Part.before_irrefl]) q.parts h

theorem before_trans {p q r : Path} (hpq : p.before q = true) (hqr : q.before r = true) :
    p.before r = true := by
  rw [before_iff] at hpq hqr ⊢
  exact List.lex_trans Part.before_trans hpq hqr

theorem before_of_not_same {p q : Path} (hsame : p.same q = false) (hqp : q.before p = false) :
    p.before q = true := by
  by_contra hpq
  have hparts : ∀ {ps qs : List Part}, ¬List.Lex (fun a b => Part.before a b = true) ps qs →
      ¬List.Lex (fun a b => Part.before a b = true) qs ps → ps = qs := by
    intro ps
    induction ps with
    | nil =>
      intro qs hpq _
      cases qs with
      | nil => rfl
      | cons b qs => exact absurd .nil hpq
    | cons a ps ih =>
      intro qs hpq hqp
      cases qs with
      | nil => exact absurd .nil hqp
      | cons b qs =>
        rw [List.cons_lex_cons_iff, not_or] at hpq hqp
        have hab : a = b := Part.eq_of_not_before (by simpa using hpq.1) (by simpa using hqp.1)
        subst hab
        rw [ih (fun h => hpq.2 ⟨rfl, h⟩) fun h => hqp.2 ⟨rfl, h⟩]
  rw [before_iff] at hpq
  rw [Bool.eq_false_iff, ne_eq, before_iff] at hqp
  rw [Bool.eq_false_iff] at hsame
  exact hsame (same_iff.2 (hparts hpq hqp))

theorem before_asymm {p q : Path} (h : p.before q = true) : q.before p = false := by
  rw [Bool.eq_false_iff]
  intro hqp
  have hself := not_same_of_before (before_trans h hqp)
  rw [same_self] at hself
  cases hself

/-- The order of paths does not depend on their spelling. -/
theorem before_congr {p q : Path} (h : p.same q = true) (r : Path) :
    p.before r = q.before r ∧ r.before p = r.before q := by
  simp only [before, same_iff.1 h, and_self]

end Path

/-! ## Tables -/

namespace PathTable

variable {α : Type}

/-- A table whose entries are in the order of their paths. -/
def IsOrdered (table : PathTable α) : Prop :=
  table.entries.Pairwise fun a b => a.1.before b.1 = true

theorem mem_putEntry {p : Path} {a : α} {entries : List (Path × α)} {entry : Path × α}
    (h : entry ∈ putEntry p a entries) :
    entry.1.same p = true ∨ entry ∈ entries := by
  induction entries with
  | nil =>
    rw [putEntry, List.mem_singleton] at h
    exact .inl (by rw [h]; exact Path.same_self p)
  | cons first rest ih =>
    obtain ⟨q, b⟩ := first
    rw [putEntry] at h
    split at h
    case isTrue hsame =>
      rcases List.mem_cons.1 h with rfl | h
      · exact .inl hsame
      · exact .inr (List.mem_cons_of_mem _ h)
    case isFalse =>
      split at h
      · rcases List.mem_cons.1 h with rfl | h
        · exact .inl (Path.same_self p)
        · exact .inr h
      · rcases List.mem_cons.1 h with rfl | h
        · exact .inr List.mem_cons_self
        · exact (ih h).imp_right (List.mem_cons_of_mem _)

theorem IsOrdered.insert {table : PathTable α} (h : table.IsOrdered) (p : Path) (a : α) :
    (table.insert p a).IsOrdered := by
  obtain ⟨entries⟩ := table
  simp only [IsOrdered, PathTable.insert] at h ⊢
  induction entries with
  | nil => exact List.pairwise_singleton ..
  | cons first rest ih =>
    obtain ⟨q, b⟩ := first
    rw [List.pairwise_cons] at h
    rw [putEntry]
    split
    case isTrue => exact List.pairwise_cons.2 h
    case isFalse hsame =>
      split
      case isTrue hbefore =>
        refine List.pairwise_cons.2 ⟨fun entry hentry => ?_, List.pairwise_cons.2 h⟩
        rcases List.mem_cons.1 hentry with rfl | hentry
        · exact hbefore
        · exact Path.before_trans hbefore (h.1 entry hentry)
      case isFalse hbefore =>
        have hqp : q.before p = true :=
          Path.before_of_not_same (by simpa using hsame) (by simpa using hbefore)
        refine List.pairwise_cons.2 ⟨fun entry hentry => ?_, ih h.2⟩
        rcases mem_putEntry hentry with hentry | hentry
        · rw [(Path.before_congr hentry q).2]
          exact hqp
        · exact h.1 entry hentry

theorem IsOrdered.distinct {table : PathTable α} (h : table.IsOrdered) :
    table.keys.Pairwise fun p q => p.same q = false :=
  List.pairwise_map.2 (h.imp Path.not_same_of_before)

/-- Two tables in order with the same entries are equal. -/
theorem IsOrdered.ext {table other : PathTable α} (h : table.IsOrdered) (hother : other.IsOrdered)
    (hmem : ∀ e, e ∈ table.entries ↔ e ∈ other.entries) : table = other := by
  obtain ⟨entries⟩ := table
  obtain ⟨others⟩ := other
  let r : Path × α → Path × α → Prop := fun a b => a.1.before b.1 = true
  have : Std.Irrefl r := ⟨fun a ha => by
    have := Path.not_same_of_before ha
    rw [Path.same_self] at this
    cases this⟩
  have : Std.Antisymm r := ⟨fun a b hab hba => by
    have := Path.before_asymm hab
    rw [show b.1.before a.1 = true from hba] at this
    cases this⟩
  have heq : entries = others := List.Pairwise.eq_of_mem_iff (r := r) h hother hmem
  rw [heq]

end PathTable

namespace PathSet

theorem isOrdered_foldl_add {set : PathSet} (h : PathTable.IsOrdered set) (paths : List Path) :
    PathTable.IsOrdered (paths.foldl add set) := by
  induction paths generalizing set with
  | nil => exact h
  | cons p paths ih => exact ih (h.insert p ())

end PathSet

end StyleImports
