import Mathlib.Data.List.Basic
import StyleImports.Path.Table

/-!
# What a table of paths holds

Which entries a table has after one was put in, as a set of entries and of paths, whatever the
order.
-/

set_option autoImplicit false

namespace StyleImports

theorem Path.nodup_of_distinct {paths : List Path}
    (h : paths.Pairwise fun p q => p.same q = false) : paths.Nodup :=
  h.imp fun hpq heq => by
    rw [heq, Path.same_self] at hpq
    cases hpq

namespace PathTable

variable {α : Type}

theorem contains_iff {table : PathTable α} {p : Path} :
    table.contains p = true ↔ ∃ q ∈ table.keys, q.same p = true := by
  simp [contains, keys]

theorem contains_congr {table : PathTable α} {p q : Path} (h : p.same q = true) :
    table.contains p = table.contains q := by
  rw [contains_eq_isSome_get?, contains_eq_isSome_get?, get?_congr h]

theorem exists_of_get? {table : PathTable α} {p : Path} {a : α} (h : table.get? p = some a) :
    ∃ q, (q, a) ∈ table.entries ∧ q.same p = true := by
  obtain ⟨entry, hfind, rfl⟩ := Option.map_eq_some_iff.1 h
  have hsame := List.find?_some hfind
  exact ⟨entry.1, List.mem_of_find?_eq_some hfind, hsame⟩

theorem get?_of_mem {table : PathTable α} {p : Path} {a : α}
    (hdistinct : table.keys.Pairwise fun p q => p.same q = false) (h : (p, a) ∈ table.entries) :
    table.get? p = some a := by
  obtain ⟨entries⟩ := table
  simp only [keys, get?, findEntry] at hdistinct h ⊢
  induction entries with
  | nil => cases h
  | cons entry rest ih =>
    obtain ⟨q, b⟩ := entry
    rw [List.map_cons, List.pairwise_cons] at hdistinct
    rcases List.mem_cons.1 h with heq | hmem
    · cases heq
      simp
    · have hne := hdistinct.1 p (List.mem_map_of_mem hmem)
      simpa [hne] using ih hdistinct.2 hmem

theorem entries_insert_perm {table : PathTable α} {p : Path} (a : α)
    (h : table.contains p = false) : (table.insert p a).entries.Perm ((p, a) :: table.entries) := by
  obtain ⟨entries⟩ := table
  simp only [insert, contains] at h ⊢
  induction entries with
  | nil => exact .refl _
  | cons entry rest ih =>
    obtain ⟨q, b⟩ := entry
    simp only [List.any_cons, Bool.or_eq_false_iff] at h
    simp only [putEntry, h.1, Bool.false_eq_true, if_false]
    split
    · exact .refl _
    · exact ((ih h.2).cons (q, b)).trans (.swap (p, a) (q, b) rest)

theorem keys_insert_perm {table : PathTable α} {p : Path} (a : α)
    (h : table.contains p = false) : (table.insert p a).keys.Perm (p :: table.keys) :=
  (entries_insert_perm a h).map Prod.fst

theorem mem_keys_insert {table : PathTable α} {p q : Path} {a : α}
    (h : q ∈ (table.insert p a).keys) : q = p ∨ q ∈ table.keys := by
  obtain ⟨entries⟩ := table
  simp only [insert, keys] at h ⊢
  induction entries with
  | nil => simpa [putEntry] using h
  | cons entry rest ih =>
    obtain ⟨r, b⟩ := entry
    simp only [putEntry] at h
    split at h
    · exact .inr (by simpa using h)
    · split at h
      · simpa using h
      · rw [List.map_cons, List.mem_cons] at h ⊢
        rcases h with rfl | h
        · exact .inr (.inl rfl)
        · exact (ih h).imp_right .inr

/-- An entry after a path was put in is for that path and has the value that was put in, or was
there before. -/
theorem mem_entries_insert {table : PathTable α} {p : Path} {a : α} {e : Path × α}
    (h : e ∈ (table.insert p a).entries) :
    e.1.same p = true ∧ e.2 = a ∨ e ∈ table.entries := by
  obtain ⟨entries⟩ := table
  simp only [insert] at h ⊢
  induction entries with
  | nil =>
    rw [List.mem_singleton.1 h]
    exact .inl ⟨Path.same_self p, rfl⟩
  | cons entry rest ih =>
    obtain ⟨r, b⟩ := entry
    simp only [putEntry] at h
    split at h
    case isTrue hsame =>
      rcases List.mem_cons.1 h with rfl | h
      · exact .inl ⟨hsame, rfl⟩
      · exact .inr (List.mem_cons_of_mem _ h)
    · split at h
      · rcases List.mem_cons.1 h with rfl | h
        · exact .inl ⟨Path.same_self p, rfl⟩
        · exact .inr h
      · rcases List.mem_cons.1 h with rfl | h
        · exact .inr List.mem_cons_self
        · exact (ih h).imp_right (List.mem_cons_of_mem _)

theorem get?_erase (table : PathTable α) (p q : Path) :
    (table.erase p).get? q = if q.same p then none else table.get? q := by
  rw [get?, get?, findEntry, findEntry, erase, List.find?_filter]
  cases hqp : q.same p with
  | true =>
    have hsame : ∀ r : Path, r.same p = r.same q := by
      simp only [Path.same, Path.same_iff.1 hqp, implies_true]
    simp [hsame]
  | false =>
    have hkept : ∀ r : Path, r.same q = true → r.same p = false := by
      intro r hr
      rw [← Bool.not_eq_true]
      intro hp
      rw [Path.same_trans (Path.same_symm hr) hp] at hqp
      cases hqp
    have hfind : ∀ e : Path × α,
        decide ((!e.1.same p) = true ∧ e.1.same q = true) = e.1.same q := by
      intro e
      cases hq : e.1.same q with
      | true => simp [hkept e.1 hq]
      | false => simp
    simp only [hfind, Bool.false_eq_true, if_false]

end PathTable

namespace PathSet

theorem contains_add {set : PathSet} {p q : Path} :
    (set.add p).contains q = (p.same q || set.contains q) := PathTable.contains_insert set p q ()

theorem contains_foldl_add {set : PathSet} {paths : List Path} {q : Path} :
    (paths.foldl add set).contains q = true ↔
      q.isAmong paths = true ∨ set.contains q = true := by
  induction paths generalizing set with
  | nil => simp [Path.isAmong]
  | cons p paths ih =>
    rw [List.foldl_cons, ih, contains_add, Path.isAmong_cons, Bool.or_eq_true, Bool.or_eq_true]
    exact or_left_comm.trans or_assoc.symm

theorem mem_foldl_add {set : PathSet} {paths : List Path} {q : Path}
    (h : q ∈ (paths.foldl add set).toList) : q ∈ paths ∨ q ∈ set.toList := by
  induction paths generalizing set with
  | nil => exact .inr h
  | cons p paths ih =>
    rcases ih h with hq | hq
    · exact .inl (List.mem_cons_of_mem _ hq)
    · rcases PathTable.mem_keys_insert hq with rfl | hq
      · exact .inl List.mem_cons_self
      · exact .inr hq

end PathSet

end StyleImports
