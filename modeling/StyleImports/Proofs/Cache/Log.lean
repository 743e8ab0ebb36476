import Mathlib.Data.List.Induction
import StyleImports.Cache.Basic
import StyleImports.Proofs.Path.Order
import StyleImports.Proofs.Path.Table

/-!
# The cache as a log

What a cache holds is told by the log of what was done with it. An entry is live for a file if it
was put in for the file and nothing has ended it since (`Operation.Ends`): no other entry was put in
for the file, the file was not invalidated, the cache was not cleared, and the entry was not asked
for while one of its targets was missing. One operation changes the entry of a file as it changes
the live one (`get?_apply`), so a cache holds the live entries of its log (`get?_afterLog`). What it
answers and what it counts follows (`refines_log`).
-/

set_option autoImplicit false

namespace StyleImports.Cache

/-- What may be done with a cache. -/
inductive Operation where
  | insert (file : Path) (entry : CacheEntry)
  | get (file : Path) (content options : Text) (targetExists : Path → Bool)
  | invalidate (file : Path)
  | clear

namespace Operation

def apply (cache : Cache) : Operation → Cache
  | insert file entry => cache.insert file entry
  | get file content options targetExists => (cache.get file content options targetExists).2
  | invalidate file => cache.erase file
  | clear => cache.clear

/-- The answer of a cache, if it is asked. -/
def answer? (cache : Cache) : Operation → Option (Option (List Dependency))
  | get file content options targetExists => some (cache.get file content options targetExists).1
  | _ => none

def isGet : Operation → Bool
  | get _ _ _ _ => true
  | _ => false

/-- What ends an entry that is kept for a file. -/
def Ends (file : Path) (entry : CacheEntry) : Operation → Prop
  | insert other _ => other.same file = true
  | get other content options targetExists =>
    other.same file = true ∧ entry.content = content ∧ entry.options = options ∧
      ∃ d ∈ entry.dependencies, ∃ p ∈ d.target.paths, targetExists p = false
  | invalidate other => other.same file = true
  | clear => True

end Operation

/-- The cache after a log, whose first operation was made with an empty cache. -/
def afterLog (log : List Operation) : Cache := log.foldl Operation.apply empty

/-- The answers that a cache gives while a log is made with it. -/
def answersFrom (cache : Cache) : List Operation → List (Option (List Dependency))
  | [] => []
  | op :: log => (op.answer? cache).toList ++ answersFrom (op.apply cache) log

def answersOf (log : List Operation) : List (Option (List Dependency)) := answersFrom empty log

/-- An entry that was put in for a file, and that nothing has ended since. -/
def Live (log : List Operation) (file : Path) (entry : CacheEntry) : Prop :=
  ∃ before other after, log = before ++ .insert other entry :: after ∧ other.same file = true ∧
    ∀ op ∈ after, ¬ op.Ends file entry

variable {cache : Cache} {file : Path} {entry : CacheEntry} {op : Operation}
  {content options : Text} {targetExists : Path → Bool}

/-! ## One operation -/

theorem isLive_iff : isLive targetExists entry = true ↔
    ∀ d ∈ entry.dependencies, ∀ p ∈ d.target.paths, targetExists p = true := by
  simp only [isLive, List.all_eq_true]

theorem isLive_eq_false_iff : isLive targetExists entry = false ↔
    ∃ d ∈ entry.dependencies, ∃ p ∈ d.target.paths, targetExists p = false := by
  rw [← Bool.not_eq_true, isLive_iff]
  push Not
  simp only [ne_eq, Bool.not_eq_true]

theorem entryFor_eq_some : cache.entryFor file content options = some entry ↔
    cache.entries.get? file = some entry ∧ entry.content = content ∧ entry.options = options := by
  simp only [entryFor, Option.filter_eq_some_iff, Bool.and_eq_true, decide_eq_true_eq]

/-- A question is missed, or it is answered with a live entry, or it drops an entry. -/
theorem get_cases (cache : Cache) (file : Path) (content options : Text)
    (targetExists : Path → Bool) :
    (cache.entryFor file content options = none ∧
      cache.get file content options targetExists =
        (none, { cache with misses := cache.misses + 1 })) ∨
    (∃ entry, cache.entryFor file content options = some entry ∧
      isLive targetExists entry = true ∧
      cache.get file content options targetExists =
        (some entry.dependencies, { cache with hits := cache.hits + 1 })) ∨
    (∃ entry, cache.entryFor file content options = some entry ∧
      isLive targetExists entry = false ∧
      cache.get file content options targetExists =
        (none, { cache with entries := cache.entries.erase file, misses := cache.misses + 1 })) := by
  cases hfor : cache.entryFor file content options with
  | none => exact .inl ⟨rfl, by simp only [get, hfor]⟩
  | some entry =>
    cases hlive : isLive targetExists entry with
    | true => exact .inr (.inl ⟨entry, rfl, hlive, by simp only [get, hfor, hlive, if_true]⟩)
    | false =>
      refine .inr (.inr ⟨entry, rfl, hlive, ?_⟩)
      simp only [get, hfor, hlive, Bool.false_eq_true, if_false]

theorem get_eq_some {dependencies : List Dependency} :
    (cache.get file content options targetExists).1 = some dependencies ↔
      ∃ entry, cache.entries.get? file = some entry ∧ entry.content = content ∧
        entry.options = options ∧
        (∀ d ∈ entry.dependencies, ∀ p ∈ d.target.paths, targetExists p = true) ∧
        dependencies = entry.dependencies := by
  rcases get_cases cache file content options targetExists with
    ⟨hfor, hget⟩ | ⟨kept, hfor, hlive, hget⟩ | ⟨kept, hfor, hlive, hget⟩
  · rw [hget]
    refine ⟨nofun, ?_⟩
    rintro ⟨entry, hentry, hcontent, hoptions, -, -⟩
    rw [entryFor_eq_some.2 ⟨hentry, hcontent, hoptions⟩] at hfor
    cases hfor
  · rw [hget]
    obtain ⟨hkept, hcontent, hoptions⟩ := entryFor_eq_some.1 hfor
    constructor
    · intro h
      cases h
      exact ⟨kept, hkept, hcontent, hoptions, isLive_iff.1 hlive, rfl⟩
    · rintro ⟨entry, hentry, -, -, -, rfl⟩
      rw [hkept] at hentry
      cases hentry
      rfl
  · rw [hget]
    refine ⟨nofun, ?_⟩
    rintro ⟨entry, hentry, -, -, hthere, -⟩
    rw [(entryFor_eq_some.1 hfor).1] at hentry
    cases hentry
    rw [isLive_iff.2 hthere] at hlive
    cases hlive

theorem mem_entries_get {e : Path × CacheEntry}
    (he : e ∈ (cache.get file content options targetExists).2.entries.entries) :
    e ∈ cache.entries.entries := by
  rcases get_cases cache file content options targetExists with
    ⟨-, hget⟩ | ⟨entry, -, -, hget⟩ | ⟨entry, -, -, hget⟩
  · rwa [hget] at he
  · rwa [hget] at he
  · rw [hget] at he
    exact (List.mem_filter.1 he).1

theorem entries_get_of_ne (h : cache.entries.get? file = some entry)
    (hne : entry.content ≠ content ∨ entry.options ≠ options) :
    (cache.get file content options targetExists).2.entries = cache.entries := by
  have hother : ∀ kept, cache.entryFor file content options ≠ some kept := by
    intro kept hfor
    obtain ⟨hkept, hcontent, hoptions⟩ := entryFor_eq_some.1 hfor
    rw [h] at hkept
    cases hkept
    exact hne.elim (· hcontent) (· hoptions)
  rcases get_cases cache file content options targetExists with
    ⟨-, hget⟩ | ⟨kept, hfor, -⟩ | ⟨kept, hfor, -⟩
  · rw [hget]
  · exact absurd hfor (hother kept)
  · exact absurd hfor (hother kept)

/-- What a question leaves for a file: the entry, unless it is asked for while a target is
missing. -/
theorem get?_get {other : Path} :
    (cache.get other content options targetExists).2.entries.get? file = some entry ↔
      cache.entries.get? file = some entry ∧
        ¬ (Operation.get other content options targetExists).Ends file entry := by
  have hsame : ∀ {kept : CacheEntry}, other.same file = true →
      cache.entries.get? other = some kept → cache.entries.get? file = some entry →
      kept = entry := by
    intro kept hother hkept hentry
    rw [PathTable.get?_congr hother, hentry] at hkept
    cases hkept
    rfl
  simp only [Operation.Ends, ← isLive_eq_false_iff]
  rcases get_cases cache other content options targetExists with
    ⟨hfor, hget⟩ | ⟨kept, hfor, hlive, hget⟩ | ⟨kept, hfor, hlive, hget⟩
  · rw [hget]
    refine ⟨fun h => ⟨h, ?_⟩, And.left⟩
    rintro ⟨hother, hcontent, hoptions, -⟩
    have hkept : cache.entries.get? other = some entry := (PathTable.get?_congr hother).trans h
    rw [entryFor_eq_some.2 ⟨hkept, hcontent, hoptions⟩] at hfor
    cases hfor
  · rw [hget]
    refine ⟨fun h => ⟨h, ?_⟩, And.left⟩
    rintro ⟨hother, -, -, hmissing⟩
    rw [hsame hother (entryFor_eq_some.1 hfor).1 h, hmissing] at hlive
    cases hlive
  · obtain ⟨hkept, hcontent, hoptions⟩ := entryFor_eq_some.1 hfor
    rw [hget]
    dsimp only
    rw [PathTable.get?_erase, Path.same_comm]
    by_cases hother : other.same file = true
    · rw [if_pos hother]
      refine ⟨nofun, ?_⟩
      rintro ⟨hentry, hends⟩
      cases hsame hother hkept hentry
      exact absurd ⟨hother, hcontent, hoptions, hlive⟩ hends
    · simp [hother]

/-- An operation changes the entry of a file as it changes the live one. -/
theorem get?_apply : (op.apply cache).entries.get? file = some entry ↔
    (∃ other, op = .insert other entry ∧ other.same file = true) ∨
      cache.entries.get? file = some entry ∧ ¬ op.Ends file entry := by
  cases op with
  | insert other kept =>
    have hget : (cache.insert other kept).entries.get? file =
        if file.same other then some kept else cache.entries.get? file := PathTable.get?_insert ..
    simp only [Operation.apply, hget, Operation.Ends, Path.same_comm file other,
      Operation.insert.injEq]
    by_cases hother : other.same file = true <;> simp [hother]
  | get other content options targetExists => simp [Operation.apply, get?_get]
  | invalidate other =>
    have hget : (cache.erase other).entries.get? file =
        if file.same other then none else cache.entries.get? file := PathTable.get?_erase ..
    simp only [Operation.apply, hget, Operation.Ends, Path.same_comm file other]
    by_cases hother : other.same file = true <;> simp [hother]
  | clear =>
    have hget : cache.clear.entries.get? file = none := rfl
    simp [Operation.apply, hget, Operation.Ends]

theorem counts_apply (cache : Cache) (op : Operation) :
    (op.apply cache).hits + (op.apply cache).misses =
        cache.hits + cache.misses + [op].countP Operation.isGet ∧
      (op.apply cache).hits = cache.hits + (op.answer? cache).toList.countP Option.isSome := by
  cases op with
  | get file content options targetExists =>
    rcases get_cases cache file content options targetExists with
      ⟨-, hget⟩ | ⟨entry, -, -, hget⟩ | ⟨entry, -, -, hget⟩
    all_goals
      simp only [Operation.apply, Operation.answer?, Operation.isGet, hget, Option.toList_some,
        List.countP_singleton, Option.isSome_some, Option.isSome_none, if_true, Bool.false_eq_true,
        if_false, and_true]
      omega
  | insert => exact ⟨rfl, rfl⟩
  | invalidate => exact ⟨rfl, rfl⟩
  | clear => exact ⟨rfl, rfl⟩

theorem isOrdered_apply (h : cache.entries.IsOrdered) : (op.apply cache).entries.IsOrdered := by
  have herase : ∀ file, (cache.entries.erase file).IsOrdered := fun file => List.Pairwise.filter _ h
  cases op with
  | insert file entry => exact h.insert file entry
  | get file content options targetExists =>
    rcases get_cases cache file content options targetExists with
      ⟨-, hget⟩ | ⟨entry, -, -, hget⟩ | ⟨entry, -, -, hget⟩
    · simpa only [Operation.apply, hget] using h
    · simpa only [Operation.apply, hget] using h
    · simpa only [Operation.apply, hget] using herase file
  | invalidate file => exact herase file
  | clear => exact List.Pairwise.nil

/-! ## Logs -/

theorem afterLog_append_singleton (log : List Operation) (op : Operation) :
    afterLog (log ++ [op]) = op.apply (afterLog log) := List.foldl_concat ..

theorem answersFrom_append (cache : Cache) (log : List Operation) (op : Operation) :
    answersFrom cache (log ++ [op]) =
      answersFrom cache log ++ (op.answer? (log.foldl Operation.apply cache)).toList := by
  induction log generalizing cache with
  | nil => simp [answersFrom]
  | cons first log ih => simp [answersFrom, ih]

/-- An operation puts in the entry that is live after it, or leaves the one that was. -/
theorem live_append_singleton {log : List Operation} : Live (log ++ [op]) file entry ↔
    (∃ other, op = .insert other entry ∧ other.same file = true) ∨
      Live log file entry ∧ ¬ op.Ends file entry := by
  constructor
  · rintro ⟨before, other, after, heq, hother, hafter⟩
    rcases List.eq_nil_or_concat after with rfl | ⟨after, last, rfl⟩
    · obtain ⟨-, hop⟩ := List.append_inj' heq rfl
      cases hop
      exact .inl ⟨other, rfl, hother⟩
    · rw [List.concat_eq_append] at heq hafter
      rw [← List.cons_append, ← List.append_assoc] at heq
      obtain ⟨rfl, hop⟩ := List.append_inj' heq rfl
      cases hop
      refine .inr ⟨⟨before, other, after, rfl, hother, fun op hop => ?_⟩, ?_⟩
      · exact hafter op (List.mem_append_left _ hop)
      · exact hafter op (List.mem_append_right _ List.mem_cons_self)
  · rintro (⟨other, rfl, hother⟩ | ⟨⟨before, other, after, rfl, hother, hafter⟩, hop⟩)
    · exact ⟨log, other, [], rfl, hother, nofun⟩
    · refine ⟨before, other, after ++ [op], by simp, hother, fun next hnext => ?_⟩
      rcases List.mem_append.1 hnext with hnext | hnext
      · exact hafter next hnext
      · rw [List.mem_singleton.1 hnext]
        exact hop

/-- A cache holds the entries that are live after its log. -/
theorem get?_afterLog (log : List Operation) (file : Path) (entry : CacheEntry) :
    (afterLog log).entries.get? file = some entry ↔ Live log file entry := by
  induction log using List.reverseRecOn with
  | nil =>
    refine ⟨nofun, ?_⟩
    rintro ⟨before, other, after, heq, -⟩
    simp at heq
  | append_singleton log op ih =>
    rw [afterLog_append_singleton, get?_apply, live_append_singleton, ih]

theorem counts_afterLog (log : List Operation) :
    (afterLog log).hits + (afterLog log).misses = log.countP Operation.isGet ∧
      (afterLog log).hits = (answersOf log).countP Option.isSome := by
  induction log using List.reverseRecOn with
  | nil => exact ⟨rfl, rfl⟩
  | append_singleton log op ih =>
    obtain ⟨hcounts, hhits⟩ := counts_apply (afterLog log) op
    have hanswers : answersOf (log ++ [op]) =
        answersOf log ++ (op.answer? (afterLog log)).toList := answersFrom_append empty log op
    rw [afterLog_append_singleton, hanswers, List.countP_append, List.countP_append, hcounts, hhits,
      ih.1, ih.2]
    exact ⟨rfl, rfl⟩

theorem isOrdered_afterLog (log : List Operation) : (afterLog log).entries.IsOrdered := by
  induction log using List.reverseRecOn with
  | nil => exact List.Pairwise.nil
  | append_singleton log op ih =>
    rw [afterLog_append_singleton]
    exact isOrdered_apply ih

theorem exists_files_of_log (log : List Operation) : ∃ files : List Path,
    (files.Pairwise fun p q => p.same q = false) ∧
      (∀ file : Path, file.isAmong files = true ↔ ∃ entry, Live log file entry) ∧
      (afterLog log).size = files.length := by
  refine ⟨(afterLog log).entries.keys, (isOrdered_afterLog log).distinct, fun file => ?_, ?_⟩
  · rw [Path.isAmong_iff, ← PathTable.contains_iff, PathTable.contains_eq_isSome_get?,
      Option.isSome_iff_exists]
    exact exists_congr (get?_afterLog log file)
  · simp [size, PathTable.size, PathTable.keys]

/-- After any log, a cache answers a question exactly if the live entry for the file was put in for
that content and those options and all that it leads to is there, and then with its records; a
question for another content or other options leaves the entries in place. The counts are those of
the questions and of the answers, and there is an entry for each file with a live one. -/
theorem refines_log (log : List Operation) :
    (∀ file content options targetExists dependencies,
      ((afterLog log).get file content options targetExists).1 = some dependencies ↔
        ∃ entry, Live log file entry ∧ entry.content = content ∧ entry.options = options ∧
          (∀ d ∈ entry.dependencies, ∀ p ∈ d.target.paths, targetExists p = true) ∧
          dependencies = entry.dependencies) ∧
    (∀ file entry content options targetExists, Live log file entry →
      entry.content ≠ content ∨ entry.options ≠ options →
      ((afterLog log).get file content options targetExists).2.entries =
        (afterLog log).entries) ∧
    (afterLog log).hits + (afterLog log).misses = log.countP Operation.isGet ∧
    (afterLog log).hits = (answersOf log).countP Option.isSome ∧
    ∃ files : List Path, (files.Pairwise fun p q => p.same q = false) ∧
      (∀ file : Path, file.isAmong files = true ↔ ∃ entry, Live log file entry) ∧
      (afterLog log).size = files.length := by
  obtain ⟨hcounts, hhits⟩ := counts_afterLog log
  refine ⟨fun file content options targetExists dependencies => ?_,
    fun file entry content options targetExists hlive hne => ?_, hcounts, hhits,
    exists_files_of_log log⟩
  · simp only [get_eq_some, get?_afterLog]
  · exact entries_get_of_ne ((get?_afterLog log file entry).2 hlive) hne

end StyleImports.Cache
