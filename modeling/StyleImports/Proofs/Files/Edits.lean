import StyleImports.Proofs.Glob.Levels
import StyleImports.Proofs.Path.Order

/-!
# Files in memory after edits

What a memory holds is told by the edits that made it: under a path it holds the content that was
stored last under any of its spellings, unless that was taken away (`get?_afterEdits`). A directory
lists, in order and each once, the names that lead on to something (`mem_entryNames_iff`,
`pairwise_entryNames`). So reading, asking what a path is and listing it say the same of every path
(`consistent_afterEdits`), but for a file below which another one is stored: it counts as a file,
and it is listed all the same.
-/

set_option autoImplicit false

namespace StyleImports.Memory

variable {m : Memory} {cwd p : Path} {content : Bytes}

/-! ## Edits -/

/-- A file is stored under a path, or the one under a path is taken away. -/
inductive Edit where
  | add (p : Path) (content : Bytes)
  | remove (p : Path)
  deriving DecidableEq, Repr

def Edit.path : Edit → Path
  | add p _ => p
  | remove p => p

def edit (m : Memory) : Edit → Memory
  | .add p content => m.add p content
  | .remove p => m.remove p

/-- The files after some edits, the first of which was made when there were none. -/
def afterEdits (cwd : Path) (edits : List Edit) : Memory := edits.foldl edit (empty cwd)

/-- A content was stored under some spelling of a path, and no later edit was made under any. -/
def LastStored (cwd : Path) (edits : List Edit) (p : Path) (content : Bytes) : Prop :=
  ∃ before q after, edits = before ++ .add q content :: after ∧
    Path.cleanFrom cwd q = Path.cleanFrom cwd p ∧
    ∀ e ∈ after, Path.cleanFrom cwd e.path ≠ Path.cleanFrom cwd p

theorem afterEdits_concat (cwd : Path) (edits : List Edit) (e : Edit) :
    afterEdits cwd (edits ++ [e]) = (afterEdits cwd edits).edit e := by
  rw [afterEdits, List.foldl_append]
  rfl

theorem cwd_afterEdits (cwd : Path) (edits : List Edit) : (afterEdits cwd edits).cwd = cwd := by
  induction edits using List.reverseRecOn with
  | nil => rfl
  | append_singleton edits e ih =>
    rw [afterEdits_concat]
    cases e <;> exact ih

theorem isPlaced_afterEdits (cwd : Path) (edits : List Edit) :
    (afterEdits cwd edits).IsPlaced := by
  induction edits using List.reverseRecOn with
  | nil => exact isPlaced_empty cwd
  | append_singleton edits e ih =>
    rw [afterEdits_concat]
    cases e with
    | add p content => exact ih.add p content
    | remove p => exact ih.remove p

/-- The last edit decides on the spellings of its path and on no others. -/
theorem lastStored_concat {edits : List Edit} {e : Edit} :
    LastStored cwd (edits ++ [e]) p content ↔
      (Path.cleanFrom cwd e.path = Path.cleanFrom cwd p ∧ e = .add e.path content) ∨
      (Path.cleanFrom cwd e.path ≠ Path.cleanFrom cwd p ∧ LastStored cwd edits p content) := by
  constructor
  · rintro ⟨before, q, after, hedits, hq, hafter⟩
    rcases List.eq_nil_or_concat after with rfl | ⟨rest, last, rfl⟩
    · obtain ⟨-, hlast⟩ := List.append_inj' hedits rfl
      cases hlast
      exact .inl ⟨hq, rfl⟩
    · rw [List.concat_eq_append] at hedits hafter
      have hsplit : edits ++ [e] = (before ++ .add q content :: rest) ++ [last] := by
        rw [hedits, List.append_assoc, List.cons_append]
      obtain ⟨rfl, hlast⟩ := List.append_inj' hsplit rfl
      cases hlast
      refine .inr ⟨hafter e (by simp), before, q, rest, rfl, hq, fun e' he' => ?_⟩
      exact hafter e' (List.mem_append_left _ he')
  · rintro (⟨hpath, he⟩ | ⟨hpath, before, q, after, rfl, hq, hafter⟩)
    · exact ⟨edits, e.path, [], by rw [← he], hpath, fun _ h => nomatch h⟩
    · refine ⟨before, q, after ++ [e], by simp, hq, fun e' he' => ?_⟩
      rcases List.mem_append.1 he' with he' | he'
      · exact hafter e' he'
      · rw [List.mem_singleton.1 he']
        exact hpath

theorem same_place_iff {q : Path} :
    (m.place p).same (m.place q) = true ↔ m.place q = m.place p :=
  ⟨fun h => (place_eq_of_same h).symm, fun h => h ▸ Path.same_self _⟩

/-- After any edits a path has the content that was stored last under one of its spellings. -/
theorem get?_afterEdits (cwd : Path) (edits : List Edit) (p : Path) (content : Bytes) :
    (afterEdits cwd edits).files.get? ((afterEdits cwd edits).place p) = some content ↔
      LastStored cwd edits p content := by
  induction edits using List.reverseRecOn with
  | nil =>
    constructor
    · rintro ⟨⟩
    · rintro ⟨before, q, after, hedits, -⟩
      simp at hedits
  | append_singleton edits e ih =>
    have hplace : ∀ q, Path.cleanFrom cwd q = (afterEdits cwd edits).place q := fun q => by
      rw [place, cwd_afterEdits]
    rw [lastStored_concat, ← ih, afterEdits_concat, hplace, hplace]
    generalize afterEdits cwd edits = m
    cases e with
    | add q new =>
      change (m.files.insert (m.place q) new).get? (m.place p) = some content ↔ _
      rw [PathTable.get?_insert]
      split
      case isTrue hsame => simp [same_place_iff.1 hsame, Edit.path]
      case isFalse hsame =>
        rw [same_place_iff] at hsame
        simp [hsame, Edit.path]
    | remove q =>
      change (m.files.erase (m.place q)).get? (m.place p) = some content ↔ _
      rw [PathTable.get?_erase]
      split
      case isTrue hsame => simp [same_place_iff.1 hsame, Edit.path]
      case isFalse hsame =>
        rw [same_place_iff] at hsame
        simp [hsame, Edit.path]

/-! ## What a directory lists -/

theorem pairwise_insertName {name : Text} {names : List Text}
    (h : names.Pairwise fun a b => Text.before a b = true) :
    (insertName name names).Pairwise fun a b => Text.before a b = true := by
  induction names with
  | nil => exact List.pairwise_singleton _ _
  | cons first rest ih =>
    obtain ⟨hfirst, hrest⟩ := List.pairwise_cons.1 h
    rw [insertName]
    split
    · exact h
    · split
      case isTrue hbefore =>
        refine List.pairwise_cons.2 ⟨fun b hb => ?_, h⟩
        rcases List.mem_cons.1 hb with rfl | hb
        · exact hbefore
        · exact Text.before_trans hbefore (hfirst b hb)
      case isFalse hne hbefore =>
        have hafter : Text.before first name = true := by
          by_contra hnot
          exact hne (Text.eq_of_not_before (Bool.eq_false_iff.2 hbefore) (by simpa using hnot))
        refine List.pairwise_cons.2 ⟨fun b hb => ?_, ih hrest⟩
        rcases mem_insertName.1 hb with rfl | hb
        · exact hafter
        · exact hfirst b hb

theorem pairwise_entryNames (m : Memory) (p : Path) :
    (m.entryNames p).Pairwise fun a b => Text.before a b = true :=
  List.foldlRecOn (motive := List.Pairwise fun a b => Text.before a b = true) _ _ .nil
    fun _ h _ _ => pairwise_insertName h

theorem IsPlaced.mem_entryNames_iff (h : m.IsPlaced) (hcwd : m.cwd.isAbsolute = true) {n : Text} :
    n ∈ m.entryNames (m.place p) ↔
      (Part.name n).IsName ∧ m.fileSystem.exists? (p.join ⟨n⟩) = true := by
  have hplace : (Part.name n).IsName →
      (m.place (p.join ⟨n⟩)).parts = (m.place p).parts ++ [.name n] := fun hname =>
    Path.parts_cleanFrom_of_append hcwd hname (Path.parts_join_name hname p)
  rw [mem_entryNames]
  simp only [entryName?_eq_some, exists_iff]
  constructor
  · rintro ⟨key, hkey, part, rfl, hbelow⟩
    -- Below an absolute directory there are names only.
    obtain ⟨names, hroot, hnames⟩ := h.exists_names hcwd hkey
    have hname : part.IsName := by
      obtain ⟨above, hplaced, -⟩ := Path.exists_names_cleanFrom hcwd p
      rw [place, hplaced, hroot, List.cons_append, List.cons_prefix_cons] at hbelow
      exact hnames part (hbelow.2.subset (by simp))
    cases part with
    | name n => exact ⟨hname, key, hkey, hplace hname ▸ hbelow⟩
    | _ => cases hname
  · rintro ⟨hname, key, hkey, hbelow⟩
    exact ⟨key, hkey, .name n, rfl, hplace hname ▸ hbelow⟩

/-! ## Edits and questions -/

/-- After any edits seen from an absolute directory, a path can be read exactly if it is a file, and
then has the content that was stored last; it is a directory exactly if it can be listed and cannot
be read; and it can be listed exactly if something lies in it, and then lists, in order and each
once, the names of all that does. -/
theorem consistent_afterEdits (hcwd : cwd.isAbsolute = true) (edits : List Edit) (p : Path) :
    let fs := (afterEdits cwd edits).fileSystem
    (∀ content, fs.read p = .ok content ↔ LastStored cwd edits p content) ∧
    (∀ size, fs.stat p = .ok (.file size) ↔
      ∃ content, fs.read p = .ok content ∧ content.length = size) ∧
    (fs.stat p = .ok .directory ↔
      (∃ names, fs.list p = .ok names) ∧ ∀ content, fs.read p ≠ .ok content) ∧
    ((∃ names, fs.list p = .ok names) ↔
      ∃ n, (Part.name n).IsName ∧ fs.exists? (p.join ⟨n⟩) = true) ∧
    ∀ names, fs.list p = .ok names →
      (names.Pairwise fun a b => Text.before a b = true) ∧
      ∀ n, n ∈ names ↔ (Part.name n).IsName ∧ fs.exists? (p.join ⟨n⟩) = true := by
  have hplaced := isPlaced_afterEdits cwd edits
  have habsolute : (afterEdits cwd edits).cwd.isAbsolute = true := by
    rw [cwd_afterEdits]
    exact hcwd
  refine ⟨fun content => read_eq_ok.trans (get?_afterEdits cwd edits p content),
    fun size => stat_eq_file, stat_eq_directory, ?lists, fun names hlist => ?listed⟩
  case lists =>
    simp only [← hplaced.mem_entryNames_iff habsolute, ← isAbove_iff_exists]
    exact ⟨fun ⟨_, hlist⟩ => (list_eq_ok.1 hlist).2, fun habove => ⟨_, list_eq_ok.2 ⟨rfl, habove⟩⟩⟩
  case listed =>
    rw [(list_eq_ok.1 hlist).1]
    exact ⟨pairwise_entryNames _ _, fun n => hplaced.mem_entryNames_iff habsolute⟩

/-- A file that is stored twice under two spellings, one beside it, and one that is taken away. -/
def kitEdits : List Edit :=
  [.add ⟨"kit/a.styl".toList⟩ (Text.utf8 "a"), .add ⟨"kit/x.styl".toList⟩ (Text.utf8 "x"),
    .add ⟨"/p/./kit/sub/../a.styl".toList⟩ (Text.utf8 "b"),
    .add ⟨"kit/sub/c.styl".toList⟩ (Text.utf8 "c"), .remove ⟨"../p/kit//x.styl".toList⟩]

theorem consistent_afterEdits_kit :
    (⟨"/p".toList⟩ : Path).isAbsolute = true ∧
    LastStored ⟨"/p".toList⟩ kitEdits ⟨"kit/a.styl".toList⟩ (Text.utf8 "b") ∧
    (afterEdits ⟨"/p".toList⟩ kitEdits).fileSystem.stat ⟨"kit".toList⟩ = .ok .directory ∧
    ∀ n, n ∈ ["a.styl", "sub"].map String.toList ↔ (Part.name n).IsName ∧
      (afterEdits ⟨"/p".toList⟩ kitEdits).fileSystem.exists? ((⟨"kit".toList⟩ : Path).join ⟨n⟩) =
        true := by
  have hcwd : (⟨"/p".toList⟩ : Path).isAbsolute = true := by decide
  have hread : (afterEdits ⟨"/p".toList⟩ kitEdits).fileSystem.read ⟨"kit/a.styl".toList⟩ =
      .ok (Text.utf8 "b") := by decide +kernel
  have hlist : (afterEdits ⟨"/p".toList⟩ kitEdits).fileSystem.list ⟨"kit".toList⟩ =
      .ok (["a.styl", "sub"].map String.toList) := by decide +kernel
  have hstat : (afterEdits ⟨"/p".toList⟩ kitEdits).fileSystem.stat ⟨"kit".toList⟩ =
      .ok .directory := by decide +kernel
  exact ⟨hcwd, ((consistent_afterEdits hcwd kitEdits ⟨"kit/a.styl".toList⟩).1 _).1 hread, hstat,
    ((consistent_afterEdits hcwd kitEdits ⟨"kit".toList⟩).2.2.2.2 _ hlist).2⟩

/-- A file, and another one stored below it. -/
def nestedEdits : List Edit :=
  [.add ⟨"/p/a".toList⟩ (Text.utf8 "x"), .add ⟨"/p/a/b".toList⟩ (Text.utf8 "y")]

/-- A file is listed like a directory if another one is stored below it. -/
theorem not_list_iff_directory :
    ¬ ∀ (cwd : Path) (edits : List Edit) (p : Path), cwd.isAbsolute = true →
      ((∃ names, (afterEdits cwd edits).fileSystem.list p = .ok names) ↔
        (afterEdits cwd edits).fileSystem.stat p = .ok .directory) := by
  intro h
  have hlist : (afterEdits ⟨"/p".toList⟩ nestedEdits).fileSystem.list ⟨"/p/a".toList⟩ =
      .ok ["b".toList] := by decide +kernel
  have hstat : (afterEdits ⟨"/p".toList⟩ nestedEdits).fileSystem.stat ⟨"/p/a".toList⟩ =
      .ok (.file 1) := by decide +kernel
  have hdirectory := (h ⟨"/p".toList⟩ nestedEdits ⟨"/p/a".toList⟩ (by decide)).1 ⟨_, hlist⟩
  rw [hstat] at hdirectory
  cases hdirectory

end StyleImports.Memory
