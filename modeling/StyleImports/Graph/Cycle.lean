import StyleImports.Graph.Basic

/-!
# Import cycles

A depth-first search from an entry, and then from every file of the graph, follows the edges in
order. An edge back to a file that is still on the chain of imports closes a cycle; these edges are
reported, and without them no cycle is left.

The search keeps its chain on a stack and follows one edge at a time (`Search.step`). A file is
marked when it comes onto the chain and marked again when it leaves it, so it comes onto the chain
once; this bounds the steps (`Search.measure_step`), and `Search.run` takes them all.
-/

set_option autoImplicit false

namespace StyleImports.Index

/-- Where a search stands with a file: it is on the chain, or it was left. -/
inductive Mark where
  | active
  | done
  deriving DecidableEq, Repr

/-- A file on the chain, with the number of its edges that were followed. -/
structure Frame where
  file : Path
  followed : Nat
  deriving DecidableEq, Repr

/-- A search under way: the files that it still has to start from, the marks, the chain with its
last file first, and the edges back into the chain. -/
structure Search where
  roots : List Path
  marks : PathTable Mark
  stack : List Frame
  back : List Edge

namespace Search

/-- The search from an entry, if it is in the graph, and then from every file. -/
def start (index : Index) (entry : Path) : Search :=
  ⟨(index.key? entry).toList ++ index.keys, .empty, [], []⟩

def enter (s : Search) (file : Path) : Search :=
  { s with marks := s.marks.insert file .active, stack := ⟨file, 0⟩ :: s.stack }

def leave (s : Search) (file : Path) (below : List Frame) : Search :=
  { s with marks := s.marks.insert file .done, stack := below }

def follow (s : Search) (edge : Edge) : Search :=
  match s.marks.get? edge.target with
  | some .active => { s with back := s.back ++ [edge] }
  | some .done => s
  | none => s.enter edge.target

/-- One step, none when nothing is left to do: a new root is started, an edge is followed, or a
file without further edges is left. -/
def step (index : Index) (s : Search) : Option Search :=
  match s.stack with
  | [] =>
    match s.roots with
    | [] => none
    | root :: roots =>
      if s.marks.contains root then some { s with roots := roots }
      else some ({ s with roots := roots }.enter root)
  | ⟨file, followed⟩ :: below =>
    match (index.edgesFrom file)[followed]? with
    | none => some (s.leave file below)
    | some edge => some ({ s with stack := ⟨file, followed + 1⟩ :: below }.follow edge)

/-! ## The search ends -/

/-- How many targets of edges are not marked. -/
def unmarked (index : Index) (marks : PathTable Mark) : Nat :=
  index.targets.countP (!marks.contains ·)

/-- How much is left to do on a chain as it is: its edges, and leaving its files. -/
def pending (index : Index) : List Frame → Nat
  | [] => 0
  | frame :: below =>
    (index.edgesFrom frame.file).length - frame.followed + 1 + pending index below

/-- What every step makes smaller: a root is started, or a target is marked, or the chain is worked
off. -/
def measure (index : Index) (s : Search) : Nat × Nat × Nat :=
  (s.roots.length, unmarked index s.marks, pending index s.stack)

theorem unmarked_insert_le (index : Index) (marks : PathTable Mark) (file : Path) (mark : Mark) :
    unmarked index (marks.insert file mark) ≤ unmarked index marks := by
  refine List.countP_mono_left fun p _ hp => ?_
  simp only [PathTable.contains_insert, Bool.not_or, Bool.and_eq_true] at hp
  exact hp.2

theorem unmarked_insert_lt {index : Index} {marks : PathTable Mark} {file : Path} (mark : Mark)
    (hmem : file ∈ index.targets) (h : marks.contains file = false) :
    unmarked index (marks.insert file mark) < unmarked index marks := by
  obtain ⟨before, after, heq⟩ := List.append_of_mem hmem
  have hle : ∀ l : List Path, l.countP (!(marks.insert file mark).contains ·) ≤
      l.countP (!marks.contains ·) := fun l => by
    refine List.countP_mono_left fun p _ hp => ?_
    simp only [PathTable.contains_insert, Bool.not_or, Bool.and_eq_true] at hp
    exact hp.2
  have hb := hle before
  have ha := hle after
  simp only [unmarked, heq, List.countP_append, List.countP_cons, h, PathTable.contains_insert,
    Path.same_self, Bool.true_or, Bool.not_true, Bool.not_false, Bool.false_eq_true, if_false,
    if_true] at hb ha ⊢
  omega

end Search

theorem target_mem_targets {index : Index} {file : Path} {edge : Edge}
    (h : edge ∈ index.edgesFrom file) : edge.target ∈ index.targets := by
  unfold edgesFrom edgesOf PathTable.get? PathTable.findEntry at h
  match hf : index.entries.find? fun entry => entry.1.same file with
  | none => simp [hf] at h
  | some entry =>
    simp only [hf, Option.map_some, Option.getD_some, List.mem_flatMap, List.mem_map] at h
    obtain ⟨d, hd, target, ht, rfl⟩ := h
    simp only [targets, List.mem_flatMap]
    exact ⟨entry, List.mem_of_find?_eq_some hf, d, hd, ht⟩

namespace Search

/-- The order of measures. -/
abbrev Less : Nat × Nat × Nat → Nat × Nat × Nat → Prop :=
  Prod.Lex (· < ·) (Prod.Lex (· < ·) (· < ·))

theorem less_of_unmarked_le {index : Index} {s next : Search} (hroots : next.roots = s.roots)
    (hmarks : unmarked index next.marks ≤ unmarked index s.marks)
    (hstack : pending index next.stack < pending index s.stack) :
    Less (next.measure index) (s.measure index) := by
  simp only [measure, hroots]
  refine .right _ ?_
  rcases Nat.lt_or_eq_of_le hmarks with hlt | heq
  · exact .left _ _ hlt
  · rw [heq]
    exact .right _ hstack

/-- Every step makes the measure smaller, so the search ends. -/
theorem measure_step {index : Index} {s next : Search} (h : s.step index = some next) :
    Less (next.measure index) (s.measure index) := by
  obtain ⟨roots, marks, stack, back⟩ := s
  cases stack with
  | nil =>
    cases roots with
    | nil => simp [step] at h
    | cons root roots =>
      have hlt : next.roots.length < (root :: roots).length := by
        simp only [step] at h
        split at h <;> cases h <;> simp [enter]
      exact .left _ _ hlt
  | cons frame below =>
    obtain ⟨file, followed⟩ := frame
    simp only [step] at h
    split at h
    · cases h
      refine less_of_unmarked_le rfl (unmarked_insert_le ..) ?_
      simp [pending, leave]
    · rename_i edge hedge
      have hshort : pending index (⟨file, followed + 1⟩ :: below) <
          pending index (⟨file, followed⟩ :: below) := by
        have hlt := (List.getElem?_eq_some_iff.1 hedge).1
        simp only [pending]
        omega
      cases h
      simp only [follow]
      split
      · exact less_of_unmarked_le rfl (Nat.le_refl _) hshort
      · exact less_of_unmarked_le rfl (Nat.le_refl _) hshort
      · rename_i hmark
        refine .right _ (.left _ _ (unmarked_insert_lt _ ?_ ?_))
        · exact target_mem_targets (List.mem_of_getElem? hedge)
        · simpa [PathTable.contains_eq_isSome_get?] using hmark

def run (index : Index) (s : Search) : Search :=
  match _h : s.step index with
  | none => s
  | some next => run index next
termination_by s.measure index
decreasing_by exact measure_step _h

end Search

/-- The edges that close a cycle, in the order in which the search from `entry` and then from the
files of the graph meets them. -/
def backEdges (index : Index) (entry : Path) : List Edge :=
  (Search.run index (.start index entry)).back

end StyleImports.Index
