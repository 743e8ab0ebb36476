import StyleImports.Proofs.Graph.Reach

/-!
# Edges that close a cycle

What the depth-first search of `Index.backEdges` keeps (`Search.Inv`): the active files are the
chain, each file of the chain leads to the next one, and the files that were left can be listed so
that every edge of a file is reported or leads to a file further down the list (`Search.Left`).

So a reported edge leads back into the chain and lies on a cycle, and the edges that are not
reported descend along the list, which leaves no cycle among them.
-/

set_option autoImplicit false

namespace StyleImports.Index

open Relation

namespace Search

variable {index : Index} {back back' : List Edge} {left left' : List Path} {s next : Search}

/-! ## The invariant -/

/-- The files on the chain, the last one first. -/
def chain (s : Search) : List Path := s.stack.map Frame.file

/-- An edge that needs no more attention: it is reported, or its target was left. -/
def Settled (back : List Edge) (left : List Path) (e : Edge) : Prop :=
  (∃ r ∈ back, r.same e = true) ∨ e.target.isAmong left = true

/-- Files in the order in which they were left, the last one first. -/
inductive Left (index : Index) (back : List Edge) : List Path → Prop where
  | nil : Left index back []
  | cons {file : Path} {files : List Path} : Left index back files →
      file.isAmong files = false → (∀ e ∈ index.edgesFrom file, Settled back files e) →
      Left index back (file :: files)

/-- A chain below a file: the edges that were followed are settled or lead to the next file, to
which each file leads. -/
inductive Chain (index : Index) (back : List Edge) (left : List Path) :
    Option Path → List Frame → Prop where
  | nil {above : Option Path} : Chain index back left above []
  | cons {above : Option Path} {frame : Frame} {below : List Frame} :
      (∀ e ∈ (index.edgesFrom frame.file).take frame.followed,
        Settled back left e ∨ ∃ file, above = some file ∧ e.target.same file = true) →
      (∀ file, above = some file → index.Leads frame.file file) →
      Chain index back left (some frame.file) below →
      Chain index back left above (frame :: below)

/-- What a search keeps, where `left` lists the files that it has left. -/
structure Inv (index : Index) (left : List Path) (s : Search) : Prop where
  settled : Left index s.back left
  chained : Chain index s.back left none s.stack
  done : ∀ p, s.marks.get? p = some .done ↔ p.isAmong left = true
  active : ∀ p, s.marks.get? p = some .active ↔ p.isAmong s.chain = true
  distinct : s.chain.Pairwise fun p q => p.same q = false
  sound : ∀ e ∈ s.back, e ∈ index.edgesFrom e.file ∧ index.Reaches e.target e.file
  rooted : ∀ key ∈ index.keys, key ∈ s.roots ∨ s.marks.contains key = true

/-! ## Monotonicity -/

theorem Settled.mono {e : Edge} (h : Settled back left e) (hback : ∀ r ∈ back, r ∈ back')
    (hleft : ∀ p ∈ left, p ∈ left') : Settled back' left' e := by
  rcases h with ⟨r, hr, hsame⟩ | h
  · exact .inl ⟨r, hback r hr, hsame⟩
  · obtain ⟨p, hp, hsame⟩ := Path.isAmong_iff.1 h
    exact .inr (Path.isAmong_iff.2 ⟨p, hleft p hp, hsame⟩)

theorem Left.mono (h : Left index back left) (hback : ∀ r ∈ back, r ∈ back') :
    Left index back' left := by
  induction h with
  | nil => exact .nil
  | cons _ hfresh hedges ih =>
    exact .cons ih hfresh fun e he => (hedges e he).mono hback fun _ hp => hp

theorem Chain.mono {above : Option Path} {frames : List Frame}
    (h : Chain index back left above frames) (hback : ∀ r ∈ back, r ∈ back')
    (hleft : ∀ p ∈ left, p ∈ left') : Chain index back' left' above frames := by
  induction h with
  | nil => exact .nil
  | cons hedges hleads _ ih =>
    exact .cons (fun e he => (hedges e he).imp_left (·.mono hback hleft)) hleads ih

/-- Once a file is left, the chain below it ends with the file before it. -/
theorem Chain.close {file : Path} {frames : List Frame}
    (h : Chain index back left (some file) frames) :
    Chain index back (file :: left) none frames := by
  cases h with
  | nil => exact .nil
  | cons hedges _ hbelow =>
    refine .cons (fun e he => .inl ?_) (fun _ h => nomatch h)
      (hbelow.mono (fun _ hr => hr) fun _ hp => List.mem_cons_of_mem _ hp)
    rcases hedges e he with hs | ⟨_, heq, hsame⟩
    · exact hs.mono (fun _ hr => hr) fun _ hp => List.mem_cons_of_mem _ hp
    · cases heq
      exact .inr (Path.isAmong_iff.2 ⟨file, List.mem_cons_self, Path.same_symm hsame⟩)

theorem Chain.reaches {above : Option Path} {frame : Frame} {below : List Frame}
    (h : Chain index back left above (frame :: below)) {p : Path}
    (hp : p.isAmong ((frame :: below).map Frame.file) = true) : index.Reaches p frame.file := by
  induction below generalizing above frame with
  | nil =>
    simp only [List.map_cons, List.map_nil, Path.isAmong_cons, Bool.or_eq_true] at hp
    rcases hp with hp | hp
    · exact .inl (Path.same_symm hp)
    · simp [Path.isAmong] at hp
  | cons next below ih =>
    rw [List.map_cons, Path.isAmong_cons, Bool.or_eq_true] at hp
    rcases hp with hp | hp
    · exact .inl (Path.same_symm hp)
    · cases h with
      | cons _ _ hbelow =>
        have hnext := ih hbelow hp
        cases hbelow with
        | cons _ hleads _ => exact hnext.trans (hleads _ rfl).reaches

/-! ## Steps -/

theorem Inv.enter (h : Inv index left s) {file : Path} {roots : List Path} {stack : List Frame}
    (hfresh : s.marks.contains file = false) (hfiles : stack.map Frame.file = s.chain)
    (hchain : Chain index s.back left (some file) stack)
    (hroots : ∀ key ∈ index.keys, key ∈ roots ∨ file.same key = true ∨
      s.marks.contains key = true) :
    Inv index left ({ s with roots, stack }.enter file) := by
  have hnone : s.marks.get? file = none := by
    simpa [PathTable.contains_eq_isSome_get?] using hfresh
  refine ⟨h.settled, ?chained, fun p => ?done, fun p => ?active, ?distinct, h.sound, ?rooted⟩
  case chained =>
    exact .cons (fun e he => by simp at he) (fun _ h => nomatch h) hchain
  case done =>
    simp only [Search.enter, PathTable.get?_insert, ← h.done]
    cases hp : p.same file with
    | false => simp
    | true => simp [PathTable.get?_congr hp, hnone]
  case active =>
    simp only [Search.enter, PathTable.get?_insert, chain, List.map_cons, Path.isAmong_cons, hfiles]
    rw [Path.same_comm]
    cases hp : file.same p with
    | false => simpa [chain] using h.active p
    | true => simp
  case distinct =>
    simp only [chain, Search.enter, List.map_cons, List.pairwise_cons, hfiles]
    refine ⟨fun p hp => ?_, h.distinct⟩
    cases hsame : file.same p with
    | false => rfl
    | true =>
      have := (h.active file).2 (Path.isAmong_iff.2 ⟨p, hp, Path.same_symm hsame⟩)
      simp [hnone] at this
  case rooted =>
    intro key hkey
    simp only [Search.enter, PathTable.contains_insert, Bool.or_eq_true]
    exact hroots key hkey

theorem Inv.leave (h : Inv index left s) {file : Path} {followed : Nat} {below : List Frame}
    (hstack : s.stack = ⟨file, followed⟩ :: below)
    (hend : (index.edgesFrom file)[followed]? = none) :
    Inv index (file :: left) (s.leave file below) := by
  have hchained := h.chained
  rw [hstack] at hchained
  cases hchained with
  | cons hedges _ hbelow =>
    have hdistinct := h.distinct
    have hactive := h.active
    simp only [chain, hstack, List.map_cons, List.pairwise_cons] at hdistinct hactive
    have hfile : s.marks.get? file = some .active :=
      (hactive file).2 (Path.isAmong_of_mem List.mem_cons_self)
    have hlen : (index.edgesFrom file).length ≤ followed := List.getElem?_eq_none_iff.1 hend
    refine ⟨.cons h.settled ?fresh ?edges, hbelow.close, fun p => ?done, fun p => ?active,
      hdistinct.2, h.sound, ?rooted⟩
    case fresh =>
      cases hleft : file.isAmong left with
      | false => rfl
      | true =>
        have hdone := (h.done file).2 hleft
        simp [hfile] at hdone
    case edges =>
      -- All edges were followed, and none of them leads above the last file.
      intro e he
      rw [← List.take_of_length_le hlen] at he
      rcases hedges e he with hs | ⟨_, heq, _⟩
      · exact hs
      · cases heq
    case done =>
      rw [Path.isAmong_cons, Bool.or_eq_true, ← h.done, Search.leave, PathTable.get?_insert]
      rw [Path.same_comm]
      cases hp : file.same p with
      | false => simp
      | true => simp
    case active =>
      simp only [Search.leave, PathTable.get?_insert, chain]
      cases hp : p.same file with
      | false =>
        have := hactive p
        rw [Path.isAmong_cons, Path.same_comm, hp, Bool.false_or] at this
        simpa using this
      | true =>
        -- The file is on the chain once, so it is not below itself.
        suffices hno : p.isAmong (below.map Frame.file) = false by simp [hno]
        cases hb : p.isAmong (below.map Frame.file) with
        | false => rfl
        | true =>
          obtain ⟨q, hq, hqp⟩ := Path.isAmong_iff.1 hb
          have hne := hdistinct.1 q hq
          rw [Path.same_symm (Path.same_trans hqp hp)] at hne
          cases hne
    case rooted =>
      intro key hkey
      refine (h.rooted key hkey).imp_right fun hc => ?_
      simp [Search.leave, PathTable.contains_insert, hc]

/-- Following one more edge keeps the chain, if that edge is settled or leads to the next file. -/
theorem Chain.followed {above : Option Path} {file : Path} {followed : Nat} {below : List Frame}
    {edge : Edge} (h : Chain index back left none (⟨file, followed⟩ :: below))
    (hedge : (index.edgesFrom file)[followed]? = some edge)
    (hsettled : Settled back left edge ∨ ∃ next, above = some next ∧ edge.target.same next = true)
    (hleads : ∀ next, above = some next → index.Leads file next) :
    Chain index back left above (⟨file, followed + 1⟩ :: below) := by
  cases h with
  | cons hedges _ hbelow =>
    refine .cons (fun e he => ?_) hleads hbelow
    simp only [List.take_add_one, hedge, Option.toList_some, List.mem_append,
      List.mem_singleton] at he
    rcases he with he | rfl
    · rcases hedges e he with hs | ⟨_, heq, _⟩
      · exact .inl hs
      · cases heq
    · exact hsettled

/-- Following an edge reports it, passes over it or puts its target onto the chain. -/
theorem Inv.follow (h : Inv index left s) {file : Path} {followed : Nat} {below : List Frame}
    {edge : Edge} (hstack : s.stack = ⟨file, followed⟩ :: below)
    (hedge : (index.edgesFrom file)[followed]? = some edge) :
    Inv index left ({ s with stack := ⟨file, followed + 1⟩ :: below }.follow edge) := by
  have hchained := h.chained
  rw [hstack] at hchained
  have hmem : edge ∈ index.edgesFrom file := List.mem_of_getElem? hedge
  have hfiles : (⟨file, followed + 1⟩ :: below).map Frame.file = s.chain := by
    simp [chain, hstack]
  have hchain : ∀ back',
      chain ⟨s.roots, s.marks, ⟨file, followed + 1⟩ :: below, back'⟩ = s.chain := fun _ => hfiles
  simp only [Search.follow]
  split
  case h_1 hmark =>
    -- The target is on the chain, so the edge is reported and leads back.
    have hon : edge.target.isAmong s.chain = true := (h.active edge.target).1 hmark
    have hsub : ∀ r ∈ s.back, r ∈ s.back ++ [edge] := fun r hr => List.mem_append_left _ hr
    refine ⟨h.settled.mono hsub, ?_, h.done, fun p => ?_, ?_, ?_, h.rooted⟩
    · refine (hchained.mono hsub fun _ hp => hp).followed hedge (.inl (.inl ?_))
        fun _ heq => by cases heq
      exact ⟨edge, List.mem_append_right _ List.mem_cons_self, edge.same_self⟩
    · rw [hchain]
      exact h.active p
    · rw [hchain]
      exact h.distinct
    · intro e he
      rcases List.mem_append.1 he with he | he
      · exact h.sound e he
      · rw [List.mem_singleton.1 he, file_of_mem_edgesFrom hmem]
        rw [chain, hstack] at hon
        exact ⟨hmem, hchained.reaches hon⟩
  case h_2 hmark =>
    -- The target was left before, so the edge is settled without a report.
    have hleft : edge.target.isAmong left = true := (h.done edge.target).1 hmark
    refine ⟨h.settled, ?_, h.done, fun p => ?_, ?_, h.sound, h.rooted⟩
    · exact hchained.followed hedge (.inl (.inr hleft)) fun _ heq => by cases heq
    · rw [hchain]
      exact h.active p
    · rw [hchain]
      exact h.distinct
  case h_3 hmark =>
    -- The target is new and goes onto the chain.
    refine h.enter ?_ hfiles ?_ fun key hkey => ?_
    · simpa [PathTable.contains_eq_isSome_get?] using hmark
    · refine hchained.followed hedge (.inr ⟨_, rfl, Path.same_self _⟩) fun next heq => ?_
      cases heq
      exact ⟨edge, hmem, Path.same_self _⟩
    · exact (h.rooted key hkey).imp_right .inr

theorem Inv.step (h : Inv index left s) (hstep : s.step index = some next) :
    ∃ left', Inv index left' next := by
  unfold Search.step at hstep
  split at hstep
  case h_1 hstack =>
    split at hstep
    · cases hstep
    case h_2 root roots hroots =>
      split at hstep
      case isTrue hmarked =>
        cases hstep
        refine ⟨left, h.settled, h.chained, h.done, h.active, h.distinct, h.sound, ?_⟩
        intro key hkey
        rcases h.rooted key hkey with hmem | hc
        · rw [hroots] at hmem
          rcases List.mem_cons.1 hmem with rfl | hmem
          · exact .inr hmarked
          · exact .inl hmem
        · exact .inr hc
      case isFalse hfresh =>
        cases hstep
        have hunmarked : s.marks.contains root = false := by simpa using hfresh
        have hchained : Chain index s.back left (some root) s.stack := by
          rw [hstack]
          exact .nil
        refine ⟨left, h.enter hunmarked rfl hchained fun key hkey => ?_⟩
        · show key ∈ roots ∨ _
          rcases h.rooted key hkey with hmem | hc
          · rw [hroots] at hmem
            rcases List.mem_cons.1 hmem with rfl | hmem
            · exact .inr (.inl (Path.same_self key))
            · exact .inl hmem
          · exact .inr (.inr hc)
  case h_2 file followed below hstack =>
    split at hstep
    case h_1 hend =>
      cases hstep
      exact ⟨file :: left, h.leave hstack hend⟩
    case h_2 edge hedge =>
      cases hstep
      exact ⟨left, h.follow hstack hedge⟩

theorem inv_start (index : Index) (entry : Path) : Inv index [] (start index entry) := by
  refine ⟨.nil, .nil, fun p => ?_, fun p => ?_, .nil, ?_, fun key hkey => ?_⟩
  · simp [start, PathTable.get?, PathTable.empty, PathTable.findEntry, Path.isAmong]
  · simp [start, chain, PathTable.get?, PathTable.empty, PathTable.findEntry, Path.isAmong]
  · simp [start]
  · exact .inl (List.mem_append_right _ hkey)

/-! ## Runs -/

/-- One search comes after another by a step. -/
def Next (index : Index) (s next : Search) : Prop := s.step index = some next

theorem run_of_end {index : Index} {s : Search} (hend : s.step index = none) : run index s = s := by
  rw [run]
  split
  · rfl
  · rename_i next hnext
    rw [hend] at hnext
    cases hnext

theorem run_of_step {index : Index} {s next : Search} (hnext : s.step index = some next) :
    run index s = run index next := by
  rw [run]
  split
  · rename_i hend
    rw [hend] at hnext
    cases hnext
  · rename_i next' hnext'
    rw [hnext] at hnext'
    cases hnext'
    rfl

theorem run_steps (index : Index) (s : Search) :
    ReflTransGen (Next index) s (run index s) ∧ (run index s).step index = none := by
  induction s using run.induct index with
  | case1 s hend =>
    rw [run_of_end hend]
    exact ⟨.refl, hend⟩
  | case2 s next hnext ih =>
    rw [run_of_step hnext]
    exact ⟨.head hnext ih.1, ih.2⟩

/-- A search some steps further on, or at its end if it comes there first. -/
def after (index : Index) : Nat → Search → Search
  | 0, s => s
  | steps + 1, s =>
    match s.step index with
    | none => s
    | some next => after index steps next

/-- A run that has come to its end is known by its steps. -/
theorem run_eq_after {index : Index} {s : Search} {steps : Nat}
    (hend : ((s.after index steps).step index).isNone = true) :
    run index s = s.after index steps := by
  induction steps generalizing s with
  | zero => exact run_of_end (Option.isNone_iff_eq_none.1 hend)
  | succ steps ih =>
    rw [after] at hend ⊢
    cases hstep : s.step index with
    | none => exact run_of_end hstep
    | some next =>
      rw [hstep] at hend
      exact (run_of_step hstep).trans (ih hend)

theorem Inv.steps (h : Inv index left s) (hsteps : ReflTransGen (Next index) s next) :
    ∃ left', Inv index left' next := by
  induction hsteps with
  | refl => exact ⟨left, h⟩
  | tail _ hstep ih =>
    obtain ⟨left', h'⟩ := ih
    exact h'.step hstep

/-- When no step is left, every file of the graph was left. -/
theorem Inv.isAmong_left (h : Inv index left s) (hend : s.step index = none) {p : Path}
    (hp : index.contains p = true) : p.isAmong left = true := by
  have hstack : s.stack = [] := by
    unfold Search.step at hend
    split at hend
    · assumption
    · split at hend <;> cases hend
  have hroots : s.roots = [] := by
    simp only [Search.step, hstack] at hend
    split at hend
    · assumption
    · split at hend <;> cases hend
  simp only [PathTable.contains, List.any_eq_true] at hp
  obtain ⟨entry, hentry, hsame⟩ := hp
  have hkey : s.marks.contains entry.1 = true := by
    rcases h.rooted entry.1 (List.mem_map_of_mem hentry) with hr | hc
    · simp [hroots] at hr
    · exact hc
  rw [← Path.isAmong_congr hsame, ← h.done]
  rw [PathTable.contains_eq_isSome_get?] at hkey
  cases hmark : s.marks.get? entry.1 with
  | none => simp [hmark] at hkey
  | some mark =>
    cases mark with
    | done => rfl
    | active =>
      have hon := (h.active entry.1).1 hmark
      simp [chain, hstack, Path.isAmong] at hon

end Search

/-! ## The graph without the reported edges -/

section

variable {index : Index} {back : List Edge} {file p q : Path} {files : List Path}

open Search (Left Settled)

/-- An edge that is not reported leads from a file to one that was left before it. -/
theorem isAmong_of_leadsWithout (hedges : ∀ e ∈ index.edgesFrom file, Settled back files e)
    (hp : p.same file = true) (h : index.LeadsWithout back p q) : q.isAmong files = true := by
  obtain ⟨e, he, hnot, hq⟩ := h
  obtain ⟨f, hf, hsame, htarget⟩ := mem_edgesFrom_congr hp he
  rcases hedges f hf with ⟨r, hr, hrf⟩ | hleft
  · rw [Edge.same_trans_left hsame, hnot r hr] at hrf
    cases hrf
  · rw [← Path.isAmong_congr hq, ← htarget]
    exact hleft

theorem Search.Left.closed (h : Left index back files) (hp : p.isAmong files = true)
    (hl : TransGen (index.LeadsWithout back) p q) : q.isAmong files = true := by
  have hstep : ∀ p q, p.isAmong files = true → index.LeadsWithout back p q →
      q.isAmong files = true := by
    clear hp hl
    induction h with
    | nil => intro p q hp; simp [Path.isAmong] at hp
    | cons _ _ hedges ih =>
      intro p q hp hl
      rw [Path.isAmong_cons, Bool.or_eq_true] at hp ⊢
      rcases hp with hp | hp
      · exact .inr (isAmong_of_leadsWithout hedges (Path.same_symm hp) hl)
      · exact .inr (ih p q hp hl)
  induction hl with
  | single hl => exact hstep _ _ hp hl
  | tail _ hl ih => exact hstep _ _ ih hl

/-- The edges that are not reported descend along the files that were left, so they close no
cycle. -/
theorem Search.Left.acyclic (h : Left index back files) (hp : p.isAmong files = true) :
    ¬ TransGen (index.LeadsWithout back) p p := by
  induction h with
  | nil => simp [Path.isAmong] at hp
  | @cons file files hfiles hfresh hedges ih =>
    intro hcycle
    have hbelow : p.isAmong files = true := by
      rw [Path.isAmong_cons, Bool.or_eq_true] at hp
      rcases hp with hp | hp
      · obtain ⟨q, hq, hrest⟩ := TransGen.head'_iff.1 hcycle
        have hqfiles := isAmong_of_leadsWithout hedges (Path.same_symm hp) hq
        rcases reflTransGen_iff_eq_or_transGen.1 hrest with rfl | hrest
        · exact hqfiles
        · exact hfiles.closed hqfiles hrest
      · exact hp
    exact ih hbelow hcycle

theorem backEdges_ne_nil_of_cycle (entry : Path) (h : TransGen index.Leads p p) :
    index.backEdges entry ≠ [] := by
  intro hnil
  obtain ⟨hsteps, hend⟩ := Search.run_steps index (.start index entry)
  obtain ⟨left, hinv⟩ := (Search.inv_start index entry).steps hsteps
  have hsettled : Left index (index.backEdges entry) left := hinv.settled
  rw [hnil] at hsettled
  obtain ⟨q, ⟨e, he, _⟩, _⟩ := TransGen.head'_iff.1 h
  rw [← leadsWithout_nil] at h
  exact hsettled.acyclic (hinv.isAmong_left hend (contains_of_mem_edgesFrom he)) h

/-- An edge that is reported lies on a cycle of the graph. -/
theorem cycle_of_mem_backEdges {entry : Path} {e : Edge} (h : e ∈ index.backEdges entry) :
    index.contains e.file = true ∧ TransGen index.Leads e.file e.file := by
  obtain ⟨hsteps, _⟩ := Search.run_steps index (.start index entry)
  obtain ⟨_, hinv⟩ := (Search.inv_start index entry).steps hsteps
  obtain ⟨hedge, hreach⟩ := hinv.sound e h
  have hleads : index.Leads e.file e.target := ⟨e, hedge, Path.same_self _⟩
  exact ⟨contains_of_mem_edgesFrom hedge, hleads.transGen_of_reaches hreach⟩

end

/-- The search for back edges ends, with edges that each lie on a cycle, and the graph without them
has no cycle. So it finds none exactly when the graph has no cycle. -/
theorem backEdges_cut_cycles (index : Index) (entry : Path) :
    (∃ last, ReflTransGen (Search.Next index) (.start index entry) last ∧
      last.step index = none ∧ last.back = index.backEdges entry) ∧
    (∀ e ∈ index.backEdges entry, e ∈ index.edgesFrom e.file ∧ index.Reaches e.target e.file) ∧
    (∀ p, ¬ TransGen (index.LeadsWithout (index.backEdges entry)) p p) ∧
    (index.backEdges entry = [] ↔ ∀ p, ¬ TransGen index.Leads p p) := by
  obtain ⟨hsteps, hend⟩ := Search.run_steps index (.start index entry)
  obtain ⟨left, hinv⟩ := (Search.inv_start index entry).steps hsteps
  have hacyclic : ∀ p, ¬ TransGen (index.LeadsWithout (index.backEdges entry)) p p := by
    intro p hcycle
    obtain ⟨q, ⟨e, he, _⟩, _⟩ := TransGen.head'_iff.1 hcycle
    have hp := hinv.isAmong_left hend (contains_of_mem_edgesFrom he)
    exact hinv.settled.acyclic hp hcycle
  refine ⟨⟨_, hsteps, hend, rfl⟩, hinv.sound, hacyclic, fun hnil => ?_, fun hno => ?_⟩
  · rw [hnil, leadsWithout_nil] at hacyclic
    exact hacyclic
  · rw [List.eq_nil_iff_forall_not_mem]
    intro e he
    obtain ⟨hedge, hreach⟩ := hinv.sound e he
    have hleads : index.Leads e.file e.target := ⟨e, hedge, Path.same_self _⟩
    exact hno e.file (hleads.transGen_of_reaches hreach)

end StyleImports.Index
