import Mathlib.Data.List.Nodup
import Mathlib.Data.List.Perm.Basic
import StyleImports.Proofs.Walk.Claim
import StyleImports.Proofs.Walk.Interleaving

/-!
# What every interleaving keeps

`Inv`: each claimed file is the entry or a target of a file that was claimed before it, is in
flight or in the index but not both, and everything that is known about it is what its own content
comes to (`Setting.readingOf`). `Noted` and `Counted` say the same of the notes that were made and
of the files that were read: each is accounted for once. All three hold at the start and are kept
by every step (`Inv.step`, `Noted.step`, `Counted.step`), so they hold wherever an interleaving
leads.
-/

set_option autoImplicit false

namespace StyleImports.Walk

variable {s : Setting} {entry : Path} {source : Text} {c c' : Progress}

/-! ## Branches and files -/

namespace Branch

/-- What a branch knows about its file is what the content of the file comes to. -/
def Faithful (s : Setting) (entry : Path) (source : Text) (b : Branch) : Prop :=
  match b.stage with
  | .claimed => b.file.same entry = false
  | .opened content => content = s.contentOf entry source b.file
  | .resolving dependencies notes =>
    dependencies = (s.readingOf entry source b.file).dependencies ∧
      ∀ n ∈ notes, n ∈ (s.readingOf entry source b.file).notes
  | .waiting dependencies => dependencies = (s.readingOf entry source b.file).dependencies

/-- The file of a branch that has claimed its targets. -/
def settled? (b : Branch) : Option Path :=
  match b.stage with
  | .waiting _ => some b.file
  | _ => none

theorem settled?_eq_some {b : Branch} {f : Path} :
    b.settled? = some f ↔ b.file = f ∧ ∃ dependencies, b.stage = .waiting dependencies := by
  rw [settled?]
  split
  case h_1 dependencies hstage => simp [hstage]
  case h_2 hstage => simpa using fun _ => hstage

end Branch

namespace Progress

/-- The files in flight. -/
def inFlight (c : Progress) : List Path := c.branches.map Branch.file

/-- The files whose targets are claimed. -/
def settled (c : Progress) : List Path :=
  c.branches.filterMap Branch.settled? ++ c.state.index.keys

end Progress

/-- Claimed files, the last one first: the entry, and then targets of files claimed before. -/
inductive Grown (s : Setting) (entry : Path) (source : Text) : List Path → Prop where
  | entry : Grown s entry source [entry]
  | target {p q : Path} {files : List Path} : Grown s entry source files → q ∈ files →
      p ∈ (s.readingOf entry source q).targets → Grown s entry source (p :: files)

/-- The files that an entry leads to, whoever visits them first. -/
inductive Found (s : Setting) (entry : Path) (source : Text) : Path → Prop where
  | entry : Found s entry source entry
  | target {p q : Path} : Found s entry source q → p ∈ (s.readingOf entry source q).targets →
      Found s entry source p

/-- What an interleaving keeps about the claimed files and the graph. -/
structure Inv (s : Setting) (entry : Path) (source : Text) (c : Progress) : Prop where
  faithful : ∀ b ∈ c.branches, b.Faithful s entry source
  seen : c.state.seen.Perm (c.inFlight ++ c.state.index.keys)
  distinct : c.state.seen.Pairwise fun p q => p.same q = false
  grown : Grown s entry source c.state.seen
  origin : ∀ p ∈ c.state.seen,
    p = entry ∨ ∃ f ∈ c.settled, p ∈ (s.readingOf entry source f).targets
  entries : ∀ e ∈ c.state.index.entries, e.2 = (s.readingOf entry source e.1).dependencies
  covered : ∀ f ∈ c.settled, ∀ p ∈ (s.readingOf entry source f).targets,
    p.isAmong c.state.seen = true ∧ c.state.files.contains p = true
  files : ∀ p ∈ c.state.files.toList, ∃ f ∈ c.settled, p ∈ (s.readingOf entry source f).targets
  uncached : c.state.cache = none

theorem inv_start (s : Setting) (entry : Path) (source : Text) :
    Inv s entry source (.start entry source) where
  faithful := by simp [Progress.start, Branch.Faithful, Setting.contentOf]
  seen := .refl _
  distinct := List.pairwise_singleton ..
  grown := .entry
  origin p hp := .inl (List.mem_singleton.1 hp)
  entries e he := nomatch he
  covered f hf := nomatch hf
  files p hp := nomatch hp
  uncached := rfl

/-- A branch that goes on before it claims its targets changes nothing about the graph. -/
theorem Inv.replace {st st' : WalkState} {before after : List Branch} {log log' : List Event}
    {b b' : Branch} (h : Inv s entry source ⟨st, before ++ b :: after, log⟩)
    (hfile : b'.file = b.file) (hb : b.settled? = none) (hb' : b'.settled? = none)
    (hfaithful : b'.Faithful s entry source) (hseen : st'.seen = st.seen)
    (hindex : st'.index = st.index) (hfiles : st'.files = st.files)
    (hcache : st'.cache = st.cache) :
    Inv s entry source ⟨st', before ++ ([b'] ++ after), log'⟩ := by
  have hsettled : (⟨st', before ++ ([b'] ++ after), log'⟩ : Progress).settled =
      (⟨st, before ++ b :: after, log⟩ : Progress).settled := by
    simp [Progress.settled, hb, hb', hindex]
  refine ⟨fun x hx => ?_, ?_, ?_, ?_, ?_, ?_, ?_, ?_, ?_⟩
  · simp only [List.mem_append, List.mem_cons, List.not_mem_nil, or_false] at hx
    rcases hx with hx | rfl | hx
    · exact h.faithful x (by simp [hx])
    · exact hfaithful
    · exact h.faithful x (by simp [hx])
  · simpa [Progress.inFlight, hfile, hseen, hindex] using h.seen
  · simpa [hseen] using h.distinct
  · simpa [hseen] using h.grown
  · rw [hsettled]
    simpa [hseen] using h.origin
  · simpa [hindex] using h.entries
  · rw [hsettled]
    simpa [hseen, hfiles] using h.covered
  · rw [hsettled]
    simpa [hfiles] using h.files
  · simpa [hcache] using h.uncached

theorem Grown.entry_mem {files : List Path} (h : Grown s entry source files) : entry ∈ files := by
  induction h with
  | entry => exact List.mem_cons_self
  | target _ _ _ ih => exact List.mem_cons_of_mem _ ih

theorem Grown.found {files : List Path} (h : Grown s entry source files) :
    ∀ p ∈ files, Found s entry source p := by
  induction h with
  | entry => exact fun p hp => List.mem_singleton.1 hp ▸ .entry
  | target _ hq ht ih =>
    intro p hp
    rcases List.mem_cons.1 hp with rfl | hp
    · exact .target (ih _ hq) ht
    · exact ih p hp

/-- Files that hold their own targets hold everything that the entry leads to. -/
theorem Found.mem_of_closed {p : Path} (h : Found s entry source p) {files : List Path}
    (hentry : entry ∈ files)
    (hclosed : ∀ f ∈ files, ∀ t ∈ (s.readingOf entry source f).targets, t ∈ files) :
    p ∈ files := by
  induction h with
  | entry => exact hentry
  | target _ ht ih => exact hclosed _ ih _ ht

theorem Grown.append {files fresh : List Path} {q : Path} (h : Grown s entry source files)
    (hq : q ∈ files) (hfresh : ∀ p ∈ fresh, p ∈ (s.readingOf entry source q).targets) :
    Grown s entry source (fresh ++ files) := by
  induction fresh with
  | nil => exact h
  | cons p fresh ih =>
    refine .target (ih fun p hp => hfresh p (List.mem_cons_of_mem _ hp)) ?_
      (hfresh p List.mem_cons_self)
    exact List.mem_append_right _ hq

/-- Two claimed files are never the same, in whatever order they are listed. -/
theorem Inv.distinct_of_perm (h : Inv s entry source c) {files : List Path}
    (hperm : c.state.seen.Perm files) : files.Pairwise fun p q => p.same q = false :=
  (hperm.pairwise_iff fun hpq => by rw [Path.same_comm]; exact hpq).1 h.distinct

theorem Inv.mem_seen_of_settled (h : Inv s entry source c) {f : Path} (hf : f ∈ c.settled) :
    f ∈ c.state.seen := by
  refine h.seen.mem_iff.2 ((List.mem_append.1 hf).elim (fun hf => List.mem_append_left _ ?_)
    (List.mem_append_right _))
  obtain ⟨b, hb, hsettled⟩ := List.mem_filterMap.1 hf
  rw [← (Branch.settled?_eq_some.1 hsettled).1]
  exact List.mem_map_of_mem hb

theorem Inv.waiting_of_settled (h : Inv s entry source c) {b : Branch} (hb : b ∈ c.branches)
    (hf : b.file ∈ c.settled) : ∃ dependencies, b.stage = .waiting dependencies := by
  have hnodup := List.nodup_append.1 (Path.nodup_of_distinct (h.distinct_of_perm h.seen))
  rcases List.mem_append.1 hf with hf | hf
  · obtain ⟨b', hb', hsettled⟩ := List.mem_filterMap.1 hf
    obtain ⟨hfile, hstage⟩ := Branch.settled?_eq_some.1 hsettled
    rwa [List.inj_on_of_nodup_map hnodup.1 hb hb' hfile.symm]
  · exact absurd rfl (hnodup.2.2 b.file (List.mem_map_of_mem hb) b.file hf)

/-- A branch that claims its targets is all that is settled by it. -/
theorem mem_settled_claim {st st' : WalkState} {before after : List Branch} {log log' : List Event}
    {file f : Path} {dependencies : List Dependency} {children : List Path}
    (hindex : st'.index = st.index) :
    f ∈ (⟨st', before ++ ((⟨file, .waiting dependencies⟩ ::
      children.map fun child => ⟨child, .claimed⟩) ++ after), log'⟩ : Progress).settled ↔
      f = file ∨ f ∈ (⟨st, before ++ ⟨file, .resolving dependencies []⟩ :: after, log⟩ :
        Progress).settled := by
  have hchildren : (children.map fun child => (⟨child, .claimed⟩ : Branch)).filterMap
      Branch.settled? = [] := by simp [Branch.settled?, List.filterMap_eq_nil_iff]
  simp only [Progress.settled, List.filterMap_append, List.filterMap_cons, hchildren,
    Branch.settled?, hindex, List.mem_append, List.mem_cons]
  simp only [List.not_mem_nil, false_or, or_assoc]
  exact or_left_comm

theorem Inv.claim {st : WalkState} {before after : List Branch} {log log' : List Event}
    {file : Path} {dependencies : List Dependency}
    (h : Inv s entry source
      ⟨st, before ++ ⟨file, .resolving dependencies []⟩ :: after, log⟩) :
    Inv s entry source
      ⟨(st.claim (dependencies.flatMap fun d => d.target.paths)).2,
        before ++ ((⟨file, .waiting dependencies⟩ ::
          (st.claim (dependencies.flatMap fun d => d.target.paths)).1.map fun child =>
            ⟨child, .claimed⟩) ++ after), log'⟩ := by
  have hclaimed := WalkState.claimed_claim st (dependencies.flatMap fun d => d.target.paths)
  generalize st.claim (dependencies.flatMap fun d => d.target.paths) = outcome at hclaimed ⊢
  have hdeps : dependencies = (s.readingOf entry source file).dependencies :=
    (h.faithful ⟨file, .resolving dependencies []⟩ (by simp)).1
  have htargets : (dependencies.flatMap fun d => d.target.paths) =
      (s.readingOf entry source file).targets := by rw [hdeps]; rfl
  rw [htargets] at hclaimed
  have hfile : file ∈ st.seen := h.seen.mem_iff.2 (by simp [Progress.inFlight])
  have hcontains : ∀ p, p.isAmong (s.readingOf entry source file).targets = true ∨
      st.files.contains p = true → outcome.2.files.contains p = true := fun p hp => by
    rw [hclaimed.files]
    exact PathSet.contains_foldl_add.2 hp
  -- The claim settles the file of the branch; all other branches stay as they were.
  have hsettled : ∀ f, f ∈ (⟨outcome.2, before ++ ((⟨file, .waiting dependencies⟩ ::
      outcome.1.map fun child => ⟨child, .claimed⟩) ++ after), log'⟩ : Progress).settled ↔
      f = file ∨ f ∈ (⟨st, before ++ ⟨file, .resolving dependencies []⟩ :: after, log⟩ :
        Progress).settled := fun f => mem_settled_claim hclaimed.index
  refine ⟨fun b hb => ?faithful, ?seen, ?distinct, ?grown, ?origin, ?entries, ?covered, ?files,
    ?uncached⟩
  case faithful =>
    simp only [List.mem_append, List.mem_cons, List.mem_map] at hb
    rcases hb with hb | (rfl | ⟨child, hchild, rfl⟩) | hb
    · exact h.faithful b (by simp [hb])
    · exact hdeps
    · exact Path.same_eq_false_of_mem (hclaimed.fresh child hchild).2 h.grown.entry_mem
    · exact h.faithful b (by simp [hb])
  case seen =>
    -- What is fresh was claimed by nobody and is in flight from here on.
    have hperm := h.seen
    simp only [Progress.inFlight, List.map_append, List.map_cons, List.map_map,
      Function.comp_def, List.map_id', hclaimed.seen, hclaimed.index] at hperm ⊢
    rw [List.perm_iff_count] at hperm ⊢
    intro p
    have := hperm p
    simp only [List.count_append, List.count_cons, List.count_reverse] at this ⊢
    omega
  case distinct => exact hclaimed.pairwise_seen h.distinct
  case grown =>
    rw [hclaimed.seen]
    refine h.grown.append hfile fun p hp => ?_
    exact (hclaimed.fresh p (List.mem_reverse.1 hp)).1
  case origin =>
    intro p hp
    rw [hclaimed.seen, List.mem_append, List.mem_reverse] at hp
    rcases hp with hp | hp
    · exact .inr ⟨file, (hsettled file).2 (.inl rfl), (hclaimed.fresh p hp).1⟩
    · exact (h.origin p hp).imp_right fun ⟨f, hf, hmem⟩ => ⟨f, (hsettled f).2 (.inr hf), hmem⟩
  case entries =>
    rw [hclaimed.index]
    exact h.entries
  case covered =>
    intro f hf p hp
    rcases (hsettled f).1 hf with rfl | hf
    · exact ⟨hclaimed.covered p hp, hcontains p (.inl (Path.isAmong_of_mem hp))⟩
    · obtain ⟨hseen, hfiles⟩ := h.covered f hf p hp
      refine ⟨?_, hcontains p (.inr hfiles)⟩
      rw [hclaimed.seen, Path.isAmong_append, hseen, Bool.or_true]
  case files =>
    intro p hp
    rw [hclaimed.files] at hp
    rcases PathSet.mem_foldl_add hp with hp | hp
    · exact ⟨file, (hsettled file).2 (.inl rfl), hp⟩
    · obtain ⟨f, hf, hmem⟩ := h.files p hp
      exact ⟨f, (hsettled f).2 (.inr hf), hmem⟩
  case uncached =>
    rw [hclaimed.cache]
    exact h.uncached

theorem Inv.commit {st : WalkState} {before after : List Branch} {log log' : List Event}
    {file : Path} {dependencies : List Dependency}
    (h : Inv s entry source ⟨st, before ++ ⟨file, .waiting dependencies⟩ :: after, log⟩) :
    Inv s entry source ⟨st.commit file dependencies, before ++ ([] ++ after), log'⟩ := by
  have hdeps : dependencies = (s.readingOf entry source file).dependencies :=
    h.faithful ⟨file, .waiting dependencies⟩ (by simp)
  have hperm := h.seen
  simp only [Progress.inFlight, List.map_append, List.map_cons] at hperm
  -- A file in flight is not in the graph, since no two claimed files are the same.
  have hnew : st.index.contains file = false := by
    have hdistinct := h.distinct_of_perm
      (hperm.trans (List.perm_middle.append_right st.index.keys))
    rw [List.cons_append, List.pairwise_cons] at hdistinct
    cases hc : st.index.contains file with
    | false => rfl
    | true =>
      obtain ⟨key, hkey, hsame⟩ := PathTable.contains_iff.1 hc
      have hne := hdistinct.1 key (List.mem_append_right _ hkey)
      rw [Path.same_symm hsame] at hne
      cases hne
  have hkeys := PathTable.keys_insert_perm dependencies hnew
  have hsettled : (⟨st.commit file dependencies, before ++ ([] ++ after), log'⟩ :
      Progress).settled.Perm (⟨st, before ++ ⟨file, .waiting dependencies⟩ :: after, log⟩ :
        Progress).settled := by
    simp only [Progress.settled, WalkState.commit, List.nil_append, List.filterMap_append,
      List.filterMap_cons, Branch.settled?]
    rw [List.perm_iff_count] at hkeys ⊢
    intro p
    have := hkeys p
    simp only [List.count_append, List.count_cons] at this ⊢
    omega
  refine ⟨fun b hb => ?faithful, ?seen, h.distinct, h.grown, ?origin, ?entries, ?covered,
    ?files, h.uncached⟩
  case faithful =>
    simp only [List.nil_append, List.mem_append] at hb
    rcases hb with hb | hb <;> exact h.faithful b (by simp [hb])
  case seen =>
    simp only [Progress.inFlight, List.map_append, List.nil_append, WalkState.commit]
    rw [List.perm_iff_count] at hperm hkeys ⊢
    intro p
    have h₁ := hperm p
    have h₂ := hkeys p
    simp only [List.count_append, List.count_cons] at h₁ h₂ ⊢
    omega
  case entries =>
    intro e he
    rcases List.mem_cons.1 ((PathTable.entries_insert_perm dependencies hnew).mem_iff.1 he) with
      rfl | he
    · exact hdeps
    · exact h.entries e he
  case origin =>
    intro p hp
    exact (h.origin p hp).imp_right fun ⟨f, hf, hmem⟩ => ⟨f, hsettled.mem_iff.2 hf, hmem⟩
  case covered =>
    exact fun f hf => h.covered f (hsettled.mem_iff.1 hf)
  case files =>
    intro p hp
    obtain ⟨f, hf, hmem⟩ := h.files p hp
    exact ⟨f, hsettled.mem_iff.2 hf, hmem⟩

/-- Every step keeps the invariant. -/
theorem Inv.step (h : Inv s entry source c) (hstep : Step s c c') : Inv s entry source c' := by
  cases hstep with
  | advance before after log hadvance =>
    cases hadvance with
    | read file =>
      refine h.replace rfl rfl rfl ?_ rfl rfl rfl rfl
      have hnot : file.same entry = false := h.faithful ⟨file, .claimed⟩ (by simp)
      simp [Branch.Faithful, Setting.contentOf, hnot]
    | visit file content =>
      refine h.replace rfl rfl rfl ?_ rfl rfl rfl rfl
      have hcontent : content = s.contentOf entry source file :=
        h.faithful ⟨file, .opened content⟩ (by simp)
      simp [Branch.Faithful, Setting.readingOf, hcontent]
    | note file dependencies first rest n =>
      have hfaithful := h.faithful ⟨file, .resolving dependencies (first ++ n :: rest)⟩ (by simp)
      have hrest : Branch.Faithful s entry source ⟨file, .resolving dependencies (first ++ rest)⟩ :=
        ⟨hfaithful.1, fun m hm => hfaithful.2 m ((List.sublist_cons_self n rest).append_left first
          |>.subset hm)⟩
      -- A note changes what is reported, not what the invariant speaks of.
      cases n <;> exact h.replace rfl rfl rfl hrest rfl rfl rfl rfl
    | claim file dependencies => exact h.claim
    | commit file dependencies => exact h.commit

theorem Inv.steps (h : Inv s entry source c) (hsteps : Steps s c c') : Inv s entry source c' := by
  induction hsteps with
  | refl => exact h
  | tail _ hstep ih => exact ih.step hstep

theorem Inv.of_reachable (h : Reachable s entry source c) :
    Inv s (s.fs.cwd.absoluteFrom entry) source c :=
  (inv_start s _ source).steps h

end StyleImports.Walk
