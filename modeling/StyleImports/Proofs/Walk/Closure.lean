import StyleImports.Files.Memory
import StyleImports.Proofs.Graph.Reach
import StyleImports.Proofs.Walk.Invariant
import StyleImports.Proofs.Walk.Sequential

/-!
# What a finished walk has found

When no branch is in flight, the invariant of interleavings says that the graph is closed
(`Walk.Closed`): its files are those that its own imports reach from the entry, and the imports of
each file are what the content of that file comes to, whatever the other files hold.
-/

set_option autoImplicit false

namespace StyleImports

/-! ## Targets -/

/-- A target leads nowhere, to one path, or to several. -/
def Target.IsProper : Target → Prop
  | .failed _ => True
  | .single _ => True
  | .many paths => 2 ≤ paths.length

theorem Target.isProper_ofPaths {paths : List Path} (h : paths ≠ []) :
    (Target.ofPaths paths).IsProper := by
  match paths with
  | [_] => exact True.intro
  | _ :: _ :: rest => exact Nat.le_add_left 2 rest.length

namespace Setting

theorem isProper_targetOf (specifier : Text) (answer : Except ResolveError (List Path)) :
    (targetOf specifier answer).IsProper := by
  match answer with
  | .error _ => exact True.intro
  | .ok [] => exact True.intro
  | .ok (_ :: _) => exact Target.isProper_ofPaths (by simp)

theorem isProper_resolve (s : Setting) (file : Path) (i : Sheet.Import) :
    (s.resolve file i).dependency.target.IsProper := by
  rw [resolve]
  split <;> exact isProper_targetOf ..

theorem isProper_reading (s : Setting) (file : Path) (content : Except FileError Text) :
    ∀ d ∈ (s.reading file content).dependencies, d.target.IsProper := by
  intro d hd
  cases content with
  | error e => cases hd
  | ok text =>
    simp only [reading] at hd
    cases hparse : Sheet.parse text with
    | error e =>
      rw [hparse] at hd
      cases hd
    | ok nodes =>
      simp only [hparse, List.map_map, List.mem_map, Function.comp_apply] at hd
      obtain ⟨i, _, rfl⟩ := hd
      exact s.isProper_resolve file i

end Setting

namespace Walk

variable {s : Setting} {entry : Path} {source : Text} {c : Progress}

/-! ## Complete interleavings -/

/-- A walk whose graph is what the entry leads to, file by file. -/
structure Closed (s : Setting) (entry : Path) (source : Text) (w : Walk) : Prop where
  /-- The files of the graph are those that its edges reach from the entry. -/
  reached : ∀ p, w.index.contains p = true ↔ w.index.Reaches entry p
  /-- They are the entry and the listed files. -/
  files : ∀ p, w.index.contains p = true ↔ entry.same p = true ∨ w.files.contains p = true
  /-- The listed files are the targets of the graph. -/
  targets : ∀ p, w.files.contains p = true ↔ p.isAmong w.index.targets = true
  /-- The imports of a file are what its own content comes to. -/
  imports : ∀ e ∈ w.index.entries, e.2 = (s.readingOf entry source e.1).dependencies
  /-- Each of them leads nowhere, to one path, or to several. -/
  proper : ∀ e ∈ w.index.entries, ∀ d ∈ e.2, d.target.IsProper

/-- When no branch is in flight, the claimed files are those of the graph. -/
theorem Inv.seen_perm (h : Inv s entry source c) (hdone : c.branches = []) :
    c.state.seen.Perm c.state.index.keys := by
  simpa [Progress.inFlight, hdone] using h.seen

theorem Inv.settled_eq (hdone : c.branches = []) : c.settled = c.state.index.keys := by
  simp [Progress.settled, hdone]

/-- When no branch is in flight, every claimed file is in the graph with what its content comes
to. -/
theorem Inv.get?_of_mem (h : Inv s entry source c) (hdone : c.branches = []) {p : Path}
    (hp : p ∈ c.state.seen) :
    c.state.index.get? p = some (s.readingOf entry source p).dependencies := by
  have hperm := h.seen_perm hdone
  obtain ⟨⟨q, dependencies⟩, hmem, rfl⟩ := List.mem_map.1 (hperm.mem_iff.1 hp)
  rw [PathTable.get?_of_mem (h.distinct_of_perm hperm) hmem, ← h.entries _ hmem]

theorem Inv.contains_iff (h : Inv s entry source c) (hdone : c.branches = []) {p : Path} :
    c.state.index.contains p = true ↔ p.isAmong c.state.seen = true := by
  rw [PathTable.contains_iff, Path.isAmong_iff]
  simp only [(h.seen_perm hdone).mem_iff]

theorem Inv.leads_iff (h : Inv s entry source c) (hdone : c.branches = []) {p q : Path}
    (hp : p ∈ c.state.seen) :
    c.state.index.Leads p q ↔ q.isAmong (s.readingOf entry source p).targets = true := by
  simp only [Index.Leads, Index.edgesFrom, h.get?_of_mem hdone hp, Option.getD_some, Index.edgesOf,
    Path.isAmong_iff, Reading.targets, List.mem_flatMap, List.mem_map]
  constructor
  · rintro ⟨_, ⟨d, hd, t, ht, rfl⟩, hsame⟩
    exact ⟨t, ⟨d, hd, ht⟩, hsame⟩
  · rintro ⟨t, ⟨d, hd, ht⟩, hsame⟩
    exact ⟨_, ⟨d, hd, t, ht, rfl⟩, hsame⟩

/-- Files that were claimed one after another are reached from the entry. -/
theorem Inv.reaches_of_mem (h : Inv s entry source c) (hdone : c.branches = []) {p : Path}
    (hp : p ∈ c.state.seen) : c.state.index.Reaches entry p := by
  -- The induction is on the order of claims; each file in it is known to be claimed in the end.
  have hreaches : ∀ files, Grown s entry source files → (∀ q ∈ files, q ∈ c.state.seen) →
      ∀ q ∈ files, c.state.index.Reaches entry q := by
    intro files hgrown hseen q hq
    induction hgrown generalizing q with
    | entry =>
      rw [List.mem_singleton.1 hq]
      exact .refl ..
    | @target t f files hfiles hf ht ih =>
      have hprevious := ih fun r hr => hseen r (List.mem_cons_of_mem _ hr)
      rcases List.mem_cons.1 hq with rfl | hq
      · have hleads := (h.leads_iff hdone (hseen f (List.mem_cons_of_mem _ hf))).2
          (Path.isAmong_of_mem ht)
        exact (hprevious f hf).trans hleads.reaches
      · exact hprevious q hq
  exact hreaches _ h.grown (fun _ hq => hq) p hp

theorem Inv.contains_of_leads (h : Inv s entry source c) (hdone : c.branches = []) {p q : Path}
    (hleads : c.state.index.Leads p q) : c.state.index.contains q = true := by
  obtain ⟨e, he, _⟩ := id hleads
  obtain ⟨f, hf, hsame⟩ := Path.isAmong_iff.1
    ((h.contains_iff hdone).1 (Index.contains_of_mem_edgesFrom he))
  have htarget := (h.leads_iff hdone hf).1 (hleads.congr_left (Path.same_symm hsame))
  obtain ⟨t, ht, htq⟩ := Path.isAmong_iff.1 htarget
  have hsettled : f ∈ c.settled := by
    rw [Inv.settled_eq hdone]
    exact (h.seen_perm hdone).mem_iff.1 hf
  rw [h.contains_iff hdone, ← Path.isAmong_congr htq]
  exact (h.covered f hsettled t ht).1

theorem Inv.contains_of_reaches (h : Inv s entry source c) (hdone : c.branches = []) {p : Path}
    (hreaches : c.state.index.Reaches entry p) : c.state.index.contains p = true := by
  rcases hreaches with hsame | hchain
  · rw [← PathTable.contains_congr hsame, h.contains_iff hdone]
    exact Path.isAmong_of_mem h.grown.entry_mem
  · obtain ⟨q, _, hlast⟩ := Relation.TransGen.tail'_iff.1 hchain
    exact h.contains_of_leads hdone hlast

theorem Inv.files_contains_iff (h : Inv s entry source c) (hdone : c.branches = []) {p : Path} :
    c.state.files.contains p = true ↔ p.isAmong c.state.index.targets = true := by
  have hsettled := Inv.settled_eq hdone
  rw [PathTable.contains_iff, Path.isAmong_iff]
  constructor
  · rintro ⟨q, hq, hsame⟩
    obtain ⟨f, hf, ht⟩ := h.files q hq
    rw [hsettled] at hf
    obtain ⟨⟨key, dependencies⟩, he, rfl⟩ := List.mem_map.1 hf
    refine ⟨q, List.mem_flatMap.2 ⟨(key, dependencies), he, ?_⟩, hsame⟩
    rw [h.entries _ he]
    exact ht
  · rintro ⟨q, hq, hsame⟩
    obtain ⟨e, he, ht⟩ := List.mem_flatMap.1 hq
    have hf : e.1 ∈ c.settled := by
      rw [hsettled]
      exact List.mem_map_of_mem he
    rw [h.entries e he] at ht
    rw [← PathTable.contains_iff, ← PathTable.contains_congr hsame]
    exact (h.covered e.1 hf q ht).2

theorem Inv.contains_iff_files (h : Inv s entry source c) (hdone : c.branches = []) {p : Path} :
    c.state.index.contains p = true ↔
      entry.same p = true ∨ c.state.files.contains p = true := by
  constructor
  · intro hp
    obtain ⟨q, hq, hsame⟩ := Path.isAmong_iff.1 ((h.contains_iff hdone).1 hp)
    rcases h.origin q hq with rfl | ⟨f, hf, ht⟩
    · exact .inl hsame
    · rw [← PathTable.contains_congr hsame]
      exact .inr (h.covered f hf q ht).2
  · rintro (hp | hp)
    · exact h.contains_of_reaches hdone (.inl hp)
    · obtain ⟨q, hq, hsame⟩ := PathTable.contains_iff.1 hp
      obtain ⟨f, hf, ht⟩ := h.files q hq
      rw [h.contains_iff hdone, ← Path.isAmong_congr hsame]
      exact (h.covered f hf q ht).1

theorem Inv.closed (h : Inv s entry source c) (hdone : c.branches = []) :
    Closed s entry source (ofState entry c.state) where
  reached p := ⟨fun hp => by
    obtain ⟨q, hq, hsame⟩ := Path.isAmong_iff.1 ((h.contains_iff hdone).1 hp)
    exact (h.reaches_of_mem hdone hq).trans (.inl hsame), h.contains_of_reaches hdone⟩
  files p := h.contains_iff_files hdone
  targets p := h.files_contains_iff hdone
  imports := h.entries
  proper e he d hd := by
    rw [h.entries e he] at hd
    exact s.isProper_reading _ _ d hd

/-- A walk that ends is closed. -/
theorem closed_of_fromSource {budget : Nat} {w : Walk} {cache : Option Cache}
    (h : fromSource s budget none entry source = some (w, cache)) :
    Closed s (s.fs.cwd.absoluteFrom entry) source w := by
  obtain ⟨c, hreachable, hdone, rfl⟩ := reachable_of_fromSource h
  exact (Inv.of_reachable hreachable).closed hdone

/-- Files of a ring: `a.styl` asks for the entry, which is not stored; beside it are a file that
cannot be parsed and one that only a pattern finds. -/
def ringFiles : Memory :=
  [("a.styl", "@import 'main'"), ("b.styl", "@import"), ("d/c.styl", "")].foldl
    (fun m file => m.add ⟨file.1.toList⟩ (Text.utf8 file.2.toList)) (.empty ⟨"/p".toList⟩)

/-- Imports of the ring; a package is asked for from the resolver. -/
def ring : Setting where
  fs := ringFiles.fileSystem
  resolvers := ⟨RequestTable.resolver ⟨[("pkg", [⟨"/lib/pkg.styl".toList⟩])]⟩,
    RequestTable.empty.resolver⟩
  options := ⟨[], none, []⟩

def ringSource : Text := "@import 'a'\n@import 'b'\n@import 'd/*'\n@import '~pkg'\n@import 'no'"

theorem closed_ring : ∃ w cache,
    fromSource ring 3 none ⟨"main.styl".toList⟩ ringSource = some (w, cache) ∧
      Closed ring ⟨"/p/main.styl".toList⟩ ringSource w := by
  have hsome : (fromSource ring 3 none ⟨"main.styl".toList⟩ ringSource).isSome = true := by
    decide +kernel
  obtain ⟨⟨w, cache⟩, hw⟩ := Option.isSome_iff_exists.1 hsome
  have hentry : ring.fs.cwd.absoluteFrom ⟨"main.styl".toList⟩ = ⟨"/p/main.styl".toList⟩ := by
    decide +kernel
  have hclosed := closed_of_fromSource hw
  rw [hentry] at hclosed
  exact ⟨w, cache, hw, hclosed⟩

end Walk

end StyleImports
