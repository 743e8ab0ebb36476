import Mathlib.Data.List.Pairwise
import StyleImports.Proofs.Graph.Plain
import StyleImports.Proofs.Graph.Sort
import StyleImports.Proofs.Sheet.Positions
import StyleImports.Proofs.Walk.Closure
import StyleImports.Proofs.Walk.Notes

/-!
# All interleavings agree

Which branch claims a shared file depends on the order of steps, but what is claimed in the end
does not: it is what the entry leads to (`Found`). In a plain setting the claimed paths are
canonical, so the graph and the sets of a complete interleaving hold exactly what these files come
to, in the order of paths. Its diagnostics are those of these files in some order, and since no two
of them stand at one place, sorting takes them to one list (`interleavings_agree`).
-/

set_option autoImplicit false

namespace StyleImports

/-! ## Places of findings -/

namespace Setting

theorem position_resolve (s : Setting) (file : Path) (i : Sheet.Import) :
    (s.resolve file i).dependency.position = i.position := by
  rw [resolve]
  split <;> rfl

/-- Two findings about a file stand at different places. -/
theorem places_reading (s : Setting) (file : Path) (content : Except FileError Text)
    {x y : Finding} (hx : x ∈ (s.reading file content).notes.filterMap Note.finding?)
    (hy : y ∈ (s.reading file content).notes.filterMap Note.finding?) :
    x = y ∨ (Diagnostic.mk file x).position? ≠ (Diagnostic.mk file y).position? := by
  cases content with
  | error e =>
    simp only [reading, List.filterMap_cons, Note.finding?, List.filterMap_nil,
      List.mem_singleton] at hx hy
    exact .inl (hx.trans hy.symm)
  | ok text =>
    simp only [reading] at hx hy
    cases hparse : Sheet.parse text with
    | error e =>
      simp only [hparse, List.filterMap_cons, Note.finding?, List.filterMap_nil,
        List.mem_singleton] at hx hy
      exact .inl (hx.trans hy.symm)
    | ok nodes =>
      have hfinding : ∀ z ∈ (((Sheet.importsOf nodes).map (s.resolve file)).flatMap
          Resolution.notes).filterMap Note.finding?, ∃ i ∈ Sheet.importsOf nodes,
            ∃ e, (s.resolve file i).failure = some e ∧ z = .unresolved i.position e := by
        intro z hz
        simp only [List.flatMap_map, List.mem_filterMap, List.mem_flatMap, Resolution.notes,
          List.mem_append, List.mem_map, Option.mem_toList, Option.map_eq_some_iff] at hz
        obtain ⟨n, ⟨i, hi, ⟨dir, _, rfl⟩ | ⟨e, he, rfl⟩⟩, hn⟩ := hz
        · cases hn
        · cases hn
          exact ⟨i, hi, e, he, by rw [position_resolve]⟩
      simp only [hparse] at hx hy
      obtain ⟨i, hi, e, he, rfl⟩ := hfinding x hx
      obtain ⟨j, hj, e', he', rfl⟩ := hfinding y hy
      by_cases hposition : i.position = j.position
      · have hij := Sheet.eq_of_position_eq hparse hi hj hposition
        rw [hij, he', Option.some.injEq] at he
        exact .inl (by rw [hij, he])
      · exact .inr fun heq => hposition (Option.some.inj heq)

end Setting

namespace Walk

variable {s : Setting} {entry : Path} {source : Text} {a b c : Progress} {p : Path}

/-! ## Tables in order -/

/-- The tables of a walk are in the order of paths. -/
structure Ordered (st : WalkState) : Prop where
  index : st.index.IsOrdered
  files : PathTable.IsOrdered st.files
  contexts : PathTable.IsOrdered st.contexts

theorem ordered_of_reachable (h : Reachable s entry source c) : Ordered c.state := by
  induction h with
  | refl => exact ⟨.nil, .nil, .nil⟩
  | tail _ hstep ih =>
    cases hstep with
    | @advance st st' _ _ _ _ _ _ hadvance =>
      cases hadvance with
      | read => exact ih
      | visit => exact ih
      | note file dependencies first rest n =>
        cases n with
        | context dir => exact ⟨ih.index, ih.files, ih.contexts.insert dir ()⟩
        | finding => exact ⟨ih.index, ih.files, ih.contexts⟩
      | claim file dependencies =>
        have hclaimed := st.claimed_claim (dependencies.flatMap fun d => d.target.paths)
        refine ⟨?_, ?_, ?_⟩
        · rw [hclaimed.index]
          exact ih.index
        · rw [hclaimed.files]
          exact PathSet.isOrdered_foldl_add ih.files _
        · rw [hclaimed.contexts]
          exact ih.contexts
      | commit file dependencies => exact ⟨ih.index.insert file _, ih.files, ih.contexts⟩

/-! ## What is found -/

theorem Found.isCanonical (hs : s.IsPlain)
    (h : Found s (s.fs.cwd.absoluteFrom entry) source p) : p.IsCanonical := by
  cases h with
  | entry =>
    obtain ⟨q, hq⟩ := Path.cleanFrom_eq_clean s.fs.cwd entry.asDependency
    rw [Path.absoluteFrom, hq]
    exact q.isCanonical_clean
  | target _ ht => exact (hs.isReported_target ht).canonical

theorem mem_seen_iff (hs : s.IsPlain) (h : Reachable s entry source c) (hdone : c.branches = []) :
    p ∈ c.state.seen ↔ Found s (s.fs.cwd.absoluteFrom entry) source p := by
  have hinv := Inv.of_reachable h
  have hfound := hinv.grown.found
  refine ⟨hfound p, fun hp => ?_⟩
  induction hp with
  | entry => exact hinv.grown.entry_mem
  | @target p q hq ht ih =>
    have hsettled : q ∈ c.settled := by
      rw [Inv.settled_eq hdone]
      exact (hinv.seen_perm hdone).mem_iff.1 ih
    obtain ⟨r, hr, hsame⟩ := Path.isAmong_iff.1 (hinv.covered q hsettled p ht).1
    have hcanonical := (hfound r hr).isCanonical hs
    rwa [← hcanonical.eq_of_same (hs.isReported_target ht).canonical hsame]

theorem mem_settled_iff (hs : s.IsPlain) (h : Reachable s entry source c)
    (hdone : c.branches = []) :
    p ∈ c.settled ↔ Found s (s.fs.cwd.absoluteFrom entry) source p := by
  rw [Inv.settled_eq hdone, ← mem_seen_iff hs h hdone,
    ((Inv.of_reachable h).seen_perm hdone).mem_iff]

theorem mem_entries_iff (hs : s.IsPlain) (h : Reachable s entry source c)
    (hdone : c.branches = []) {e : Path × List Dependency} :
    e ∈ c.state.index.entries ↔ Found s (s.fs.cwd.absoluteFrom entry) source e.1 ∧
      e.2 = (s.readingOf (s.fs.cwd.absoluteFrom entry) source e.1).dependencies := by
  have hinv := Inv.of_reachable h
  rw [← mem_settled_iff hs h hdone, Inv.settled_eq hdone]
  constructor
  · exact fun he => ⟨List.mem_map_of_mem he, hinv.entries e he⟩
  · rintro ⟨hkey, hdeps⟩
    obtain ⟨f, hf, hfile⟩ := List.mem_map.1 hkey
    have heq : f = e := by
      refine Prod.ext hfile ?_
      rw [hinv.entries f hf, hfile, hdeps]
    rwa [← heq]

theorem mem_files_iff (hs : s.IsPlain) (h : Reachable s entry source c) (hdone : c.branches = []) :
    p ∈ c.state.files.toList ↔ ∃ f, Found s (s.fs.cwd.absoluteFrom entry) source f ∧
      p ∈ (s.readingOf (s.fs.cwd.absoluteFrom entry) source f).targets := by
  have hinv := Inv.of_reachable h
  simp only [← mem_settled_iff hs h hdone]
  refine ⟨hinv.files p, fun ⟨f, hf, ht⟩ => ?_⟩
  obtain ⟨q, hq, hsame⟩ := PathTable.contains_iff.1 (hinv.covered f hf p ht).2
  obtain ⟨g, _, hqt⟩ := hinv.files q hq
  have heq := (hs.isReported_target hqt).canonical.eq_of_same
    (hs.isReported_target ht).canonical hsame
  rwa [← heq]

theorem mem_contexts_iff (hs : s.IsPlain) (h : Reachable s entry source c)
    (hdone : c.branches = []) :
    p ∈ c.state.contexts.toList ↔ ∃ f, Found s (s.fs.cwd.absoluteFrom entry) source f ∧
      p ∈ (s.readingOf (s.fs.cwd.absoluteFrom entry) source f).contexts := by
  have hnoted := Noted.of_reachable h
  simp only [← mem_seen_iff hs h hdone]
  refine ⟨hnoted.sound p, fun ⟨f, hf, hd⟩ => ?_⟩
  have hcontains := (hnoted.complete f hf p hd).resolve_right (by simp [hdone])
  obtain ⟨q, hq, hsame⟩ := PathTable.contains_iff.1 hcontains
  obtain ⟨g, _, hqd⟩ := hnoted.sound q hq
  have heq := (hs.isReported_context hqd).canonical.eq_of_same
    (hs.isReported_context hd).canonical hsame
  rwa [← heq]

/-! ## Agreement -/

theorem PathSet.ext {set other : PathSet} (h : PathTable.IsOrdered set)
    (hother : PathTable.IsOrdered other) (hmem : ∀ p, p ∈ set.toList ↔ p ∈ other.toList) :
    set = other := by
  refine h.ext hother fun e => ?_
  have hentry : ∀ (paths : PathSet), e ∈ paths.entries ↔ e.1 ∈ paths.toList := fun paths =>
    ⟨fun he => List.mem_map_of_mem he, fun he => by
      obtain ⟨f, hf, hfile⟩ := List.mem_map.1 he
      rwa [← show f = e from Prod.ext hfile rfl]⟩
  rw [hentry, hentry, hmem]

/-- The diagnostics of a complete interleaving, in the order in which they were made. -/
theorem diagnostics_perm (h : Reachable s entry source c) (hdone : c.branches = []) :
    c.state.diagnostics.Perm (c.state.seen.flatMap fun f =>
      diagnosticsOf f (s.readingOf (s.fs.cwd.absoluteFrom entry) source f).notes) := by
  simpa [hdone] using (Noted.of_reachable h).diagnostics

/-- Two diagnostics of a complete interleaving stand at different places. -/
theorem places_of_complete (h : Reachable s entry source c) (hdone : c.branches = [])
    {d e : Diagnostic} (hd : d ∈ c.state.diagnostics) (he : e ∈ c.state.diagnostics) :
    d = e ∨ d.before e = true ∨ e.before d = true := by
  have hperm := diagnostics_perm h hdone
  have hdistinct := (Inv.of_reachable h).distinct
  obtain ⟨f, hf, hdf⟩ := List.mem_flatMap.1 (hperm.mem_iff.1 hd)
  obtain ⟨g, hg, heg⟩ := List.mem_flatMap.1 (hperm.mem_iff.1 he)
  obtain ⟨x, hx, rfl⟩ := List.mem_map.1 hdf
  obtain ⟨y, hy, rfl⟩ := List.mem_map.1 heg
  by_cases hfg : f = g
  · subst hfg
    rcases s.places_reading f _ hx hy with rfl | hplace
    · exact .inl rfl
    · exact .inr (Diagnostic.before_of_places (.inr hplace))
  · refine .inr (Diagnostic.before_of_places (.inl ?_))
    have : Std.Symm fun p q : Path => p.same q = false :=
      ⟨fun p q hpq => by rw [Path.same_comm]; exact hpq⟩
    exact hdistinct.forall hf hg hfg

/-- In a plain setting all complete interleavings end with the same graph, the same files and
directories and the same diagnostics in the same order, and no interleaving reads or visits one path
twice. -/
theorem interleavings_agree (hs : s.IsPlain) (entry : Path) (source : Text) :
    (∀ a b, Reachable s entry source a → Reachable s entry source b →
      a.branches = [] → b.branches = [] →
      ofState (s.fs.cwd.absoluteFrom entry) a.state =
        ofState (s.fs.cwd.absoluteFrom entry) b.state) ∧
    ∀ c, Reachable s entry source c →
      (c.reads.Pairwise fun p q => p.same q = false) ∧
      c.visits.Pairwise fun p q => p.same q = false := by
  refine ⟨fun a b ha hb hadone hbdone => ?agree, fun c hc => ?once⟩
  case agree =>
    have haordered := ordered_of_reachable ha
    have hbordered := ordered_of_reachable hb
    have hindex : a.state.index = b.state.index := haordered.index.ext hbordered.index fun e => by
      rw [mem_entries_iff hs ha hadone, mem_entries_iff hs hb hbdone]
    have hfiles : a.state.files = b.state.files :=
      PathSet.ext haordered.files hbordered.files fun p => by
        rw [mem_files_iff hs ha hadone, mem_files_iff hs hb hbdone]
    have hcontexts : a.state.contexts = b.state.contexts :=
      PathSet.ext haordered.contexts hbordered.contexts fun p => by
        rw [mem_contexts_iff hs ha hadone, mem_contexts_iff hs hb hbdone]
    have hseen : a.state.seen.Perm b.state.seen :=
      (List.perm_ext_iff_of_nodup (Path.nodup_of_distinct (Inv.of_reachable ha).distinct)
        (Path.nodup_of_distinct (Inv.of_reachable hb).distinct)).2 fun p => by
          rw [mem_seen_iff hs ha hadone, mem_seen_iff hs hb hbdone]
    -- Notes come in any order, but those of one place are the same note.
    have hdiagnostics : a.state.diagnostics.Perm b.state.diagnostics :=
      (diagnostics_perm ha hadone).trans
        ((hseen.flatMap_right _).trans (diagnostics_perm hb hbdone).symm)
    have hsorted := Diagnostic.sort_append_of_perm hdiagnostics
      (fun d hd e he => places_of_complete ha hadone hd he)
      (cycles b.state.index (s.fs.cwd.absoluteFrom entry))
    simp only [ofState, hindex, hfiles, hcontexts, hsorted]
  case once =>
    have hcounted := Counted.of_reachable hc
    have hdistinct := (Inv.of_reachable hc).distinct
    exact ⟨pairwise_of_subperm ((List.sublist_append_left ..).subperm.trans hcounted.reads)
        hdistinct,
      pairwise_of_subperm ((List.sublist_append_left ..).subperm.trans hcounted.visits) hdistinct⟩

theorem isPlain_ring : ring.IsPlain where
  fs := Memory.isPlain_fileSystem (by decide +kernel)
  file dir request paths h p hp := by
    have hanswers : ∀ p ∈ (RequestTable.mk [("pkg", [⟨"/lib/pkg.styl".toList⟩])]).answers,
        p.clean = p ∧ p.IsPlain := by decide +kernel
    exact hanswers p (RequestTable.mem_answers h hp)
  context dir request paths h := by cases h

theorem interleavings_agree_ring : ∃ c, Reachable ring ⟨"main.styl".toList⟩ ringSource c ∧
    c.branches = [] ∧ ∀ b, Reachable ring ⟨"main.styl".toList⟩ ringSource b → b.branches = [] →
      ofState ⟨"/p/main.styl".toList⟩ b.state = ofState ⟨"/p/main.styl".toList⟩ c.state := by
  have hsome : (fromSource ring 3 none ⟨"main.styl".toList⟩ ringSource).isSome = true := by
    decide +kernel
  have hentry : ring.fs.cwd.absoluteFrom ⟨"main.styl".toList⟩ = ⟨"/p/main.styl".toList⟩ := by
    decide +kernel
  obtain ⟨⟨w, cache⟩, hw⟩ := Option.isSome_iff_exists.1 hsome
  obtain ⟨c, hc, hdone, _⟩ := reachable_of_fromSource hw
  refine ⟨c, hc, hdone, fun b hb hbdone => ?_⟩
  rw [← hentry]
  exact (interleavings_agree isPlain_ring _ _).1 b c hb hc hbdone hdone

end Walk

end StyleImports
