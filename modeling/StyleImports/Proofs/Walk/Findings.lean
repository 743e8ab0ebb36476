import StyleImports.Proofs.Graph.BackEdges
import StyleImports.Proofs.Walk.Confluence
import StyleImports.Proofs.Walk.Records

/-!
# What a walk diagnoses

The findings of a file are told by its content and by what its patterns come to: an error if it
cannot be parsed (`parseErrors`) or read (`readErrors`), and one for each import that is a pattern
and leads nowhere (`deadPatterns`). A walk makes the findings of each file once, whatever a cache
serves, since no pattern is served from one, and so does every complete interleaving. Its
diagnostics are then the findings of the files of its graph and the edges that close a cycle, in
the order of places (`diagnosed`).
-/

set_option autoImplicit false

namespace StyleImports

open Setting (importsIn)

/-! ## Imports that are patterns -/

namespace Setting

variable {s : Setting} {file : Path} {specifier : Text} {i : Sheet.Import}

theorem isDynamic_of_isPattern (h : s.isPattern file specifier = true) :
    Glob.isDynamic specifier = true := by
  simp only [isPattern, Glob.isRequest, Bool.and_eq_true] at h
  exact h.1.1

theorem resolvePattern_ne_nil : (s.resolvePattern file specifier).2 ≠ .ok [] := by
  simp only [resolvePattern]
  split
  · simp
  · split
    · simp
    · simp only [expandBelow]
      split <;> simp_all

theorem isFailed_resolve (h : s.isPattern file i.specifier = true) :
    (s.resolve file i).dependency.target.isFailed = true ↔
      ∃ e, (s.resolvePattern file i.specifier).2 = .error e := by
  have hfound := @resolvePattern_ne_nil s file i.specifier
  simp only [resolve, h, if_true]
  cases hanswer : (s.resolvePattern file i.specifier).2 with
  | error e => simp [targetOf, Target.isFailed]
  | ok paths =>
    rw [hanswer] at hfound
    cases paths with
    | nil => exact absurd rfl hfound
    | cons p paths => cases paths <;> simp [targetOf, Target.ofPaths, Target.isFailed]

end Setting

namespace Walk

variable {s : Setting} {entry file : Path} {source text : Text} {budget : Nat}
  {st st' : WalkState}

/-! ## Findings of a file -/

/-- The error of a file whose content cannot be parsed. -/
def parseErrors (s : Setting) (entry : Path) (source : Text) (file : Path) : List Diagnostic :=
  match s.contentOf entry source file with
  | .error _ => []
  | .ok text =>
    match Sheet.parse text with
    | .error e => [⟨file, .unparsed e⟩]
    | .ok _ => []

/-- The error of a file that cannot be read; the entry has its content. -/
def readErrors (s : Setting) (entry : Path) (source : Text) (file : Path) : List Diagnostic :=
  match s.contentOf entry source file with
  | .error e => [⟨file, .unread e⟩]
  | .ok _ => []

/-- The error of an import that is a pattern and leads nowhere. -/
def deadPattern? (s : Setting) (file : Path) (i : Sheet.Import) : Option Diagnostic :=
  if s.isPattern file i.specifier then
    match (s.resolvePattern file i.specifier).2 with
    | .error e => some ⟨file, .unresolved i.position e⟩
    | .ok _ => none
  else none

/-- The errors of the imports of a file that are patterns and lead nowhere. -/
def deadPatterns (s : Setting) (entry : Path) (source : Text) (file : Path) : List Diagnostic :=
  (importsIn (s.contentOf entry source file)).filterMap (deadPattern? s file)

/-- All that is found in a file. -/
def findingsIn (s : Setting) (entry : Path) (source : Text) (file : Path) : List Diagnostic :=
  parseErrors s entry source file ++ readErrors s entry source file ++
    deadPatterns s entry source file

/-- Resolving an import finds whether it is a dead pattern. -/
theorem diagnosticsOf_resolution (i : Sheet.Import) :
    diagnosticsOf file (s.resolve file i).notes = (deadPattern? s file i).toList := by
  have hcontexts : ∀ dirs : List Path, (dirs.map Note.context).filterMap Note.finding? = [] := by
    intro dirs
    simp [List.filterMap_map, Function.comp_def, Note.finding?]
  simp only [diagnosticsOf, Resolution.notes, List.filterMap_append, hcontexts, List.nil_append]
  simp only [Setting.resolve, deadPattern?]
  split
  · cases (s.resolvePattern file i.specifier).2 <;> rfl
  · rfl

theorem diagnosticsOf_notesOf (imports : List Sheet.Import) :
    diagnosticsOf file (notesOf s file imports) = imports.filterMap (deadPattern? s file) := by
  induction imports with
  | nil => rfl
  | cons i imports ih =>
    have hsplit : notesOf s file (i :: imports) =
        (s.resolve file i).notes ++ notesOf s file imports := rfl
    rw [hsplit, diagnosticsOf_append, ih, diagnosticsOf_resolution, List.filterMap_cons]
    cases deadPattern? s file i <;> rfl

/-- The notes about a file are its findings. -/
theorem diagnosticsOf_readingOf (s : Setting) (entry : Path) (source : Text) (file : Path) :
    diagnosticsOf file (s.readingOf entry source file).notes = findingsIn s entry source file := by
  simp only [Setting.readingOf, findingsIn, parseErrors, readErrors, deadPatterns]
  cases s.contentOf entry source file with
  | error e => rfl
  | ok text =>
    simp only [Setting.reading, importsIn]
    cases Sheet.parse text with
    | error e => rfl
    | ok nodes => exact diagnosticsOf_notesOf (Sheet.importsOf nodes)

/-! ## Findings of a walk -/

/-- What becomes of a state when files are visited: new files are entered, and all that is found in
them is diagnosed. -/
structure Diagnoses (s : Setting) (entry : Path) (source : Text) (st st' : WalkState) : Prop where
  ordered : st.index.IsOrdered → st'.index.IsOrdered
  entered : ∃ files : List Path, st'.index.keys.Perm (files ++ st.index.keys) ∧
    st'.diagnostics.Perm (st.diagnostics ++ files.flatMap (findingsIn s entry source))

theorem Diagnoses.trans {st₁ st₂ : WalkState} (h : Diagnoses s entry source st st₁)
    (h' : Diagnoses s entry source st₁ st₂) : Diagnoses s entry source st st₂ := by
  obtain ⟨files, hkeys, hfound⟩ := h.entered
  obtain ⟨more, hmore, hfoundMore⟩ := h'.entered
  refine ⟨fun hordered => h'.ordered (h.ordered hordered), more ++ files, ?_, ?_⟩
  · rw [List.append_assoc]
    exact hmore.trans (hkeys.append_left more)
  · have hboth := hfoundMore.trans (hfound.append_right _)
    rw [List.append_assoc] at hboth
    rw [List.flatMap_append]
    exact hboth.trans (List.perm_append_comm.append_left _)

theorem Diagnoses.nil (st : WalkState) : Diagnoses s entry source st st :=
  ⟨fun hordered => hordered, [], .refl _, by simp⟩

/-- The findings of a file are made, then other files are visited, and then it is entered. -/
theorem Diagnoses.commit {st₁ st₂ : WalkState} {dependencies : List Dependency}
    (h : Diagnoses s entry source st₁ st₂) (hindex : st₁.index = st.index)
    (hfound : st₁.diagnostics = st.diagnostics ++ findingsIn s entry source file)
    (hnew : st₂.index.contains file = false) :
    Diagnoses s entry source st (st₂.commit file dependencies) := by
  obtain ⟨hordered, files, hkeys, hmore⟩ := h
  rw [hindex] at hordered hkeys
  rw [hfound, List.append_assoc] at hmore
  refine ⟨fun h => (hordered h).insert file dependencies, file :: files, ?_, ?_⟩
  · exact (PathTable.keys_insert_perm dependencies hnew).trans (hkeys.cons file)
  · rw [List.flatMap_cons]
    exact hmore

theorem Diagnoses.fail {finding : Finding} (hnew : st.index.contains file = false)
    (hfound : findingsIn s entry source file = [⟨file, finding⟩]) :
    Diagnoses s entry source st (st.fail file finding) := by
  have hreported : (st.report file finding).diagnostics =
      st.diagnostics ++ findingsIn s entry source file := by
    rw [hfound]
    rfl
  exact Diagnoses.commit (.nil (st.report file finding)) rfl hreported hnew

theorem diagnostics_takeAll (st : WalkState) (file : Path) (notes : List Note) :
    (st.takeAll file notes).diagnostics = st.diagnostics ++ diagnosticsOf file notes := by
  induction notes generalizing st with
  | nil => exact (List.append_nil _).symm
  | cons n notes ih =>
    have hsplit : n :: notes = [n] ++ notes := rfl
    have hfirst := diagnostics_take st file n
    rw [hsplit, WalkState.takeAll_append, ih, diagnosticsOf_append, ← List.append_assoc, ← hfirst]
    rfl

/-- The moves of a walk diagnose what is found in the files that they enter. -/
theorem moves_diagnose (s : Setting) (entry : Path) (source : Text) :
    Moves s entry source fun _ => Diagnoses s entry source where
  nil := .nil
  append _ _ _ _ _ _ _ h h' := h.trans h'
  unread st file e hawaits hread := by
    apply Diagnoses.fail (hawaits.fresh file List.mem_cons_self)
    simp [findingsIn, parseErrors, readErrors, deadPatterns, hread, importsIn]
  unparsed st file text e hawaits htext hparse := by
    apply Diagnoses.fail (hawaits.fresh file List.mem_cons_self)
    simp [findingsIn, parseErrors, readErrors, deadPatterns, htext, hparse, importsIn]
  commit st file text nodes recorded fresh st₁ st₂ hawaits htext hparse hresolve hclaimed hnew
      hbelow := by
    obtain ⟨-, hframe⟩ := frame_resolveImports s file text (importsIn (.ok text)) st
    rw [hresolve] at hframe
    have hindex : st₁.index = st.index := by
      rw [hclaimed.index, hframe]
      exact (st.takeAll_frame file _).2
    have hfound : findingsIn s entry source file =
        diagnosticsOf file (notesOf s file (importsIn (.ok text))) := by
      rw [diagnosticsOf_notesOf]
      simp [findingsIn, parseErrors, readErrors, deadPatterns, htext, hparse]
    refine hbelow.commit hindex ?_ hnew
    rw [hclaimed.diagnostics, hframe, hfound, ← diagnostics_takeAll]
    rfl

/-- A walk whose diagnostics are told by its graph. -/
structure Diagnosed (s : Setting) (entry : Path) (source : Text) (w : Walk) : Prop where
  /-- Every file has one entry in the graph. -/
  distinct : w.index.keys.Pairwise fun p q => p.same q = false
  /-- The diagnostics are the errors of the files of the graph that cannot be parsed or read, those
  of their patterns that lead nowhere, and for each edge that closes a cycle one with its file, its
  position and its target. -/
  found : w.diagnostics.Perm
    (w.index.keys.flatMap (parseErrors s entry source) ++
      w.index.keys.flatMap (readErrors s entry source) ++
      w.index.keys.flatMap (deadPatterns s entry source) ++
      (w.index.backEdges entry).map fun edge => ⟨edge.file, .cycle edge.position edge.target⟩)
  /-- They are in the order of files and, in a file, of positions. -/
  ordered : w.diagnostics.Pairwise fun d e => e.before d = false
  /-- A pattern leads nowhere by its record if it does by now. -/
  patterns : ∀ e ∈ w.index.entries, ∀ i ∈ importsIn (s.contentOf entry source e.1),
    s.isPattern e.1 i.specifier = true → ∃ d ∈ e.2, d.position = i.position ∧
      d.specifier = i.specifier ∧
      (d.target.isFailed = true ↔ ∃ error, (s.resolvePattern e.1 i.specifier).2 = .error error)

theorem flatMap_findingsIn_perm (files : List Path) :
    (files.flatMap (findingsIn s entry source)).Perm
      (files.flatMap (parseErrors s entry source) ++ files.flatMap (readErrors s entry source) ++
        files.flatMap (deadPatterns s entry source)) := by
  have hbroken := List.flatMap_append_perm files (parseErrors s entry source)
    (readErrors s entry source)
  have hall := List.flatMap_append_perm files
    (fun f => parseErrors s entry source f ++ readErrors s entry source f)
    (deadPatterns s entry source)
  exact hall.symm.trans (hbroken.symm.append_right _)

theorem diagnosed_of_state {st : WalkState} (hordered : st.index.IsOrdered)
    (hfound : st.diagnostics.Perm (st.index.keys.flatMap (findingsIn s entry source)))
    (hfresh : ∀ e ∈ st.index.entries, isCacheable (importsIn (s.contentOf entry source e.1)) =
      false → e.2 = freshOf s e.1 (importsIn (s.contentOf entry source e.1))) :
    Diagnosed s entry source (ofState entry st) where
  distinct := hordered.distinct
  found := (List.mergeSort_perm _ _).trans
    ((hfound.trans (flatMap_findingsIn_perm _)).append_right _)
  ordered := Diagnostic.pairwise_sort _
  patterns e he i hi hpattern := by
    have hdynamic : isCacheable (importsIn (s.contentOf entry source e.1)) = false := by
      rw [isCacheable, List.all_eq_false]
      refine ⟨i, hi, ?_⟩
      simp [Setting.isDynamic_of_isPattern hpattern]
    obtain ⟨hposition, hspecifier⟩ := s.place_resolve e.1 i
    refine ⟨(s.resolve e.1 i).dependency, ?_, hposition, hspecifier,
      Setting.isFailed_resolve hpattern⟩
    rw [hfresh e he hdynamic]
    exact List.mem_map_of_mem hi

theorem diagnosed_of_fromSource {cache cache' : Option Cache} {w : Walk}
    (h : fromSource s budget cache entry source = some (w, cache')) :
    Diagnosed s (s.fs.cwd.absoluteFrom entry) source w := by
  have hfresh := freshOf_of_dynamic h
  obtain ⟨st, hmoves, rfl, rfl⟩ := (moves_diagnose s _ source).of_fromSource h
  obtain ⟨hordered, files, hkeys, hfound⟩ := hmoves
  have hentered : st.index.keys.Perm files := hkeys.trans (.of_eq (List.append_nil files))
  exact diagnosed_of_state (hordered .nil) (hfound.trans (hentered.symm.flatMap_right _)) hfresh

/-- Without a cache, branches may take their steps in any order. -/
theorem diagnosed_of_reachable {c : Progress} (h : Reachable s entry source c)
    (hdone : c.branches = []) :
    Diagnosed s (s.fs.cwd.absoluteFrom entry) source
      (ofState (s.fs.cwd.absoluteFrom entry) c.state) := by
  have hinv := Inv.of_reachable h
  have hfound := diagnostics_perm h hdone
  simp only [diagnosticsOf_readingOf] at hfound
  refine diagnosed_of_state (ordered_of_reachable h).index
    (hfound.trans ((hinv.seen_perm hdone).flatMap_right _)) fun e he _ => ?_
  rw [hinv.entries e he, Setting.readingOf, Setting.dependencies_reading]
  rfl

/-- A walk that ends, with any cache or in any order of steps without one, diagnoses each file of
its graph that cannot be parsed or read, each pattern in them that leads nowhere and each edge that
closes a cycle, once and in the order of places, and nothing else. -/
theorem diagnosed (s : Setting) (entry : Path) (source : Text) :
    (∀ budget cache w cache', fromSource s budget cache entry source = some (w, cache') →
      Diagnosed s (s.fs.cwd.absoluteFrom entry) source w) ∧
    ∀ c, Reachable s entry source c → c.branches = [] →
      Diagnosed s (s.fs.cwd.absoluteFrom entry) source
        (ofState (s.fs.cwd.absoluteFrom entry) c.state) :=
  ⟨fun _ _ _ _ => diagnosed_of_fromSource, fun _ => diagnosed_of_reachable⟩

/-- Files of the ring with one for the entry, which `a.styl` then leads back to, and without the one
that the pattern finds. -/
def faultyFiles : Memory :=
  [("main.styl", ""), ("a.styl", "@import 'main'"), ("b.styl", "@import"), ("d/c.txt", "")].foldl
    (fun m file => m.add ⟨file.1.toList⟩ (Text.utf8 file.2.toList)) (.empty ⟨"/p".toList⟩)

def faulty : Setting := { ring with fs := faultyFiles.fileSystem }

/-- One finding of each kind: the package is not there, `a.styl` closes a cycle, `b.styl` cannot be
parsed, and the pattern on the third line leads nowhere. -/
theorem diagnosed_faulty : ∃ w cache,
    fromSource faulty 3 (some .empty) ⟨"main.styl".toList⟩ ringSource = some (w, cache) ∧
      Diagnosed faulty ⟨"/p/main.styl".toList⟩ ringSource w ∧
      w.diagnostics =
        [⟨⟨"/lib/pkg.styl".toList⟩, .unread (.notFound ⟨"/lib/pkg.styl".toList⟩)⟩,
          ⟨⟨"/p/a.styl".toList⟩, .cycle ⟨1, 1⟩ ⟨"/p/main.styl".toList⟩⟩,
          ⟨⟨"/p/b.styl".toList⟩, .unparsed ⟨⟨1, 1⟩, .missingPath .always⟩⟩,
          ⟨⟨"/p/main.styl".toList⟩,
            .unresolved ⟨3, 1⟩ (.glob (.noMatches "d/*".toList ⟨"/p/d".toList⟩))⟩] := by
  obtain ⟨⟨w, cache⟩, hw, hvalues⟩ := Option.map_eq_some_iff.1
    (by decide +kernel : (fromSource faulty 3 (some .empty) ⟨"main.styl".toList⟩ ringSource).map
      (fun outcome =>
        let index := outcome.1.index
        let last := (Index.Search.start index ⟨"/p/main.styl".toList⟩).after index 20
        ((last.step index).isNone, last.back,
          index.keys.flatMap (parseErrors faulty ⟨"/p/main.styl".toList⟩ ringSource),
          index.keys.flatMap (readErrors faulty ⟨"/p/main.styl".toList⟩ ringSource),
          index.keys.flatMap (deadPatterns faulty ⟨"/p/main.styl".toList⟩ ringSource))) =
      some (true, [⟨⟨"/p/a.styl".toList⟩, ⟨1, 1⟩, ⟨"/p/main.styl".toList⟩⟩],
        [⟨⟨"/p/b.styl".toList⟩, .unparsed ⟨⟨1, 1⟩, .missingPath .always⟩⟩],
        [⟨⟨"/lib/pkg.styl".toList⟩, .unread (.notFound ⟨"/lib/pkg.styl".toList⟩)⟩],
        [⟨⟨"/p/main.styl".toList⟩,
          .unresolved ⟨3, 1⟩ (.glob (.noMatches "d/*".toList ⟨"/p/d".toList⟩))⟩]))
  simp only [Prod.mk.injEq] at hvalues
  obtain ⟨hend, hback, hunparsed, hunread, hdead⟩ := hvalues
  have hentry : faulty.fs.cwd.absoluteFrom ⟨"main.styl".toList⟩ = ⟨"/p/main.styl".toList⟩ := by
    decide +kernel
  have hdiagnosed := (diagnosed faulty ⟨"main.styl".toList⟩ ringSource).1 3 (some .empty) w cache hw
  rw [hentry] at hdiagnosed
  refine ⟨w, cache, hw, hdiagnosed, ?_⟩
  have hfound := hdiagnosed.found
  rw [hunparsed, hunread, hdead, Index.backEdges, Index.Search.run_eq_after hend, hback] at hfound
  -- No two of them are at one place, so their order is the only one.
  exact Diagnostic.eq_of_perm (hfound.trans (by decide +kernel)) (by decide +kernel)
    hdiagnosed.ordered (by decide +kernel)

end Walk

end StyleImports
