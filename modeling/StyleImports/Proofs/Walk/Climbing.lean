import StyleImports.Proofs.Graph.Origins
import StyleImports.Proofs.Lookup.Within
import StyleImports.Proofs.Walk.Confluence
import StyleImports.Proofs.Walk.Termination

/-!
# When walks end

A pattern is expanded below a directory next to its file, and if the path of the file is relative,
as that of a file with a drive letter is, so is the path of the directory. At the root such a path
may climb without an end, each time under another spelling, and a walk may claim every one of them.

This is the only way in which a walk over files in memory goes on for ever: it ends exactly if the
directories of its patterns climb no further than some limit (`terminates_iff`).
-/

set_option autoImplicit false

namespace StyleImports

/-- The resolvers answer with some absolute clean paths only. -/
structure Resolvers.AnswerFrom (resolvers : Resolvers) (answers : List Path) : Prop where
  absolute : ∀ p ∈ answers, p.isAbsolute = true ∧ p.clean = p
  file : ∀ dir request paths, resolvers.file dir request = .ok paths → ∀ p ∈ paths, p ∈ answers
  context : ∀ dir request paths, resolvers.context dir request = .ok paths →
    ∀ p ∈ paths, p ∈ answers

/-- Tables of absolute clean paths answer with their own paths only. -/
theorem RequestTable.answerFrom {file context : RequestTable}
    (h : ∀ p ∈ file.answers ++ context.answers, p.isAbsolute = true ∧ p.clean = p) :
    Resolvers.AnswerFrom ⟨file.resolver, context.resolver⟩ (file.answers ++ context.answers) where
  absolute := h
  file _ _ _ hanswer _ hp := List.mem_append_left _ (mem_answers hanswer hp)
  context _ _ _ hanswer _ hp := List.mem_append_right _ (mem_answers hanswer hp)

namespace Setting

variable {m : Memory} {resolvers : Resolvers} {options : WalkOptions} {answers : List Path}
  {entry file p : Path} {source specifier : Text} {limit : Nat}

theorem Base.isTidy {s : Setting} {base : Text} {dir : Path}
    (hanswers : s.resolvers.AnswerFrom answers) (h : s.Base file base dir) : dir.IsTidy := by
  cases h with
  | answered hanswer hmem =>
    rw [← (hanswers.absolute dir (hanswers.context _ _ _ hanswer dir hmem)).2]
    exact dir.isTidy_clean
  | beside => exact Path.isTidy_clean _

/-- What an import leads to, if its lookups and the directories of its patterns climb no further
than a limit. -/
theorem Origin.mem_or_holds (hplaced : m.IsPlaced) (hcwd : m.cwd.isAbsolute = true)
    (hanswers : resolvers.AnswerFrom answers) {contexts : List Path}
    (hlookup : ∀ p, Lookup.Origin ⟨m.fileSystem, options.paths⟩ specifier file p → m.Holds limit p)
    (hcontexts : ∀ d ∈ contexts, d.climb ≤ limit)
    (h : Origin ⟨m.fileSystem, resolvers, options⟩ file specifier contexts p) :
    p ∈ answers ∨ m.Holds limit p := by
  cases h with
  | looked hlooked => exact .inr (hlookup p hlooked)
  | answered hanswer hmem => exact .inl (hanswers.file _ _ _ hanswer p hmem)
  | expanded hbase hmem hbelow hfile =>
    have htidy := Base.isTidy (s := ⟨m.fileSystem, resolvers, options⟩) hanswers hbase
    have hholds := hplaced.holds_of_listsBelow hcwd htidy hbelow hfile
    exact .inr (hholds.mono (Nat.le_trans (Path.climb_le_asDependency htidy) (hcontexts _ hmem)))

/-- The specifiers in a source and in the stored files. -/
def specifiersOf (m : Memory) (source : Text) : List Text :=
  (source :: m.texts).flatMap fun text => (importsIn (.ok text)).map Sheet.Import.specifier

theorem mem_specifiersOf {i : Sheet.Import}
    (h : i ∈ importsIn (contentOf ⟨m.fileSystem, resolvers, options⟩ entry source file)) :
    i.specifier ∈ specifiersOf m source := by
  have htext : ∃ text ∈ source :: m.texts, i ∈ importsIn (.ok text) := by
    rw [contentOf] at h
    split at h
    · exact ⟨source, List.mem_cons_self, h⟩
    · cases hread : m.fileSystem.readText file with
      | error e =>
        rw [hread] at h
        cases h
      | ok text =>
        rw [hread] at h
        exact ⟨text, List.mem_cons_of_mem _ (Memory.mem_texts hread), h⟩
  obtain ⟨text, hmem, hi⟩ := htext
  exact List.mem_flatMap.2 ⟨text, hmem, List.mem_map_of_mem hi⟩

/-- The paths that a walk may claim below a limit. -/
def claimable (m : Memory) (answers : List Path) (entry : Path) (limit : Nat) : List Path :=
  entry :: (answers ++ m.filesWithin limit).map Path.asDependency

/-- There is a limit such that a file whose patterns climb no further than some greater one leads
only to paths that are claimable below that. -/
theorem exists_limit (hplaced : m.IsPlaced) (hcwd : m.cwd.isAbsolute = true)
    (hanswers : resolvers.AnswerFrom answers) (options : WalkOptions) (entry : Path)
    (source : Text) :
    ∃ least, ∀ limit, least ≤ limit → ∀ file,
      (∀ d ∈ (readingOf ⟨m.fileSystem, resolvers, options⟩ entry source file).contexts,
        d.climb ≤ limit) →
      ∀ p ∈ (readingOf ⟨m.fileSystem, resolvers, options⟩ entry source file).targets,
        p ∈ claimable m answers entry limit := by
  obtain ⟨least, hleast⟩ := Lookup.exists_limit hplaced hcwd (specifiersOf m source)
  refine ⟨least, fun limit hle file hcontexts p hp => ?_⟩
  obtain ⟨i, hi, hpi⟩ := mem_targets_reading.1 hp
  obtain ⟨q, horigin, rfl⟩ := exists_origin hpi
  have hlookup : ∀ r, Lookup.Origin ⟨m.fileSystem, options.paths⟩ i.specifier file r →
      m.Holds limit r := fun r hr =>
    (hleast i.specifier (mem_specifiersOf hi) options.paths file r hr).mono hle
  have hdirs : ∀ d ∈ (resolve ⟨m.fileSystem, resolvers, options⟩ file i).contexts,
      d.climb ≤ limit := fun d hd => hcontexts d (mem_contexts_reading.2 ⟨i, hi, hd⟩)
  refine List.mem_cons_of_mem _ (List.mem_map_of_mem (List.mem_append.2 ?_))
  exact (horigin.mem_or_holds hplaced hcwd hanswers hlookup hdirs).imp_right Memory.mem_filesWithin

end Setting

namespace Walk

variable {s : Setting} {entry : Path} {source : Text} {c : Progress}

/-- A walk that claims only finitely many paths, of which no interleaving goes on for ever, and that
returns. -/
structure Terminates (s : Setting) (entry : Path) (source : Text) : Prop where
  claimed : ∃ paths : List Path, ∀ c, Reachable s entry source c → ∀ p ∈ c.state.seen, p ∈ paths
  ends : Acc (fun next c => Step s c next) (.start (s.fs.cwd.absoluteFrom entry) source)
  returns : ∃ budget w cache, fromSource s budget none entry source = some (w, cache)

/-- A walk that claims only finitely many paths terminates. -/
theorem terminates_of_claimed (paths : List Path)
    (h : ∀ c, Reachable s entry source c → ∀ p ∈ c.state.seen, p ∈ paths) :
    Terminates s entry source := by
  have hclaimed : ∀ c, Reachable s entry source c → ∀ p ∈ c.state.seen, p ∈ paths.toFinset :=
    fun c hc p hp => List.mem_toFinset.2 (h c hc p hp)
  have hends : Acc (fun next c => Step s c next) (.start (s.fs.cwd.absoluteFrom entry) source) :=
    acc_of_claimed hclaimed .refl
  exact ⟨⟨paths, h⟩, hends, exists_fromSource_of_acc hends⟩

/-- Over files in memory, with resolvers that answer from finitely many absolute clean paths, a walk
terminates exactly if the directories of its patterns climb no further than some limit. -/
theorem terminates_iff {m : Memory} {resolvers : Resolvers} {answers : List Path}
    (hplaced : m.IsPlaced) (hcwd : m.cwd.isAbsolute = true)
    (hanswers : resolvers.AnswerFrom answers) (options : WalkOptions) (entry : Path)
    (source : Text) :
    Terminates ⟨m.fileSystem, resolvers, options⟩ entry source ↔
      ∃ limit, ∀ c, Reachable ⟨m.fileSystem, resolvers, options⟩ entry source c →
        ∀ dir ∈ c.state.contexts.toList, dir.climb ≤ limit := by
  constructor
  · rintro ⟨⟨paths, hpaths⟩, _, _⟩
    -- Only claimed files have patterns, so their directories are finitely many.
    obtain ⟨limit, hlimit⟩ := exists_bound (paths.flatMap fun f =>
      (Setting.readingOf ⟨m.fileSystem, resolvers, options⟩ (m.cwd.absoluteFrom entry) source
        f).contexts) Path.climb
    refine ⟨limit, fun c hc dir hdir => hlimit dir ?_⟩
    obtain ⟨f, hf, hmem⟩ := (Noted.of_reachable hc).sound dir hdir
    exact List.mem_flatMap.2 ⟨f, hpaths c hc f hf, hmem⟩
  · rintro ⟨limit, hlimit⟩
    obtain ⟨least, hleast⟩ := Setting.exists_limit hplaced hcwd hanswers options
      (m.cwd.absoluteFrom entry) source
    refine terminates_of_claimed (Setting.claimable m answers (m.cwd.absoluteFrom entry)
      (max least limit)) fun c hc p hp => ?_
    -- A claimed path is the entry, or a target of a file that has noted its directories.
    rcases (Inv.of_reachable hc).origin p hp with rfl | ⟨f, hf, htarget⟩
    · exact List.mem_cons_self
    · refine hleast _ (Nat.le_max_left ..) f (fun d hd => ?_) p htarget
      obtain ⟨q, hq, hsame⟩ := PathTable.contains_iff.1
        ((Noted.of_reachable hc).contains_of_settled (Inv.of_reachable hc) hf hd)
      rw [← Path.climb_congr hsame]
      exact Nat.le_trans (hlimit c hc q hq) (Nat.le_max_right ..)

def ringPaths : List Path :=
  ["/p/main.styl", "/p/a.styl", "/p/b.styl", "/p/d/c.styl", "/lib/pkg.styl"].map
    fun t => ⟨t.toList⟩

theorem terminates_ring : Terminates ring ⟨"main.styl".toList⟩ ringSource := by
  have hplaced : ringFiles.IsPlaced :=
    (((Memory.isPlaced_empty _).add _ _).add _ _).add _ _
  have hanswers : ∀ p ∈ (RequestTable.mk [("pkg", [⟨"/lib/pkg.styl".toList⟩])]).answers ++
      RequestTable.empty.answers, p.isAbsolute = true ∧ p.clean = p := by decide +kernel
  have hcwd : ringFiles.cwd.isAbsolute = true := by decide +kernel
  have hclosed : ∀ f ∈ ringPaths,
      (∀ t ∈ (ring.readingOf ⟨"/p/main.styl".toList⟩ ringSource f).targets, t ∈ ringPaths) ∧
        ∀ d ∈ (ring.readingOf ⟨"/p/main.styl".toList⟩ ringSource f).contexts, d.climb ≤ 0 := by
    decide +kernel
  have hentry : ring.fs.cwd.absoluteFrom ⟨"main.styl".toList⟩ = ⟨"/p/main.styl".toList⟩ := by
    decide +kernel
  refine (terminates_iff hplaced hcwd (RequestTable.answerFrom hanswers) _ _ _).2
    ⟨0, fun c hc dir hdir => ?_⟩
  obtain ⟨f, hf, hmem⟩ := (Noted.of_reachable hc).sound dir hdir
  have hfound := (Inv.of_reachable hc).grown.found f hf
  rw [show (Setting.mk ringFiles.fileSystem _ _).fs.cwd.absoluteFrom _ = _ from hentry]
    at hfound hmem
  have hring := hfound.mem_of_closed List.mem_cons_self fun f hf => (hclosed f hf).1
  exact (hclosed f hring).2 dir hmem

end Walk

end StyleImports
