import StyleImports.Proofs.Graph.BackEdges
import StyleImports.Proofs.Loader.Consulted
import StyleImports.Proofs.Sheet.Importless

/-!
# Compiling a stylesheet without imports

A stylesheet without imports compiles, whatever is in it: its walk enters the entry and nothing
else, and its render writes its rows (`compile_of_importless`). The entry has its own path in the
graph if it is given by an absolute path, and from every absolute working directory whose name holds
no backslash; otherwise it may be entered under a path that is not its own
(`not_entered_of_backslash`).
-/

set_option autoImplicit false

namespace StyleImports

/-! ## The text of written lines -/

theorem Text.joinWith_eq_flatMap {sep : Char} {parts : List Text} (h : parts ≠ []) :
    joinWith sep parts ++ [sep] = parts.flatMap (· ++ [sep]) := by
  induction parts with
  | nil => exact absurd rfl h
  | cons part parts ih =>
    cases parts with
    | nil => simp [joinWith]
    | cons next parts =>
      rw [joinWith, List.flatMap_cons, ← ih (by simp)]
      simp

/-- Lines that are not empty make a text in which each is closed by a line feed. -/
theorem Rendered.code_eq_flatMap {out : Rendered} (h : ∀ line ∈ out.lines, line ≠ []) :
    out.code = out.lines.flatMap (· ++ ['\n']) := by
  by_cases hnil : out.lines = []
  · rw [code, hnil]
    rfl
  · rw [← Text.joinWith_eq_flatMap hnil, code]
    split
    case h_1 hjoin =>
      obtain ⟨line, lines, hlines⟩ := List.exists_cons_of_ne_nil hnil
      have hline := h line (hlines ▸ List.mem_cons_self)
      cases lines <;> simp [hlines, Text.joinWith, hline] at hjoin
    case h_2 => rfl

namespace Renderer.Call

/-- Without URL options a call writes lines as they are, indented as far as its file. -/
theorem foldlM_lines (r : Renderer) (c : Call) (lines : List Sheet.Line) (out : Rendered) :
    (lines.map Sheet.Line.step).foldlM (c.step r none) out =
      .ok { out with lines := out.lines ++ lines.map fun line =>
        List.replicate (c.base + line.indent) ' ' ++ line.content } := by
  induction lines generalizing out with
  | nil =>
    simp only [List.map_nil, List.append_nil]
    rfl
  | cons line lines ih =>
    rw [List.map_cons, List.foldlM_cons]
    show (lines.map Sheet.Line.step).foldlM (c.step r none)
      (out.emit (c.base + line.indent) line.content) = _
    rw [ih]
    simp [Rendered.emit]

end Renderer.Call

/-- A stylesheet without imports renders to its rows and puts no file in. -/
theorem Renderer.render_of_importless {r : Renderer} {source : Text} (hurls : r.urls = none)
    (hsource : Sheet.IsImportless source) (file : Path) :
    ∃ out, r.render file source = .ok out ∧ out.code = Sheet.respacedRows source ∧
      out.imports = [] := by
  obtain ⟨nodes, hparse, hsteps⟩ := Sheet.exists_parse_of_importless hsource
  have hrebaser : r.rebaser file = none := by
    rw [rebaser, hurls]
    rfl
  have hrender : r.render file source =
      .ok ⟨(Sheet.rowsOf source).map fun row => Sheet.respaced row.1, []⟩ := by
    rw [Call.render_eq, hrebaser, Call.run_eq]
    simp only [start, hparse, hsteps]
    rw [Call.foldlM_lines, ← Sheet.map_linesOf]
    simp [Rendered.empty]
  refine ⟨_, hrender, ?_, rfl⟩
  rw [Rendered.code_eq_flatMap, List.flatMap_map]
  · rfl
  · intro line hline
    obtain ⟨row, hrow, rfl⟩ := List.mem_map.1 hline
    exact Sheet.respaced_ne_nil (Sheet.mem_lines_of_mem_rowsOf hrow).2

/-! ## The walk -/

theorem Index.backEdges_of_no_records {index : Index} (entry : Path)
    (h : ∀ item ∈ index.entries, item.2 = []) : index.backEdges entry = [] := by
  rw [List.eq_nil_iff_forall_not_mem]
  intro e he
  obtain ⟨_, hcycle⟩ := cycle_of_mem_backEdges he
  obtain ⟨_, ⟨edge, hedge, _⟩, _⟩ := Relation.TransGen.head'_iff.1 hcycle
  rw [edgesFrom] at hedge
  cases hget : index.get? e.file with
  | none => simp [hget, edgesOf] at hedge
  | some dependencies =>
    obtain ⟨key, hmem, _⟩ := PathTable.exists_of_get? hget
    have hnone : dependencies = [] := h _ hmem
    simp [hget, hnone, edgesOf] at hedge

/-- What a cache keeps for a content of a file, if anything, holds no imports. -/
def Cache.KeepsNone (cache : Cache) (file : Path) (content options : Text) : Prop :=
  ∀ kept, cache.entryFor file content options = some kept → kept.dependencies = []

theorem Cache.IsFaithful.keepsNone {s : Setting} {source : Text} {k : Cache}
    (h : k.IsFaithful s source) (hsource : Sheet.IsImportless source) (file : Path)
    (options : Text) : k.KeepsNone file (Sha256.ofText source) options := by
  intro kept hkept
  obtain ⟨hget, hcontent, _⟩ := Cache.entryFor_eq_some.1 hkept
  obtain ⟨key, hmem, _⟩ := PathTable.exists_of_get? hget
  have hlists := h.lists _ hmem source (.inl rfl) hcontent
  obtain ⟨nodes, hparse, hsteps⟩ := Sheet.exists_parse_of_importless hsource
  simp only [Dependency.Lists, Setting.importsIn, hparse, Sheet.importsOf_of_lines hsteps,
    List.map_nil, List.map_eq_nil_iff] at hlists
  exact hlists

namespace Walk

variable {s : Setting} {file entry : Path} {source : Text} {cache cache' : Option Cache}

theorem Recorded.eq_nil {dependencies : List Dependency}
    (hcache : ∀ k, cache = some k →
      k.KeepsNone file (Sha256.ofText source) s.options.fingerprint)
    (h : Recorded s file source [] cache dependencies cache') : dependencies = [] := by
  cases h with
  | uncached => rfl
  | @served k _ hserved _ =>
    obtain ⟨kept, hget, hcontent, hoptions, _, rfl⟩ := Cache.get_eq_some.1 hserved
    exact hcache k rfl kept (Cache.entryFor_eq_some.2 ⟨hget, hcontent, hoptions⟩)
  | kept => rfl
  | missed => rfl

/-- A visit of a file without imports enters it and does nothing else, the cache aside. -/
theorem visit_of_importless (hsource : Sheet.IsImportless source) (st : WalkState)
    (hcache : ∀ k, st.cache = some k →
      k.KeepsNone file (Sha256.ofText source) s.options.fingerprint) (budget : Nat) :
    ∃ left, visit s (budget + 1) file source st = some ((st.withCache left).commit file []) := by
  obtain ⟨nodes, hparse, hsteps⟩ := Sheet.exists_parse_of_importless hsource
  obtain ⟨hrecorded, hframe⟩ := frame_resolveImports s file source [] st
  refine ⟨(resolveImports s file source [] st).2.cache, ?_⟩
  rw [visit_of_parse hparse, Sheet.importsOf_of_lines hsteps]
  simp only [hrecorded.eq_nil hcache]
  exact congrArg (fun st : WalkState => some (st.commit file [])) hframe

/-- A walk from a source without imports enters the entry and finds nothing else. -/
theorem fromSource_of_importless (hsource : Sheet.IsImportless source)
    (hcache : ∀ k, cache = some k →
      k.KeepsNone (s.fs.cwd.absoluteFrom entry) (Sha256.ofText source) s.options.fingerprint)
    (budget : Nat) :
    ∃ left, fromSource s (budget + 1) cache entry source =
      some (⟨⟨[(s.fs.cwd.absoluteFrom entry, [])]⟩, [], .empty, .empty⟩, left) := by
  obtain ⟨left, hvisit⟩ := visit_of_importless hsource (.start _ cache) hcache budget
  have hcycles : Diagnostic.sort (cycles ⟨[(s.fs.cwd.absoluteFrom entry, [])]⟩
      (s.fs.cwd.absoluteFrom entry)) = [] := by
    rw [cycles, Index.backEdges_of_no_records _ (by simp), List.map_nil, Diagnostic.sort,
      List.mergeSort_nil]
  refine ⟨left, ?_⟩
  rw [fromSource, hvisit]
  exact congrArg (fun found => some (Walk.mk ⟨[(s.fs.cwd.absoluteFrom entry, [])]⟩ found .empty
    .empty, left)) hcycles

end Walk

namespace Loader

variable {l : Loader}

theorem prepare_eq (hheader : l.options.header = none) (himports : l.options.imports = [])
    (source : Text) : l.prepare source = source := by
  rw [prepare, hheader, himports]
  rfl

/-- The walk of a compilation takes its entry by the path of the entry, if that is given as an
absolute one, or seen from an absolute directory whose name holds no backslash. -/
theorem absolute_absolute {entry : Path}
    (h : l.fs.cwd.isAbsolute = true ∧ l.fs.cwd.IsPlain ∨ entry.asDependency.isAbsolute = true) :
    l.fs.cwd.absoluteFrom (l.absolute entry) = l.absolute entry := by
  rcases h with ⟨habsolute, hplain⟩ | hentry
  · exact Path.absoluteFrom_absoluteFrom habsolute hplain entry
  · exact Path.absoluteFrom_of_isAbsolute hentry l.fs.cwd

/-- A stylesheet without imports compiles, if nothing is put before it and its URLs stay as they
are: to its rows that are not blank, each with a space for each blank at its start, without the
blanks at its end, and closed by a line feed. Its graph, if it has one, is the entry without
imports; nothing is reported or watched. The entry has its own path in the graph, if it is given by
an absolute path or the working directory is absolute and its name holds no backslash. -/
theorem compile_of_importless (l : Loader) (budget : Nat) (cache : Option Cache) (entry : Path)
    (source : Text) (hsource : Sheet.IsImportless source)
    (hurls : l.options.urls.enabled = false) (hheader : l.options.header = none)
    (himports : l.options.imports = [])
    (hcache : ∀ k, cache = some k → k.KeepsNone (l.fs.cwd.absoluteFrom (l.absolute entry))
      (Sha256.ofText source) l.options.fingerprint) :
    (l.compile (budget + 1) cache entry source).1 = .ok
        { code := Sheet.respacedRows source
          index :=
            if l.options.preresolve then ⟨[(l.fs.cwd.absoluteFrom (l.absolute entry), [])]⟩
            else .empty
          diagnostics := []
          files := .empty
          contexts := .empty
          sources := [Specifier.sourceName l.sourceRoot (l.absolute entry).text] } ∧
      (l.fs.cwd.isAbsolute = true ∧ l.fs.cwd.IsPlain ∨ entry.asDependency.isAbsolute = true →
        l.fs.cwd.absoluteFrom (l.absolute entry) = l.absolute entry) := by
  refine ⟨?_, absolute_absolute⟩
  have hprepare : l.prepare source = source := prepare_eq hheader himports source
  have hrender := fun index : Option Index =>
    Renderer.render_of_importless (r := l.renderer index) (by simp [renderer, hurls]) hsource
      (l.absolute entry)
  cases hpreresolve : l.options.preresolve with
  | false =>
    obtain ⟨out, hout, hcode, hnone⟩ := hrender none
    rw [compile_of_bypass hpreresolve, hprepare, finish_eq_ok]
    exact ⟨out, hout, by simp [assemble, hcode, hnone]⟩
  | true =>
    obtain ⟨left, hwalk⟩ : ∃ left, l.walk (budget + 1) cache entry source =
        some (⟨⟨[(l.fs.cwd.absoluteFrom (l.absolute entry), [])]⟩, [], .empty, .empty⟩, left) := by
      rw [walk, hprepare]
      exact Walk.fromSource_of_importless (s := l.setting) hsource hcache budget
    obtain ⟨out, hout, hcode, hnone⟩ :=
      hrender (some ⟨[(l.fs.cwd.absoluteFrom (l.absolute entry), [])]⟩)
    rw [compile_of_walk hpreresolve hwalk, hprepare, finish_eq_ok]
    exact ⟨out, hout, by simp [assemble, hcode, hnone]⟩

/-- A loader without files that leaves URLs as they are. -/
def bare (cwd : Path) : Loader :=
  ofMemory (.empty cwd) { urls := { enabled := false } } .empty .empty

/-- An import in a comment, a row with blanks of other kinds, and rows that look like a block, an
assignment and an import. -/
def bareSource : Text :=
  "// @import 'a'\n.a\n\t\u00a0color red  \r\n\n  n = 'b' /* c\n@import */\n@imports\n"

theorem compile_of_importless_bare : ∃ compiled,
    ((bare ⟨"/p".toList⟩).compile 1 (some .empty) ⟨"main.styl".toList⟩ bareSource).1 =
        .ok compiled ∧
      compiled.code = ".a\n  color red\n  n = 'b'\n@imports\n".toList ∧
      compiled.index = ⟨[(⟨"/p/main.styl".toList⟩, [])]⟩ ∧
      compiled.sources = ["main.styl".toList] := by
  obtain ⟨hcompile, _⟩ := compile_of_importless (bare ⟨"/p".toList⟩) 0 (some .empty)
    ⟨"main.styl".toList⟩ bareSource (by decide +kernel) rfl rfl rfl
    (by rintro _ ⟨⟩ kept ⟨⟩)
  exact ⟨_, hcompile, by decide +kernel, by decide +kernel, by decide +kernel⟩

/-- From a directory called `p\q` the graph holds a file below `/p/q`, and not the entry. -/
theorem not_entered_of_backslash : Sheet.IsImportless "a" ∧ ∃ compiled,
    ((bare ⟨"/p\\q".toList⟩).compile 1 none ⟨"main.styl".toList⟩ "a").1 = .ok compiled ∧
      compiled.index = ⟨[(⟨"/p/q/main.styl".toList⟩, [])]⟩ ∧
      compiled.index.contains ((bare ⟨"/p\\q".toList⟩).absolute ⟨"main.styl".toList⟩) = false := by
  have hindex : ((bare ⟨"/p\\q".toList⟩).compile 1 none ⟨"main.styl".toList⟩ "a").1.map
      Compiled.index = .ok ⟨[(⟨"/p/q/main.styl".toList⟩, [])]⟩ := by
    decide +kernel
  cases hcompile : ((bare ⟨"/p\\q".toList⟩).compile 1 none ⟨"main.styl".toList⟩ "a").1 with
  | error e =>
    rw [hcompile] at hindex
    cases hindex
  | ok compiled =>
    rw [hcompile] at hindex
    have hcompiled : compiled.index = ⟨[(⟨"/p/q/main.styl".toList⟩, [])]⟩ := Except.ok.inj hindex
    refine ⟨by decide +kernel, compiled, rfl, hcompiled, ?_⟩
    rw [hcompiled]
    decide +kernel

end Loader

end StyleImports
