import StyleImports.Proofs.Loader.Bypass
import StyleImports.Proofs.Walk.Watched

/-!
# The files to watch

What a compilation puts in it reports, with all that its walk lists (`contains_of_mem_imports`). Of
other files it only asks whether they are there, and it reads the manifests of packages. So it comes
to the same output from files that differ in none of these (`compile_of_watched`). Manifests are no
stylesheets and are not reported, and an output can depend on them (`not_compile_of_watched`).
-/

set_option autoImplicit false

namespace StyleImports

/-! ## Renderers of files that look alike -/

namespace Renderer

variable {r : Renderer} {fs' : FileSystem} {file : Path} {text : Text} {out : Rendered}

def withFiles (r : Renderer) (fs : FileSystem) : Renderer := { r with fs := fs }

theorem exists_targets_of_mem_imports (h : r.render file text = .ok out) {p : Path}
    (hp : p ∈ out.imports) : ∃ file kind position specifier found,
      r.targets file kind position specifier = .ok found ∧ p ∈ found := by
  rw [Call.render_eq] at h
  rcases Call.mem_imports_of_run h p hp with hstart | hputs
  · cases hstart
  · obtain ⟨c, i, _, _, found, _, _, htargets, hmem⟩ := hputs
    exact ⟨c.file, i.kind, i.position, i.specifier, found, htargets, hmem⟩

theorem targets_alike (h : r.fs.Alike fs') (file : Path) (kind : ImportKind) (position : Position)
    (specifier : Text) :
    (r.withFiles fs').targets file kind position specifier =
      r.targets file kind position specifier := by
  simp only [targets, withFiles, Lookup.resolve_alike h]

/-- What is rendered is rendered to the same from files that look alike, if what is put in is read
alike. -/
theorem render_alike (h : r.fs.Alike fs')
    (hreads : ∀ p, p.isAmong out.imports = true → fs'.readText p = r.fs.readText p)
    (hrender : r.render file text = .ok out) : (r.withFiles fs').render file text = .ok out := by
  have hagrees : r.Agrees (r.withFiles fs') (r.rebaser file) ((r.withFiles fs').rebaser file)
      fun p => p.isAmong out.imports = true := by
    refine ⟨rfl, fun other line => ?_, hreads, fun _ _ _ _ _ hfound => ?_⟩
    · simp only [rebaser, withFiles]
      cases r.urls with
      | none => rfl
      | some urls => exact UrlRebaser.rebase_alike h file urls r.paths other line
    · rw [targets_alike h]
      exact hfound
  have hbudget : r.budget ≤ (r.withFiles fs').budget := by
    simp only [budget, span, withFiles, h.size, Nat.le_refl]
  exact (hagrees.renderFile hbudget hrender fun _ hp => hp).2

end Renderer

namespace Loader

variable {l : Loader} {fs' : FileSystem} {budget : Nat} {cache : Option Cache} {entry : Path}
  {source : Text}

def withFiles (l : Loader) (fs : FileSystem) : Loader := { l with fs := fs }

/-- The targets of the records of a walk are listed. -/
def ListsTargets (w : Walk) : Prop := ∀ file position specifier d,
  w.index.lookup file position specifier = some d →
    ∀ t ∈ d.target.paths, w.files.contains t = true

theorem contains_of_mem_imports (hplain : l.fs.IsPlain) {walk : Option Walk}
    (hlisted : ∀ w, walk = some w → ListsTargets w)
    {file : Path} {text : Text} {out : Rendered}
    (hrender : (l.renderer (walk.map Walk.index)).render file text = .ok out) {p : Path}
    (hp : p ∈ out.imports) : (l.assemble file walk out).files.contains p = true := by
  rw [assemble, PathSet.contains_foldl_add]
  obtain ⟨file, kind, position, specifier, found, htargets, hmem⟩ :=
    Renderer.exists_targets_of_mem_imports hrender hp
  have hlooked : Lookup.resolve ⟨l.fs, l.options.searchPaths⟩ specifier file = some found →
      p.isAmong (out.imports.map Path.asDependency) = true := fun hfound =>
    Path.isAmong_of_mem (List.mem_map.2
      ⟨p, hp, ((Lookup.mem_resolve hfound hmem).isReported hplain).asDependency_eq⟩)
  cases walk with
  | none => exact .inl (hlooked ((Renderer.targets_of_no_index rfl).1 htargets))
  | some w =>
    rcases w.index.defers_or_record file position specifier with hdefers | ⟨hurl, d, hd, htarget⟩
    · exact .inl (hlooked ((Renderer.targets_of_defers rfl hdefers).1 htargets))
    · rw [Renderer.targets_of_record rfl hurl hd htarget] at htargets
      cases htargets
      exact .inr (hlisted w rfl file position specifier d hd p hmem)

/-- The files that a compilation watches are read alike. -/
def WatchesAlike (fs fs' : FileSystem) (compiled : Compiled) : Prop :=
  ∀ p, compiled.files.contains p = true → fs'.readText p = fs.readText p

/-- What is finished with success is finished to the same from files that look alike. -/
theorem finish_alike (h : l.fs.Alike fs') (hplain : l.fs.IsPlain) {walk : Option Walk}
    (hlisted : ∀ w, walk = some w → ListsTargets w) {file : Path} {code : Text}
    {compiled : Compiled}
    (hfinish : l.finish file walk code = .ok compiled)
    (hwatched : WatchesAlike l.fs fs' compiled) :
    (l.withFiles fs').finish file walk code = .ok compiled := by
  obtain ⟨out, hrender, rfl⟩ := finish_eq_ok.1 hfinish
  have hreads : ∀ p : Path, p.isAmong out.imports = true → fs'.readText p = l.fs.readText p := by
    intro p hp
    obtain ⟨q, hq, hsame⟩ := Path.isAmong_iff.1 hp
    refine hwatched p ?_
    rw [← PathTable.contains_congr hsame]
    exact contains_of_mem_imports hplain hlisted hrender hq
  have hrenderer : (l.withFiles fs').renderer (walk.map Walk.index) =
      (l.renderer (walk.map Walk.index)).withFiles fs' := rfl
  have hroot : (l.withFiles fs').sourceRoot = l.sourceRoot := by
    simp only [sourceRoot, absolute, withFiles, h.cwd]
  rw [finish_eq_ok, hrenderer]
  refine ⟨out, Renderer.render_alike h hreads hrender, ?_⟩
  simp only [assemble, hroot]

/-- What is compiled is compiled to the same from files that look alike, if those that it watches
are read alike. -/
theorem compile_alike (h : l.fs.Alike fs') (hplain : l.fs.IsPlain) {compiled : Compiled}
    (hok : (l.compile budget cache entry source).1 = .ok compiled)
    (hwatched : WatchesAlike l.fs fs' compiled) :
    (l.withFiles fs').compile budget cache entry source = l.compile budget cache entry source := by
  have hentry : (l.withFiles fs').absolute entry = l.absolute entry := by
    simp only [absolute, withFiles, h.cwd]
  have hsetting : (l.withFiles fs').setting = l.setting.withFiles fs' := rfl
  have hprepare : (l.withFiles fs').prepare source = l.prepare source := rfl
  simp only [compile, hentry, hsetting, hprepare] at hok ⊢
  rw [show (l.withFiles fs').options = l.options from rfl]
  cases hpre : l.options.preresolve with
  | false =>
    simp only [hpre, Bool.false_eq_true, if_false] at hok ⊢
    rw [finish_alike h hplain (by rintro _ ⟨⟩) hok hwatched, hok]
  | true =>
    simp only [hpre, if_true] at hok ⊢
    cases hwalk : Walk.fromSource l.setting budget cache (l.absolute entry) (l.prepare source) with
    | none =>
      rw [hwalk] at hok
      cases hok
    | some outcome =>
      obtain ⟨w, cache'⟩ := outcome
      rw [hwalk] at hok
      dsimp only at hok
      have hlists : ∀ p, w.files.contains p = true → fs'.readText p = l.fs.readText p := by
        intro p hp
        obtain ⟨out, _, rfl⟩ := finish_eq_ok.1 hok
        refine hwatched p ?_
        rw [assemble, PathSet.contains_foldl_add]
        exact .inr hp
      have hlisted : ∀ w', some w = some w' → ListsTargets w' := by
        rintro _ ⟨⟩ file position specifier d hd
        exact Walk.listed_of_lookup hwalk hd
      rw [Walk.fromSource_alike h hwalk hlists]
      dsimp only
      rw [finish_alike h hplain hlisted hok hwatched, hok]

/-- Watching the reported files is enough: from memories with the same paths, the same manifests and
the same contents in the files that a compilation reports, the same comes out. -/
theorem compile_of_watched {m m' : Memory} {options : Options} {resolvers : Resolvers}
    (hpaths : m.SamePaths m') (hplain : ∀ key ∈ m.files.keys, key.IsPlain) {compiled : Compiled}
    (hok : ((Loader.mk m.fileSystem options resolvers).compile budget cache entry source).1 =
      .ok compiled)
    (hwatched : ∀ p ∈ compiled.files.toList, m'.fileSystem.read p = m.fileSystem.read p) :
    (Loader.mk m'.fileSystem options resolvers).compile budget cache entry source =
      (Loader.mk m.fileSystem options resolvers).compile budget cache entry source := by
  refine compile_alike hpaths.alike (Memory.isPlain_fileSystem hplain) hok fun p hp => ?_
  obtain ⟨key, hkey, hsame⟩ := PathTable.contains_iff.1 hp
  have hread : m'.fileSystem.read p = m.fileSystem.read p := by
    rw [← (Memory.fileSystem_congr (Path.cleanFrom_congr m'.cwd hsame)).1,
      ← (Memory.fileSystem_congr (Path.cleanFrom_congr m.cwd hsame)).1]
    exact hwatched key hkey
  rw [FileSystem.readText, FileSystem.readText, hread]

/-- A package of two files; its manifest names the main one. -/
def packageFiles (main b : Text) : Memory :=
  [("package.json", "\x7b\x22main\x22:\x22" ++ main ++ "\x22\x7d"), ("a.styl", "a\n"),
    ("b.styl", b)].foldl
    (fun m file => m.add ⟨"/p/node_modules/pkg/" ++ file.1⟩ (Text.utf8 file.2))
    (.empty ⟨"/p".toList⟩)

def packaged (main b : Text) : Loader := ofMemory (packageFiles main b) {} .empty .empty

/-- The path of a file of the package. -/
def packagePath (name : Text) : Path := ⟨"/p/node_modules/pkg/" ++ name⟩

/-- The graph of an entry that imports the package. -/
def packageIndex (main : Text) : Index :=
  ⟨[(⟨"/p/main.styl".toList⟩, [⟨⟨1, 1⟩, "pkg", .single (packagePath main)⟩]),
    (packagePath main, [])]⟩

theorem compile_packaged {main b code : Text}
    (hwalk : ((packaged main b).walk 9 none ⟨"main.styl".toList⟩ "@import 'pkg'").map
      (fun outcome => (outcome.1.index, outcome.1.files)) =
        some (packageIndex main, ⟨[(packagePath main, ())]⟩))
    (hrender : ((packaged main b).renderer (some (packageIndex main))).render
      ((packaged main b).absolute ⟨"main.styl".toList⟩)
      ((packaged main b).prepare "@import 'pkg'") = .ok ⟨[code], [packagePath main]⟩) :
    ∃ compiled, ((packaged main b).compile 9 none ⟨"main.styl".toList⟩ "@import 'pkg'").1 =
      .ok compiled ∧ compiled.code = Rendered.code ⟨[code], []⟩ ∧
      compiled.files = ([packagePath main].map Path.asDependency).foldl PathSet.add
        ⟨[(packagePath main, ())]⟩ := by
  obtain ⟨⟨w, cache⟩, hw, heq⟩ := Option.map_eq_some_iff.1 hwalk
  obtain ⟨hindex, hfiles⟩ := Prod.mk.inj heq
  rw [← hindex] at hrender
  refine ⟨_, compile_of_render rfl hw hrender, rfl, ?_⟩
  rw [assemble, ← hfiles]
  rfl

theorem compile_packaged_a : ∃ compiled,
    ((packaged "a.styl" "b\n").compile 9 none ⟨"main.styl".toList⟩ "@import 'pkg'").1 =
      .ok compiled ∧ compiled.code = Rendered.code ⟨["a"], []⟩ ∧
      compiled.files.toList = [packagePath "a.styl"] := by
  obtain ⟨compiled, hok, hcode, hfiles⟩ := @compile_packaged "a.styl" "b\n" "a"
    (by decide +kernel) (by decide +kernel)
  exact ⟨compiled, hok, hcode, by rw [hfiles]; decide +kernel⟩

/-- Another file of the package may change. -/
theorem compile_of_watched_package : ∃ compiled,
    (packageFiles "a.styl" "b\n").SamePaths (packageFiles "a.styl" "c\n") ∧
    ((packaged "a.styl" "b\n").compile 9 none ⟨"main.styl".toList⟩ "@import 'pkg'").1 =
      .ok compiled ∧
    (packaged "a.styl" "c\n").compile 9 none ⟨"main.styl".toList⟩ "@import 'pkg'" =
      (packaged "a.styl" "b\n").compile 9 none ⟨"main.styl".toList⟩ "@import 'pkg'" := by
  have hpaths : (packageFiles "a.styl" "b\n").SamePaths (packageFiles "a.styl" "c\n") :=
    ⟨by decide +kernel, by decide +kernel, by decide +kernel⟩
  obtain ⟨compiled, hok, _, hfiles⟩ := compile_packaged_a
  refine ⟨compiled, hpaths, hok, compile_of_watched hpaths (by decide +kernel) hok ?_⟩
  rw [hfiles]
  decide +kernel

/-- The manifest of the package changes, which is not watched, and so does the output. -/
theorem not_compile_of_watched : ∃ compiled other,
    (packageFiles "b.styl" "b\n").cwd = (packageFiles "a.styl" "b\n").cwd ∧
    (packageFiles "b.styl" "b\n").files.keys = (packageFiles "a.styl" "b\n").files.keys ∧
    ((packaged "a.styl" "b\n").compile 9 none ⟨"main.styl".toList⟩ "@import 'pkg'").1 =
      .ok compiled ∧
    (∀ p ∈ compiled.files.toList, (packageFiles "b.styl" "b\n").fileSystem.read p =
      (packageFiles "a.styl" "b\n").fileSystem.read p) ∧
    ((packaged "b.styl" "b\n").compile 9 none ⟨"main.styl".toList⟩ "@import 'pkg'").1 =
      .ok other ∧
    compiled.code ≠ other.code := by
  obtain ⟨compiled, hok, hcode, hfiles⟩ := compile_packaged_a
  obtain ⟨other, hother, hotherCode, _⟩ := @compile_packaged "b.styl" "b\n" "b"
    (by decide +kernel) (by decide +kernel)
  refine ⟨compiled, other, by decide +kernel, by decide +kernel, hok, ?_, hother, ?_⟩
  · rw [hfiles]
    decide +kernel
  · rw [hcode, hotherCode]
    decide

end Loader

end StyleImports
