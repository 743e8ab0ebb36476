import StyleImports.Proofs.Loader.Consulted
import StyleImports.Proofs.Loader.Substitution

/-!
# Files that are put in

Every file that a compilation puts in belongs to its graph, unless it was looked up for an import
that the graph leaves to the lookup (`indexed_of_inlined`). So all of them belong to it if the
records settle their imports, requests from the root among them; the walk then covers the whole
render, call by call (`contains_of_renders`).

What is left out are requests for packages and patterns that were not resolved, patterns that are
URL requests, and URL requests with an outdated record: files are put in for them that were not
walked (`strays_of_inlined`).
-/

set_option autoImplicit false

namespace StyleImports.Loader

open Renderer (Call)

variable {l : Loader} {budget : Nat} {cache : Option Cache} {entry : Path} {source : Text}
  {w : Walk} {c : Call} {i : Sheet.Import}

/-- The imports that a compilation executes and that have a record are settled by it. -/
def IsSettled (l : Loader) (budget : Nat) (cache : Option Cache) (entry : Path) (source : Text)
    (w : Walk) : Prop :=
  ∀ c i d, l.Renders budget cache entry source w c → l.Executes entry w c i →
    w.index.lookup c.file i.position i.specifier = some d → l.Settles cache c i d

/-- A target of an import belongs to the graph, or a lookup found it for an import that the graph
leaves to it. -/
theorem contains_or_defers (hrenders : l.Renders budget cache entry source w c)
    {targets : List Path} (htargets : c.targets (l.rendererAfter w) i = .ok targets) {p : Path}
    (hp : p ∈ targets) :
    w.index.contains p = true ∨ w.index.Defers c.file i.position i.specifier ∧
      Lookup.resolve ⟨l.fs, l.options.searchPaths⟩ i.specifier c.file = some targets := by
  obtain ⟨cache', hwalk⟩ := hrenders.walked
  rcases w.index.defers_or_record c.file i.position i.specifier with
    hdefers | ⟨hurl, d, hd, htarget⟩
  · exact .inr ⟨hdefers, (Renderer.targets_of_defers rfl hdefers).1 htargets⟩
  · have hrecord : c.targets (l.rendererAfter w) i = .ok d.target.paths :=
      Renderer.targets_of_record rfl hurl hd htarget
    rw [hrecord] at htargets
    cases htargets
    exact .inl (Walk.contains_of_lookup hwalk hd p hp)

section
variable (hsteady : l.IsSteady entry) (halike : l.ReadsAlike w.index)
  (hcache : ∀ k, cache = some k → k.IsFaithful l.setting (l.prepare source))
  (hsettled : l.IsSettled budget cache entry source w)
include hsteady halike hcache hsettled

/-- The targets of an import of a file of the graph belong to the graph. -/
theorem contains_of_targets (hrenders : l.Renders budget cache entry source w c)
    (hexecutes : l.Executes entry w c i) (hfile : w.index.contains c.file = true)
    {targets : List Path} (htargets : c.targets (l.rendererAfter w) i = .ok targets) :
    ∀ p ∈ targets, w.index.contains p = true := by
  rw [PathTable.contains_eq_isSome_get?] at hfile
  obtain ⟨dependencies, hget⟩ := Option.isSome_iff_exists.1 hfile
  obtain ⟨_, _, _, _, d, _, _, hd⟩ :=
    lookup_of_executed hsteady halike hcache hrenders hexecutes hget
  obtain ⟨cache', hwalk⟩ := hrenders.walked
  rw [paths_of_targets hrenders hd (hsettled c i d hrenders hexecutes hd) htargets]
  exact Walk.contains_of_lookup hwalk hd

/-- Every file that is rendered belongs to the graph. -/
theorem contains_of_renders (hrenders : l.Renders budget cache entry source w c) :
    w.index.contains c.file = true := by
  obtain ⟨hpre, hwalked, hreached⟩ := hrenders
  -- From the entry down, every call is made for a target of an import of a file of the graph.
  induction hreached with
  | refl =>
    obtain ⟨cache', hwalk⟩ := hwalked
    have hentry := Walk.contains_entry hwalk
    exact (PathTable.contains_congr hsteady).symm.trans hentry
  | tail hreached hcalls ih =>
    cases hcalls with
    | below hcomes _ _ _ _ =>
      obtain ⟨out₀, before, after, hexecutes, htargets, _⟩ := hcomes
      exact contains_of_targets hsteady halike hcache hsettled ⟨hpre, hwalked, hreached⟩
        ⟨_, _, hexecutes⟩ ih htargets _ (by simp)

end

/-- A file that a compilation puts in belongs to its graph, or a lookup found it for an import that
has no record or a failed one, or is a URL request. All such files belong to the graph if the entry
goes by one path, the files are read alike, and the records settle their imports. -/
theorem indexed_of_inlined (h : l.options.preresolve = true) {compiled : Compiled}
    (hok : (l.compile budget cache entry source).1 = .ok compiled) :
    ∃ w out, (∃ cache', l.walk budget cache entry source = some (w, cache')) ∧
      (l.rendererAfter w).render (l.absolute entry) (l.prepare source) = .ok out ∧
      compiled = l.assemble (l.absolute entry) (some w) out ∧
      (∀ p ∈ out.imports, compiled.index.contains p = true ∨
        ∃ c i found, l.Renders budget cache entry source w c ∧ l.Executes entry w c i ∧
          w.index.Defers c.file i.position i.specifier ∧
          Lookup.resolve ⟨l.fs, l.options.searchPaths⟩ i.specifier c.file = some found ∧
          p ∈ found) ∧
      (l.IsSteady entry → l.ReadsAlike w.index →
        (∀ k, cache = some k → k.IsFaithful l.setting (l.prepare source)) →
        l.IsSettled budget cache entry source w →
        ∀ p ∈ out.imports, compiled.index.contains p = true) := by
  obtain ⟨w, out, ⟨cache', hwalk⟩, hrender, rfl⟩ := exists_render_of_compile h hok
  refine ⟨w, out, ⟨cache', hwalk⟩, hrender, rfl, fun p hp => ?_, ?_⟩
  · obtain ⟨c, i, found, hrenders, hexecutes, htargets, hmem⟩ :=
      exists_executes_of_mem_imports h hwalk hrender hp
    exact (contains_or_defers hrenders htargets hmem).imp_right fun ⟨hdefers, hfound⟩ =>
      ⟨c, i, found, hrenders, hexecutes, hdefers, hfound, hmem⟩
  · intro hsteady halike hcache hsettled p hp
    obtain ⟨c, i, targets, hrenders, hexecutes, htargets, hmem⟩ :=
      exists_executes_of_mem_imports h hwalk hrender hp
    have hfile := contains_of_renders hsteady halike hcache hsettled hrenders
    exact contains_of_targets hsteady halike hcache hsettled hrenders hexecutes hfile htargets p
      hmem

/-- Files that a request from the root, one for a package and a pattern lead to. -/
def mixedFiles : Memory :=
  [("a.styl", "@import 'b'"), ("b.styl", "b"), ("d/c.styl", "c"), ("/lib/pkg.styl", "k")].foldl
    (fun m file => m.add ⟨file.1.toList⟩ (Text.utf8 file.2.toList)) (.empty ⟨"/p".toList⟩)

def mixed : Loader :=
  ofMemory mixedFiles {} ⟨[("pkg", [⟨"/lib/pkg.styl".toList⟩])]⟩ .empty

def mixedSource : Text := "@import '/p/a'\n@import '~pkg'\n@import 'd/*'"

def mixedIndex : Index :=
  ⟨[(⟨"/lib/pkg.styl".toList⟩, []),
    (⟨"/p/a.styl".toList⟩, [⟨⟨1, 1⟩, "b", .single ⟨"/p/b.styl".toList⟩⟩]),
    (⟨"/p/b.styl".toList⟩, []),
    (⟨"/p/d/c.styl".toList⟩, []),
    (⟨"/p/main.styl".toList⟩, [⟨⟨1, 1⟩, "/p/a", .single ⟨"/p/a.styl".toList⟩⟩,
      ⟨⟨2, 1⟩, "~pkg", .single ⟨"/lib/pkg.styl".toList⟩⟩,
      ⟨⟨3, 1⟩, "d/*", .single ⟨"/p/d/c.styl".toList⟩⟩])]⟩

/-- The request from the root is looked up once more by the render, the others go by their
records, and all their files belong to the graph. -/
theorem indexed_of_inlined_mixed : ∃ w out compiled,
    (mixed.compile 9 none ⟨"main.styl".toList⟩ mixedSource).1 = .ok compiled ∧
      (mixed.rendererAfter w).render (mixed.absolute ⟨"main.styl".toList⟩)
        (mixed.prepare mixedSource) = .ok out ∧
      out.imports = [⟨"/p/a.styl".toList⟩, ⟨"/p/b.styl".toList⟩, ⟨"/lib/pkg.styl".toList⟩,
        ⟨"/p/d/c.styl".toList⟩] ∧
      ∀ p ∈ out.imports, compiled.index.contains p = true := by
  obtain ⟨⟨w, cache⟩, hwalk, hindex⟩ := Option.map_eq_some_iff.1
    (by decide +kernel : (mixed.walk 9 none ⟨"main.styl".toList⟩ mixedSource).map
      (fun outcome => outcome.1.index) = some mixedIndex)
  have hrender : (mixed.rendererAfter w).render (mixed.absolute ⟨"main.styl".toList⟩)
      (mixed.prepare mixedSource) =
        .ok ⟨["b".toList, "k".toList, "c".toList], [⟨"/p/a.styl".toList⟩, ⟨"/p/b.styl".toList⟩,
          ⟨"/lib/pkg.styl".toList⟩, ⟨"/p/d/c.styl".toList⟩]⟩ := by
    rw [rendererAfter, hindex]
    decide +kernel
  have hleads : ∀ e ∈ mixedIndex.entries, ∀ d ∈ e.2,
      Specifier.isUrl d.specifier = false ∧ d.target.isFailed = false ∨
        Specifier.isModule d.specifier = false ∧ Glob.isDynamic d.specifier = false := by
    decide +kernel
  -- The request from the root is settled by the lookup, the others by their records.
  have hsettled : mixed.IsSettled 9 none ⟨"main.styl".toList⟩ mixedSource w := by
    intro c i d _ _ hd
    rw [hindex] at hd
    obtain ⟨key, dependencies, hentry, _, hmem, _, hspecifier⟩ := Index.mem_of_lookup hd
    have hplain : mixed.fs.IsPlain := Memory.isPlain_fileSystem (by decide +kernel)
    rcases hspecifier ▸ hleads _ hentry d hmem with ⟨hurl, htarget⟩ | ⟨hmodule, hstatic⟩
    · exact .recorded hurl htarget
    · exact .repeated hmodule (Setting.isPattern_of_static hstatic) (.inl rfl) hplain
  have hok := compile_of_render rfl hwalk hrender
  obtain ⟨w', out', ⟨cache', hwalk'⟩, hrender', _, _, hindexed⟩ := indexed_of_inlined rfl hok
  rw [hwalk] at hwalk'
  cases hwalk'
  rw [hrender] at hrender'
  cases hrender'
  exact ⟨w, _, _, hok, hrender, rfl, hindexed
    (isSteady_of_isPlain (by decide +kernel) (by decide +kernel) _)
    (readsAlike_ofMemory mixedFiles _ _ _ w.index) nofun hsettled⟩

/-- A compilation with imports resolved ahead succeeds and puts in a file that its graph does not
have. -/
def PutsInStray (l : Loader) (cache : Option Cache) (entry : Path) (source : Text) (p : Path) :
    Prop :=
  l.options.preresolve = true ∧ ∃ w cache' compiled out,
    l.walk 9 cache entry source = some (w, cache') ∧
      (l.rendererAfter w).render (l.absolute entry) (l.prepare source) = .ok out ∧
      (l.compile 9 cache entry source).1 = .ok compiled ∧
      p ∈ out.imports ∧ compiled.index.contains p = false

theorem putsInStray_of_walk {p : Path} (h : l.options.preresolve = true)
    (hstray : (l.walk 9 cache entry source).map (fun outcome =>
      ((l.rendererAfter outcome.1).render (l.absolute entry) (l.prepare source)).toOption.any
          (·.imports.contains p) && !outcome.1.index.contains p) = some true) :
    l.PutsInStray cache entry source p := by
  obtain ⟨⟨w, cache'⟩, hwalk, hstray⟩ := Option.map_eq_some_iff.1 hstray
  rw [Bool.and_eq_true, Bool.not_eq_true'] at hstray
  cases hrender : (l.rendererAfter w).render (l.absolute entry) (l.prepare source) with
  | error e => simp [hrender, Except.toOption] at hstray
  | ok out =>
    have hp : p ∈ out.imports := by simpa [hrender, Except.toOption] using hstray.1
    exact ⟨h, w, cache', _, out, hwalk, hrender, compile_of_render h hwalk hrender, hp, hstray.2⟩

/-- A file named like a request for a package. -/
def kit : Loader :=
  ofMemory ((Memory.empty ⟨"/".toList⟩).add ⟨"/p/~kit.styl".toList⟩ (Text.utf8 "a")) {} .empty .empty

/-- Two directories, and a context resolver that answers with the one for the other. -/
def fork : Loader :=
  ofMemory (((Memory.empty ⟨"/".toList⟩).add ⟨"/p/a.styl".toList⟩ (Text.utf8 "a")).add
    ⟨"/q/b.styl".toList⟩ (Text.utf8 "b")) {} .empty ⟨[("/p", [⟨"/q".toList⟩])]⟩

/-- An index file. -/
def shelfFiles : Memory :=
  (Memory.empty ⟨"/".toList⟩).add ⟨"/p/a/index.styl".toList⟩ (Text.utf8 "a")

/-- What a walk leaves in a cache, and the files afterwards: one that goes before the index file was
created. -/
def shelfCache : Option Cache :=
  ((ofMemory shelfFiles {} .empty .empty).walk 9 (some .empty) ⟨"/p/main.styl".toList⟩
    "@import '/p/a'").bind Prod.snd

def shelf : Loader :=
  ofMemory (shelfFiles.add ⟨"/p/a.styl".toList⟩ (Text.utf8 "b")) {} .empty .empty

/-- Files are put in that the walk leaves aside: for a request for a package and a pattern that it
has not resolved, for a pattern in a URL request that it has resolved elsewhere, and for a URL
request whose record is outdated. -/
theorem strays_of_inlined :
    kit.PutsInStray none ⟨"/p/main.styl".toList⟩ "@import '~kit'" ⟨"/p/~kit.styl".toList⟩ ∧
      fork.PutsInStray none ⟨"/p/main.styl".toList⟩ "@import '*'" ⟨"/p/a.styl".toList⟩ ∧
      fork.PutsInStray none ⟨"/p/main.styl".toList⟩ "@import '/p/*'" ⟨"/p/a.styl".toList⟩ ∧
      shelf.PutsInStray shelfCache ⟨"/p/main.styl".toList⟩ "@import '/p/a'"
        ⟨"/p/a.styl".toList⟩ := by
  refine ⟨?package, ?pattern, ?elsewhere, ?outdated⟩
  case package => exact putsInStray_of_walk rfl (by decide +kernel)
  case pattern => exact putsInStray_of_walk rfl (by decide +kernel)
  case elsewhere => exact putsInStray_of_walk rfl (by decide +kernel)
  case outdated => exact putsInStray_of_walk rfl (by decide +kernel)

end StyleImports.Loader
