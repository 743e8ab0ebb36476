import StyleImports.Proofs.Graph.Plain
import StyleImports.Proofs.Graph.Static
import StyleImports.Proofs.Loader.Compile
import StyleImports.Proofs.Render.Agreement
import StyleImports.Proofs.Render.Targets
import StyleImports.Proofs.Walk.Discovery

/-!
# Resolving imports ahead or not

If a walk discovers neither requests for packages nor dynamic imports, it records for each import
what a lookup finds (`Walk.paths_of_found`). A render that goes by the records then finds whatever a
render without them finds, and comes to the same (`Loader.compile_of_bypassed`).
-/

set_option autoImplicit false

namespace StyleImports

/-- A simple import is neither a request for a package nor dynamic. -/
def Sheet.Import.IsSimple (i : Sheet.Import) : Prop :=
  Specifier.isModule i.specifier = false ∧ Glob.isDynamic i.specifier = false

instance (i : Sheet.Import) : Decidable i.IsSimple :=
  inferInstanceAs (Decidable (Specifier.isModule i.specifier = false ∧ _))

/-- A record holds what a lookup finds, if its import is neither a request for a package nor a
pattern. -/
theorem Walk.paths_of_found {s : Setting} {budget : Nat} {entry : Path} {source : Text} {w : Walk}
    {cache : Option Cache} (hwalk : fromSource s budget none entry source = some (w, cache))
    {file : Path} {position : Position} {specifier : Text} {d : Dependency}
    (hmodule : Specifier.isModule specifier = false) (hpattern : s.isPattern file specifier = false)
    (hd : w.index.lookup file position specifier = some d) {found : List Path}
    (hfound : Lookup.resolve ⟨s.fs, s.options.paths⟩ specifier file = some found) :
    d.target.paths = found.map Path.asDependency := by
  obtain ⟨key, i, hsame, _, rfl, rfl, rfl⟩ := exists_discovered_of_lookup hwalk hd
  exact Setting.paths_of_same_lookup hsame hpattern hmodule hfound

namespace Loader

variable {l : Loader} {budget : Nat} {cache : Option Cache} {entry : Path} {source : Text}

/-- The walk of a compilation discovers an import. -/
def Discovers (l : Loader) (entry : Path) (source : Text) (i : Sheet.Import) : Prop :=
  Walk.Discovers l.setting (l.absolute entry) (l.prepare source) i

/-- A render with the records of a walk finds what one without them finds. -/
theorem extends_of_walk (hplain : l.fs.IsPlain) {w : Walk} {cache' : Option Cache}
    (hwalk : l.walk budget none entry source = some (w, cache'))
    (hstatic : ∀ i, l.Discovers entry source i → i.IsSimple) :
    (l.renderer none).Extends (l.renderer (some w.index)) where
  fs := rfl
  includeCss := rfl
  targets file kind position specifier found h := by
    rw [Renderer.targets_of_no_index rfl] at h
    rcases w.index.defers_or_record file position specifier with
      hdefers | ⟨hurl, d, hd, htarget⟩
    · exact (Renderer.targets_of_defers rfl hdefers).2 h
    · obtain ⟨_, i, _, hi, _, _, rfl⟩ := Walk.exists_discovered_of_lookup hwalk hd
      have hpattern : l.setting.isPattern file i.specifier = false :=
        Setting.isPattern_of_static (hstatic i hi).2
      have hpaths := Walk.paths_of_found hwalk (hstatic i hi).1 hpattern hd h
      rw [Lookup.map_asDependency hplain h] at hpaths
      rw [Renderer.targets_of_record rfl hurl hd htarget, hpaths]

theorem budget_renderer_le (l : Loader) (index : Index) :
    (l.renderer none).budget ≤ (l.renderer (some index)).budget := by
  simp only [Renderer.budget, Renderer.span, renderer]
  omega

/-- What is compiled without resolving imports ahead is compiled to the same text, from the same
files, with imports resolved ahead, if the walk discovers neither requests for packages nor dynamic
imports. -/
theorem compile_of_bypassed {m : Memory} {options : Options} {file context : RequestTable}
    (hplaced : m.IsPlaced) (hcwd : m.cwd.isAbsolute = true)
    (hplain : ∀ key ∈ m.files.keys, key.IsPlain)
    (hstatic : ∀ i, ((ofMemory m options file context).withPreresolve true).Discovers entry source
      i → i.IsSimple)
    {bypassed : Compiled}
    (h : (((ofMemory m options file context).withPreresolve false).compile budget cache entry
      source).1 = .ok bypassed) :
    ∃ least compiled, compiled.code = bypassed.code ∧ compiled.sources = bypassed.sources ∧
      ∀ enough, least ≤ enough →
        (((ofMemory m options file context).withPreresolve true).compile enough none entry
          source).1 = .ok compiled := by
  rw [compile_of_bypass rfl, finish_eq_ok] at h
  obtain ⟨out, hrender, rfl⟩ := h
  -- The walk ends, and so does every walk with a larger budget, with the same graph.
  have hends := Walk.terminates_of_static hplaced hcwd file context _ fun i hi => (hstatic i hi).2
  obtain ⟨least, w, left, hwalk⟩ := hends.returns
  have hextends := extends_of_walk (Memory.isPlain_fileSystem hplain) hwalk hstatic
  have hagree := Renderer.render_of_extends hextends rfl rfl (budget_renderer_le _ w.index) hrender
  refine ⟨least, assemble _ _ (some w) out, rfl, rfl, fun enough hle => ?_⟩
  rw [compile_of_walk rfl (Walk.fromSource_mono hle hwalk), finish_eq_ok]
  exact ⟨out, hagree, rfl⟩

def themeSource : Text := "n = 'a'\n@import n\n.x\n  @require 'b'\n@import 'd'\n@import 'e.css'"

def themePaths : List Path :=
  ["/p/main.styl", "/p/a.styl", "/p/b.styl", "/p/d/index.styl"].map fun t => ⟨t.toList⟩

theorem compile_of_bypassed_theme : ∃ least compiled bypassed,
    ((theme.withPreresolve false).compile 0 none ⟨"main.styl".toList⟩ themeSource).1 =
        .ok bypassed ∧
      compiled.code = bypassed.code ∧ compiled.sources = bypassed.sources ∧
      ∀ enough, least ≤ enough →
        ((theme.withPreresolve true).compile enough none ⟨"main.styl".toList⟩ themeSource).1 =
          .ok compiled := by
  have hplaced : themeFiles.IsPlaced :=
    (((Memory.isPlaced_empty _).add _ _).add _ _).add _ _
  have hentry : (theme.withPreresolve true).setting.fs.cwd.absoluteFrom
      ((theme.withPreresolve true).absolute ⟨"main.styl".toList⟩) = ⟨"/p/main.styl".toList⟩ := by
    decide +kernel
  have hclosed : ∀ f ∈ themePaths,
      (∀ t ∈ ((theme.withPreresolve true).setting.readingOf ⟨"/p/main.styl".toList⟩
        ((theme.withPreresolve true).prepare themeSource) f).targets, t ∈ themePaths) ∧
      ∀ i ∈ Setting.importsIn ((theme.withPreresolve true).setting.contentOf
        ⟨"/p/main.styl".toList⟩ ((theme.withPreresolve true).prepare themeSource) f),
        i.IsSimple := by
    decide +kernel
  have hstatic : ∀ i, (theme.withPreresolve true).Discovers ⟨"main.styl".toList⟩ themeSource i →
      i.IsSimple := by
    rintro i ⟨c, hc, f, hf, hi⟩
    have hfound := (Walk.Inv.of_reachable hc).grown.found f hf
    rw [hentry] at hfound hi
    have htheme := hfound.mem_of_closed List.mem_cons_self fun f hf => (hclosed f hf).1
    exact (hclosed f htheme).2 i hi
  have hok : ((theme.withPreresolve false).compile 0 none ⟨"main.styl".toList⟩
      themeSource).1.isOk = true := by
    decide +kernel
  obtain ⟨bypassed, hbypassed⟩ : ∃ bypassed, ((theme.withPreresolve false).compile 0 none
      ⟨"main.styl".toList⟩ themeSource).1 = .ok bypassed := by
    cases hcompile : ((theme.withPreresolve false).compile 0 none ⟨"main.styl".toList⟩
        themeSource).1 with
    | error e =>
      rw [hcompile] at hok
      cases hok
    | ok bypassed => exact ⟨bypassed, rfl⟩
  obtain ⟨least, compiled, hcompiled⟩ := compile_of_bypassed hplaced (by decide +kernel)
    (by decide +kernel) hstatic hbypassed
  exact ⟨least, compiled, bypassed, hbypassed, hcompiled⟩

end Loader

end StyleImports
