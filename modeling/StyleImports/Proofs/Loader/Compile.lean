import StyleImports.Files.Memory
import StyleImports.Loader.Basic
import StyleImports.Proofs.Render.Calls
import StyleImports.Proofs.Walk.Sequential

/-!
# What a compilation is made of

A compilation that resolves imports ahead is a walk and then a render with the graph of the walk
(`compile_of_walk`); any other is a render without a graph (`compile_of_bypass`). `Loader.Renders`
relates a compilation with a walk to the calls of its render, which tell why it fails
(`exists_stops_of_compile`) and which files it puts in (`exists_executes_of_mem_imports`).
-/

set_option autoImplicit false

namespace StyleImports

theorem Walk.fromSource_mono {s : Setting} {budget more : Nat} {cache : Option Cache}
    {entry : Path} {source : Text} {outcome : Walk × Option Cache} (hle : budget ≤ more)
    (h : fromSource s budget cache entry source = some outcome) :
    fromSource s more cache entry source = some outcome := by
  obtain ⟨st, hst, rfl⟩ := Option.map_eq_some_iff.1 h
  rw [fromSource, visit_mono hle hst]
  rfl

namespace Loader

variable {l : Loader} {budget : Nat} {cache cache' : Option Cache} {entry : Path} {source : Text}
  {w : Walk}

/-- The loader with imports resolved ahead or not. -/
def withPreresolve (l : Loader) (preresolve : Bool) : Loader :=
  { l with options := { l.options with preresolve := preresolve } }

theorem compile_of_bypass (h : l.options.preresolve = false) (budget : Nat)
    (cache : Option Cache) (entry : Path) (source : Text) :
    (l.compile budget cache entry source).1 =
      l.finish (l.absolute entry) none (l.prepare source) := by
  rw [compile, h]
  rfl

theorem compile_of_walk (h : l.options.preresolve = true)
    (hwalk : l.walk budget cache entry source = some (w, cache')) :
    (l.compile budget cache entry source).1 =
      l.finish (l.absolute entry) (some w) (l.prepare source) := by
  rw [walk] at hwalk
  simp only [compile, h, if_true, hwalk]

theorem exists_walk_of_compile (h : l.options.preresolve = true)
    (hdeep : (l.compile budget cache entry source).1 ≠ .error .tooDeep) :
    ∃ w cache', l.walk budget cache entry source = some (w, cache') := by
  simp only [compile, h, if_true] at hdeep
  rw [walk]
  cases hwalk : Walk.fromSource l.setting budget cache (l.absolute entry) (l.prepare source) with
  | none =>
    rw [hwalk] at hdeep
    exact absurd rfl hdeep
  | some outcome => exact ⟨outcome.1, outcome.2, rfl⟩

theorem finish_eq_ok {walk : Option Walk} {code : Text} {compiled : Compiled} :
    l.finish entry walk code = .ok compiled ↔
      ∃ out, (l.renderer (walk.map Walk.index)).render entry code = .ok out ∧
        compiled = l.assemble entry walk out := by
  rw [finish]
  split
  case h_1 herror => simp [herror]
  case h_2 herror => simp [herror]
  case h_3 out hrender => simp [hrender, eq_comm]

theorem finish_eq_failed {walk : Option Walk} {code : Text} {e : LoadError} :
    l.finish entry walk code = .error (.failed e) ↔
      ∃ fault, (l.renderer (walk.map Walk.index)).render entry code = .error (.failed fault) ∧
        e = .render fault := by
  rw [finish]
  split
  case h_1 fault herror => simp [herror, eq_comm]
  case h_2 herror => simp [herror]
  case h_3 out hrender => simp [hrender]

/-! ## Calls of a compilation -/

/-- What the entry is rendered with after a walk. -/
abbrev rendererAfter (l : Loader) (w : Walk) : Renderer := l.renderer (some w.index)

/-- What rebases the URLs below an entry after a walk. -/
abbrev rebaserAfter (l : Loader) (entry : Path) (w : Walk) : Option UrlRebaser :=
  (l.rendererAfter w).rebaser (l.absolute entry)

/-- A compilation that walks first comes to a call of its render. -/
structure Renders (l : Loader) (budget : Nat) (cache : Option Cache) (entry : Path) (source : Text)
    (w : Walk) (c : Renderer.Call) : Prop where
  preresolve : l.options.preresolve = true
  walked : ∃ cache', l.walk budget cache entry source = some (w, cache')
  reached : ((l.rendererAfter w).start (l.absolute entry) (l.prepare source)).Reaches
    (l.rendererAfter w) (l.rebaserAfter entry w) c

/-- A call of the render after a walk executes an import. -/
def Executes (l : Loader) (entry : Path) (w : Walk) (c : Renderer.Call) (i : Sheet.Import) : Prop :=
  ∃ indent out, c.Executes (l.rendererAfter w) (l.rebaserAfter entry w) i indent out

/-- A compilation whose entry opens with an import of a file that opens with another one executes
both. -/
theorem exists_executes_of_opens {index : Index} (i : Sheet.Import) {j : Sheet.Import}
    {target : Path} (rest : List Path) (text : Text) (h : l.options.preresolve = true)
    (hindex : (l.walk budget cache entry source).map (fun outcome => outcome.1.index) = some index)
    (hopens : Renderer.Call.Opens (l.renderer (some index)) (l.prepare source) i)
    (htargets : (l.renderer (some index)).targets (l.absolute entry) i.kind i.position
      i.specifier = .ok (target :: rest))
    (hother : (l.absolute entry).same target = false) (hread : l.fs.readText target = .ok text)
    (hbelow : Renderer.Call.Opens (l.renderer (some index)) text j) :
    ∃ w c, w.index = index ∧ c.file = target ∧ l.Renders budget cache entry source w c ∧
      l.Executes entry w c j := by
  obtain ⟨⟨w, cache'⟩, hwalk, rfl⟩ := Option.map_eq_some_iff.1 hindex
  have hloop : target.isAmong [l.absolute entry] = false := by simp [Path.isAmong, hother]
  have hreaches : ((l.rendererAfter w).start (l.absolute entry) (l.prepare source)).Reaches
      (l.rendererAfter w) (l.rebaserAfter entry w) _ :=
    .single (Renderer.Call.calls_of_opens hopens htargets hloop rfl hread rfl)
  exact ⟨w, _, rfl, rfl, ⟨h, ⟨cache', hwalk⟩, hreaches⟩, 0, _,
    Renderer.Call.executes_of_opens hbelow⟩

theorem compile_of_render (h : l.options.preresolve = true)
    (hwalk : l.walk budget cache entry source = some (w, cache')) {out : Rendered}
    (hrender : (l.rendererAfter w).render (l.absolute entry) (l.prepare source) = .ok out) :
    (l.compile budget cache entry source).1 =
      .ok (l.assemble (l.absolute entry) (some w) out) := by
  rw [compile_of_walk h hwalk, finish_eq_ok]
  exact ⟨out, hrender, rfl⟩

theorem exists_render_of_compile (h : l.options.preresolve = true) {compiled : Compiled}
    (hok : (l.compile budget cache entry source).1 = .ok compiled) :
    ∃ w out, (∃ cache', l.walk budget cache entry source = some (w, cache')) ∧
      (l.rendererAfter w).render (l.absolute entry) (l.prepare source) = .ok out ∧
      compiled = l.assemble (l.absolute entry) (some w) out := by
  have hdeep : (l.compile budget cache entry source).1 ≠ .error .tooDeep := by simp [hok]
  obtain ⟨w, cache', hwalk⟩ := exists_walk_of_compile h hdeep
  rw [compile_of_walk h hwalk, finish_eq_ok] at hok
  obtain ⟨out, hrender, hcompiled⟩ := hok
  exact ⟨w, out, ⟨cache', hwalk⟩, hrender, hcompiled⟩

/-- A compilation that fails while it renders comes to a call that stops with the error. -/
theorem exists_stops_of_compile (h : l.options.preresolve = true) {e : RenderError}
    (herror : (l.compile budget cache entry source).1 = .error (.failed (.render e))) :
    ∃ w c, l.Renders budget cache entry source w c ∧
      c.Stops (l.rendererAfter w) (l.rebaserAfter entry w) e := by
  have hdeep : (l.compile budget cache entry source).1 ≠ .error .tooDeep := by simp [herror]
  obtain ⟨w, cache', hwalk⟩ := exists_walk_of_compile h hdeep
  rw [compile_of_walk h hwalk, finish_eq_failed] at herror
  obtain ⟨fault, hrender, heq⟩ := herror
  cases heq
  rw [Renderer.Call.render_eq] at hrender
  obtain ⟨c, hreaches, hstops⟩ := Renderer.Call.exists_stops_of_run hrender
  exact ⟨w, c, ⟨h, ⟨cache', hwalk⟩, hreaches⟩, hstops⟩

/-- A file that a compilation puts in is a target of an import that it executes. -/
theorem exists_executes_of_mem_imports (h : l.options.preresolve = true)
    (hwalk : l.walk budget cache entry source = some (w, cache')) {out : Rendered}
    (hrender : (l.rendererAfter w).render (l.absolute entry) (l.prepare source) = .ok out)
    {p : Path} (hp : p ∈ out.imports) :
    ∃ c i targets, l.Renders budget cache entry source w c ∧ l.Executes entry w c i ∧
      c.targets (l.rendererAfter w) i = .ok targets ∧ p ∈ targets := by
  rw [Renderer.Call.render_eq] at hrender
  rcases Renderer.Call.mem_imports_of_run hrender p hp with hstart | hputs
  · cases hstart
  · obtain ⟨c, i, indent, out, targets, hreaches, hexecutes, htargets, hmem⟩ := hputs
    exact ⟨c, i, targets, ⟨h, ⟨cache', hwalk⟩, hreaches⟩, ⟨indent, out, hexecutes⟩, htargets, hmem⟩

/-! ## A compilation -/

/-- A loader over files in memory, with tables to answer requests. -/
def ofMemory (m : Memory) (options : Options) (file context : RequestTable) : Loader :=
  ⟨m.fileSystem, options, ⟨file.resolver, context.resolver⟩⟩

/-- Files of a theme: `a.styl` leads on to `b.styl`, and `d` is a directory with an index file. -/
def themeFiles : Memory :=
  [("a.styl", "@import 'b'"), ("b.styl", "b"), ("d/index.styl", "@require '../b'")].foldl
    (fun m file => m.add ⟨file.1.toList⟩ (Text.utf8 file.2.toList)) (.empty ⟨"/p".toList⟩)

def theme : Loader := ofMemory themeFiles {} .empty .empty

/-- A source whose import leads to `a.styl` and on to `b.styl`, and the graph of its walk. -/
def chainSource : Text := "@import 'a'"

def chainIndex : Index :=
  ⟨[(⟨"/p/a.styl".toList⟩, [⟨⟨1, 1⟩, "b", .single ⟨"/p/b.styl".toList⟩⟩]),
    (⟨"/p/b.styl".toList⟩, []),
    (⟨"/p/main.styl".toList⟩, [⟨⟨1, 1⟩, "a", .single ⟨"/p/a.styl".toList⟩⟩])]⟩

theorem executes_chain : ∃ w c, w.index = chainIndex ∧ c.file = ⟨"/p/a.styl".toList⟩ ∧
    theme.Renders 9 none ⟨"main.styl".toList⟩ chainSource w c ∧
    theme.Executes ⟨"main.styl".toList⟩ w c ⟨"b", ⟨1, 1⟩, .always⟩ :=
  exists_executes_of_opens ⟨"a", ⟨1, 1⟩, .always⟩ [] "@import 'b'" rfl (by decide +kernel)
    (by decide +kernel) (by decide +kernel) (by decide +kernel) (by decide +kernel)
    (by decide +kernel)

end Loader

end StyleImports
