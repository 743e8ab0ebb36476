import StyleImports.Proofs.Loader.Inlined
import StyleImports.Proofs.Render.Finish
import StyleImports.Proofs.Sheet.Visitor
import StyleImports.Proofs.Walk.Reached

/-!
# Import loops and reported cycles

If every import of a graph leads to files and no URL is asked for, the render follows the edges of
the graph. An import that leads back to a file on the way to it then closes a cycle of the graph
(`reaches_of_renders`), and a render that succeeds finishes every file after all that it leads to,
which leaves no cycle (`not_cycle_of_render`). So a render fails with a loop only where the
walk has reported a cycle, and it succeeds only where the walk has reported none
(`cycles_reported`).

The entry has to go by one path in the walk and the render (`IsSteady`). From a working directory
whose name holds a backslash it does not, and the walk can report a cycle through a stored file that
it takes for the entry (`not_cycles_reported_of_backslash`).
-/

set_option autoImplicit false

namespace StyleImports

/-- Every import of a graph leads to files, and none of them is a URL request. -/
def Index.IsResolved (index : Index) : Prop :=
  ∀ e ∈ index.entries, ∀ d ∈ e.2, d.target.isFailed = false ∧ Specifier.isUrl d.specifier = false

instance (index : Index) : Decidable index.IsResolved :=
  inferInstanceAs (Decidable (∀ e ∈ index.entries, ∀ d ∈ e.2, _ ∧ _))

theorem Index.IsResolved.of_lookup {index : Index} (h : index.IsResolved) {file : Path}
    {position : Position} {specifier : Text} {d : Dependency}
    (hd : index.lookup file position specifier = some d) :
    Specifier.isUrl specifier = false ∧ d.target.isFailed = false := by
  obtain ⟨key, dependencies, hentry, _, hmem, _, rfl⟩ := Index.mem_of_lookup hd
  exact ⟨(h _ hentry d hmem).2, (h _ hentry d hmem).1⟩

theorem Index.leads_of_lookup {index : Index} {file t : Path} {position : Position}
    {specifier : Text} {d : Dependency} (hd : index.lookup file position specifier = some d)
    (ht : t ∈ d.target.paths) : index.Leads file t := by
  rw [lookup] at hd
  split at hd
  · cases hd
  case h_2 dependencies hget => exact leads_of_mem hget (List.mem_of_find?_eq_some hd) ht

namespace Loader

open Renderer (Call)
open Relation (TransGen)
open Setting (importsIn)

variable {l : Loader} {budget : Nat} {cache cache' : Option Cache} {entry : Path} {source : Text}
  {w : Walk} {c : Call} {i : Sheet.Import}

theorem isSettled_of_isResolved (h : w.index.IsResolved) :
    l.IsSettled budget cache entry source w := fun _ _ _ _ _ hd =>
  .recorded (h.of_lookup hd).1 (h.of_lookup hd).2

theorem targets_of_lookup (hresolved : w.index.IsResolved) {d : Dependency}
    (hd : w.index.lookup c.file i.position i.specifier = some d) :
    c.targets (l.rendererAfter w) i = .ok d.target.paths := by
  obtain ⟨hurl, htarget⟩ := hresolved.of_lookup hd
  exact Renderer.targets_of_record rfl hurl hd htarget

section
variable (hsteady : l.IsSteady entry) (halike : l.ReadsAlike w.index)
  (hcache : ∀ k, cache = some k → k.IsFaithful l.setting (l.prepare source))
  (hresolved : w.index.IsResolved)
include hsteady halike hcache hresolved

/-- A file that is rendered leads to what its imports are executed for. -/
theorem leads_of_targets (hrenders : l.Renders budget cache entry source w c)
    (hexecutes : l.Executes entry w c i) {targets : List Path}
    (htargets : c.targets (l.rendererAfter w) i = .ok targets) :
    ∀ t ∈ targets, w.index.Leads c.file t := by
  have hfile := contains_of_renders hsteady halike hcache (isSettled_of_isResolved hresolved)
    hrenders
  rw [PathTable.contains_eq_isSome_get?] at hfile
  obtain ⟨dependencies, hget⟩ := Option.isSome_iff_exists.1 hfile
  obtain ⟨_, _, _, _, d, _, _, hd⟩ :=
    lookup_of_executed hsteady halike hcache hrenders hexecutes hget
  rw [targets_of_lookup hresolved hd] at htargets
  cases htargets
  exact fun t ht => Index.leads_of_lookup hd ht

/-- Every file on the way to a rendered one leads to it in the graph. -/
theorem reaches_of_renders (hrenders : l.Renders budget cache entry source w c) :
    ∀ p ∈ c.file :: c.chain, w.index.Reaches p c.file := by
  obtain ⟨hpre, hwalked, hreached⟩ := hrenders
  induction hreached with
  | refl =>
    intro p hp
    rw [List.mem_singleton.1 hp]
    exact .refl ..
  | @tail c _ hreached hcalls ih =>
    cases hcalls with
    | @below _ _ _ target _ _ hcomes =>
      obtain ⟨out₀, before, after, hexecutes, htargets, _⟩ := hcomes
      have hleads : w.index.Leads c.file target :=
        leads_of_targets hsteady halike hcache hresolved ⟨hpre, hwalked, hreached⟩
          ⟨_, _, hexecutes⟩ htargets target (by simp)
      intro p hp
      rcases List.mem_cons.1 hp with rfl | hp
      · exact .refl ..
      · exact (ih p hp).trans hleads.reaches

/-- An import of a file on the way to it closes a cycle of the graph. -/
theorem cycle_of_loop (hrenders : l.Renders budget cache entry source w c) {indent : Nat}
    {target : Path} {out : Rendered}
    (hcomes : c.ComesToTarget (l.rendererAfter w) (l.rebaserAfter entry w) i indent target out)
    (hloop : target.isAmong (c.file :: c.chain) = true) : TransGen w.index.Leads c.file c.file := by
  obtain ⟨out₀, before, after, hexecutes, htargets, _⟩ := hcomes
  have hleads : w.index.Leads c.file target := leads_of_targets hsteady halike hcache hresolved
    hrenders ⟨_, _, hexecutes⟩ htargets target (by simp)
  obtain ⟨p, hp, hsame⟩ := Path.isAmong_iff.1 hloop
  have hreaches := reaches_of_renders hsteady halike hcache hresolved hrenders p hp
  exact hleads.transGen_of_reaches ((Index.Reaches.trans (.inl (Path.same_symm hsame)) hreaches))

/-- The stylesheet of a call asks for all that its file leads to, if `.css` files are put in. -/
theorem covers_of_renders (hcss : l.options.includeCss = true)
    (hrenders : l.Renders budget cache entry source w c) :
    c.Covers (l.rendererAfter w) w.index := by
  intro nodes hparse e he
  obtain ⟨dependencies, hget⟩ := Option.isSome_iff_exists.1
    (PathTable.contains_eq_isSome_get? _ _ ▸ Index.contains_of_mem_edgesFrom he)
  simp only [Index.edgesFrom, hget, Option.getD_some, Index.edgesOf, List.mem_flatMap,
    List.mem_map] at he
  obtain ⟨d, hd, t, ht, rfl⟩ := he
  -- The record is that of an import of the stylesheet, which some step asks for.
  have hlists := lists_of_renders hsteady halike hcache hrenders hget
  have himports : importsIn (.ok c.text) = Sheet.importsOf nodes := by simp [importsIn, hparse]
  obtain ⟨k, hk⟩ := List.mem_iff_getElem?.1 hd
  have hlength : k < (importsIn (.ok c.text)).length := by
    have heq := congrArg List.length hlists
    simp only [List.length_map] at heq
    rw [← heq]
    exact (List.getElem?_eq_some_iff.1 hk).1
  obtain ⟨i, hi⟩ : ∃ i, (importsIn (.ok c.text))[k]? = some i :=
    ⟨_, List.getElem?_eq_getElem hlength⟩
  obtain ⟨d', hd', hlookup⟩ := Index.lookup_of_lists hget hlists hi
  rw [hk] at hd'
  cases hd'
  rw [himports] at hi
  obtain ⟨step, hstep, himport⟩ := List.mem_filterMap.1 (List.mem_of_getElem? hi)
  refine ⟨step, hstep, ?_⟩
  obtain ⟨indent, rfl, hnamed, hexternal⟩ := Sheet.Step.import?_eq_some.1 himport
  have hliteral : (l.rendererAfter w).isLiteral i.specifier = false := by
    simp [Renderer.isLiteral, hexternal, renderer, hcss]
  have hplace := Call.place_of_named (c := c) hnamed hliteral
  rw [targets_of_lookup hresolved hlookup] at hplace
  simp only [Call.targetsOf, hplace]
  exact ht

/-- After a render that succeeds, the graph has no cycle. -/
theorem not_cycle_of_render (hpre : l.options.preresolve = true)
    (hcss : l.options.includeCss = true)
    (hwalk : l.walk budget cache entry source = some (w, cache')) {out : Rendered}
    (hrender : (l.rendererAfter w).render (l.absolute entry) (l.prepare source) = .ok out)
    {p : Path} (hp : w.index.contains p = true) : ¬ TransGen w.index.Leads p p := by
  rw [Call.render_eq] at hrender
  have hstart : Call.Finished w.index (l.absolute entry :: []) [] Rendered.empty := ⟨.nil, nofun⟩
  obtain ⟨done, ⟨hleft, _⟩, _, hentry⟩ := Call.finishes_of_run (fun c hreached =>
    covers_of_renders hsteady halike hcache hresolved hcss ⟨hpre, ⟨cache', hwalk⟩, hreached⟩)
    hstart hrender
  have hfirst : (l.fs.cwd.absoluteFrom (l.absolute entry)).isAmong done = true := by
    rw [Path.isAmong_congr hsteady]
    exact hentry _ List.mem_cons_self
  have hdone : p.isAmong done = true := by
    rcases Walk.reaches_of_fromSource hwalk hp with hsame | hreaches
    · rw [← Path.isAmong_congr hsame]
      exact hfirst
    · rw [← Index.leadsWithout_nil] at hreaches
      exact hleft.closed hfirst hreaches
  rw [← Index.leadsWithout_nil]
  exact hleft.acyclic hdone

end

/-- A compilation that fails with an import loop has a walk that reports a cycle, and one that
succeeds has none to report, if every import of its graph leads to files, none is a URL request, and
`.css` files are put in. -/
theorem cycles_reported (hpre : l.options.preresolve = true) (hcss : l.options.includeCss = true)
    (hsteady : l.IsSteady entry)
    (hcache : ∀ k, cache = some k → k.IsFaithful l.setting (l.prepare source))
    (hwalk : l.walk budget cache entry source = some (w, cache'))
    (halike : l.ReadsAlike w.index) (hresolved : w.index.IsResolved) :
    (∀ specifier file position target, (l.compile budget cache entry source).1 =
        .error (.failed (.render (.loop specifier file position target))) →
      ∃ d ∈ w.diagnostics, Walk.IsCycle d.finding = true) ∧
    (∀ compiled, (l.compile budget cache entry source).1 = .ok compiled →
      compiled.diagnostics = w.diagnostics ∧
        ∀ d ∈ w.diagnostics, Walk.IsCycle d.finding = false) := by
  constructor
  · intro specifier file position target herror
    obtain ⟨w', c, hrenders, hstops⟩ := exists_stops_of_compile hpre herror
    obtain ⟨cache'', hwalk'⟩ := hrenders.walked
    rw [hwalk] at hwalk'
    cases hwalk'
    -- Of all that stops a call, only an import of a file on its chain is this error.
    generalize hfault : RenderError.loop specifier file position target = fault at hstops
    cases hstops with
    | unparsed => cases hfault
    | emptyPath => cases hfault
    | unread => cases hfault
    | notFound _ htargets =>
      obtain ⟨_, _, _, rfl⟩ := Renderer.notFound_of_targets rfl htargets
      cases hfault
    | loop hcomes hloop =>
      rw [Walk.exists_cycle_iff hwalk]
      exact Index.backEdges_ne_nil_of_cycle _
        (cycle_of_loop hsteady halike hcache hresolved hrenders hcomes hloop)
  · intro compiled hok
    obtain ⟨w', out, ⟨cache'', hwalk'⟩, hrender, rfl⟩ := exists_render_of_compile hpre hok
    rw [hwalk] at hwalk'
    cases hwalk'
    refine ⟨rfl, fun d hd => ?_⟩
    rw [← Bool.not_eq_true]
    intro hcycle
    obtain ⟨e, he⟩ := List.exists_mem_of_ne_nil _ ((Walk.exists_cycle_iff hwalk).1 ⟨d, hd, hcycle⟩)
    obtain ⟨hfile, hcycle⟩ := Index.cycle_of_mem_backEdges he
    exact not_cycle_of_render hsteady halike hcache hresolved hpre hcss hwalk hrender hfile hcycle

/-- Files that import each other, and one that imports nothing. -/
def looped : Loader :=
  ofMemory ([("a.styl", "@import 'b'"), ("b.styl", "@import 'a'"), ("c.styl", "c")].foldl
    (fun m file => m.add ⟨file.1.toList⟩ (Text.utf8 file.2.toList)) (.empty ⟨"/p".toList⟩))
    { includeCss := true } .empty .empty

/-- The graph of an entry that leads into the loop. -/
def loopIndex : Index :=
  ⟨[(⟨"/p/a.styl".toList⟩, [⟨⟨1, 1⟩, "b", .single ⟨"/p/b.styl".toList⟩⟩]),
    (⟨"/p/b.styl".toList⟩, [⟨⟨1, 1⟩, "a", .single ⟨"/p/a.styl".toList⟩⟩]),
    (⟨"/p/main.styl".toList⟩, [⟨⟨1, 1⟩, "a", .single ⟨"/p/a.styl".toList⟩⟩])]⟩

/-- The graph of an entry that does not. -/
def calmIndex : Index :=
  ⟨[(⟨"/p/c.styl".toList⟩, []),
    (⟨"/p/main.styl".toList⟩, [⟨⟨1, 1⟩, "c", .single ⟨"/p/c.styl".toList⟩⟩])]⟩

/-- The loop is an error and reported; without it there is nothing to report. -/
theorem cycles_reported_looped :
    (∃ w cache, looped.walk 9 none ⟨"main.styl".toList⟩ "@import 'a'" = some (w, cache) ∧
      (looped.compile 9 none ⟨"main.styl".toList⟩ "@import 'a'").1 = .error (.failed (.render
        (.loop "a" ⟨"/p/b.styl".toList⟩ ⟨1, 1⟩ ⟨"/p/a.styl".toList⟩))) ∧
      ∃ d ∈ w.diagnostics, Walk.IsCycle d.finding = true) ∧
    ∃ w cache compiled,
      looped.walk 9 none ⟨"main.styl".toList⟩ "@import 'c'" = some (w, cache) ∧
      (looped.compile 9 none ⟨"main.styl".toList⟩ "@import 'c'").1 = .ok compiled ∧
      ∀ d ∈ w.diagnostics, Walk.IsCycle d.finding = false := by
  have hsteady : looped.IsSteady ⟨"main.styl".toList⟩ :=
    isSteady_of_isPlain (by decide +kernel) (by decide +kernel) _
  have halike : ∀ index, looped.ReadsAlike index := readsAlike_ofMemory _ _ _ _
  constructor
  · obtain ⟨⟨w, cache⟩, hwalk, hindex⟩ := Option.map_eq_some_iff.1
      (by decide +kernel : (looped.walk 9 none ⟨"main.styl".toList⟩ "@import 'a'").map
        (fun outcome => outcome.1.index) = some loopIndex)
    have herror : (looped.compile 9 none ⟨"main.styl".toList⟩ "@import 'a'").1 =
        .error (.failed (.render
          (.loop "a" ⟨"/p/b.styl".toList⟩ ⟨1, 1⟩ ⟨"/p/a.styl".toList⟩))) := by
      rw [compile_of_walk rfl hwalk, finish_eq_failed]
      refine ⟨_, ?_, rfl⟩
      rw [Option.map_some, hindex]
      decide +kernel
    have hresolved : w.index.IsResolved := by
      rw [hindex]
      decide +kernel
    exact ⟨w, cache, hwalk, herror, (cycles_reported rfl rfl hsteady (fun _ h => by cases h) hwalk
      (halike w.index) hresolved).1 _ _ _ _ herror⟩
  · obtain ⟨⟨w, cache⟩, hwalk, hindex⟩ := Option.map_eq_some_iff.1
      (by decide +kernel : (looped.walk 9 none ⟨"main.styl".toList⟩ "@import 'c'").map
        (fun outcome => outcome.1.index) = some calmIndex)
    have hrender : (looped.rendererAfter w).render (looped.absolute ⟨"main.styl".toList⟩)
        (looped.prepare "@import 'c'") =
          .ok ⟨["c".toList], [⟨"/p/c.styl".toList⟩]⟩ := by
      rw [rendererAfter, hindex]
      decide +kernel
    have hresolved : w.index.IsResolved := by
      rw [hindex]
      decide +kernel
    have hok := compile_of_render rfl hwalk hrender
    exact ⟨w, cache, _, hwalk, hok, ((cycles_reported rfl rfl hsteady (fun _ h => by cases h) hwalk
      (halike w.index) hresolved).2 _ hok).2⟩

/-- Files below `/lib` and `/p/q`, seen from a directory whose own name is `p\q`. -/
def twisted : Loader :=
  ofMemory ([("/lib/a.styl", "@import '../p/q/main'\n"), ("/p/q/main.styl", "b\n")].foldl
    (fun m file => m.add ⟨file.1.toList⟩ (Text.utf8 file.2.toList)) (.empty ⟨"/p\\q".toList⟩))
    { paths := [⟨"/lib".toList⟩], includeCss := true } .empty .empty

/-- The graph of its walk: the entry is the stored file, with the imports of the entry. -/
def twistedIndex : Index :=
  ⟨[(⟨"/lib/a.styl".toList⟩,
      [⟨⟨1, 1⟩, "../p/q/main", .single ⟨"/p/q/main.styl".toList⟩⟩]),
    (⟨"/p/q/main.styl".toList⟩, [⟨⟨1, 1⟩, "a", .single ⟨"/lib/a.styl".toList⟩⟩])]⟩

/-- The walk reports a cycle, and the render succeeds. -/
theorem not_cycles_reported_of_backslash : ∃ w cache compiled,
    twisted.walk 9 none ⟨"main.styl".toList⟩ "@import 'a'\n" = some (w, cache) ∧
      w.index.IsResolved ∧
      (twisted.compile 9 none ⟨"main.styl".toList⟩ "@import 'a'\n").1 = .ok compiled ∧
      ∃ d ∈ compiled.diagnostics, Walk.IsCycle d.finding = true := by
  obtain ⟨⟨w, cache⟩, hwalk, hindex⟩ := Option.map_eq_some_iff.1
    (by decide +kernel : (twisted.walk 9 none ⟨"main.styl".toList⟩ "@import 'a'\n").map
      (fun outcome => outcome.1.index) = some twistedIndex)
  have hrender : (twisted.rendererAfter w).render (twisted.absolute ⟨"main.styl".toList⟩)
      (twisted.prepare "@import 'a'\n") =
        .ok ⟨["b".toList], [⟨"/lib/a.styl".toList⟩, ⟨"/p/q/main.styl".toList⟩]⟩ := by
    rw [rendererAfter, hindex]
    decide +kernel
  have hresolved : w.index.IsResolved := by
    rw [hindex]
    decide +kernel
  refine ⟨w, cache, _, hwalk, hresolved, compile_of_render rfl hwalk hrender, ?_⟩
  refine (Walk.exists_cycle_iff hwalk).2 ?_
  rw [hindex]
  refine Index.backEdges_ne_nil_of_cycle (p := ⟨"/lib/a.styl".toList⟩) _ ?_
  have hthere : twistedIndex.lookup ⟨"/lib/a.styl".toList⟩ ⟨1, 1⟩ "../p/q/main" =
      some ⟨⟨1, 1⟩, "../p/q/main", .single ⟨"/p/q/main.styl".toList⟩⟩ := by decide +kernel
  have hback : twistedIndex.lookup ⟨"/p/q/main.styl".toList⟩ ⟨1, 1⟩ "a" =
      some ⟨⟨1, 1⟩, "a", .single ⟨"/lib/a.styl".toList⟩⟩ := by decide +kernel
  exact .tail (.single (Index.leads_of_lookup hthere List.mem_cons_self))
    (Index.leads_of_lookup hback List.mem_cons_self)

end Loader

end StyleImports
