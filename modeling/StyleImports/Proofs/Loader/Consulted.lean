import StyleImports.Proofs.Loader.Bypass
import StyleImports.Proofs.Render.Traversal
import StyleImports.Proofs.Walk.Records

/-!
# Records of rendered imports

The render goes through the same files as the walk before it and asks for the imports that the walk
has recorded, no others (`consulted`). So it finds the record of each import of a file of the graph
(`lookup_of_executed`), if both of them read the same text of the file. For that the entry has to go
by one path in both (`IsSteady`): from a working directory whose name holds a backslash it does not,
and a record is missed (`not_consulted_of_backslash`).
-/

set_option autoImplicit false

namespace StyleImports.Loader

open Renderer (Pass)
open Setting (importsIn)

variable {l : Loader} {budget : Nat} {cache : Option Cache} {entry : Path} {source : Text}
  {w : Walk} {c : Renderer.Call} {i : Sheet.Import}

/-- The entry goes by the same path in the walk and in the render. -/
def IsSteady (l : Loader) (entry : Path) : Prop :=
  (l.fs.cwd.absoluteFrom (l.absolute entry)).same (l.absolute entry) = true

theorem isSteady_of_isPlain (habsolute : l.fs.cwd.isAbsolute = true) (hplain : l.fs.cwd.IsPlain)
    (entry : Path) : l.IsSteady entry := by
  rw [IsSteady, absolute, Path.absoluteFrom_absoluteFrom habsolute hplain]
  exact Path.same_self _

/-- The files of a graph are read under their paths there as under other spellings. -/
def ReadsAlike (l : Loader) (index : Index) : Prop :=
  ∀ key ∈ index.keys, ∀ p text, key.same p = true → l.fs.readText p = .ok text →
    l.fs.readText key = .ok text

theorem readsAlike_ofMemory (m : Memory) (options : Options) (file context : RequestTable)
    (index : Index) : (ofMemory m options file context).ReadsAlike index :=
  fun _ _ _ _ hsame => Memory.readText_congr (Path.cleanFrom_congr m.cwd (Path.same_symm hsame))

/-- The text of a call is the one that the walk before it has read. -/
theorem Renders.contentOf (h : l.Renders budget cache entry source w c) (hsteady : l.IsSteady entry)
    (halike : l.ReadsAlike w.index) {key : Path} (hkey : key ∈ w.index.keys)
    (hsame : key.same c.file = true) :
    l.setting.contentOf (l.fs.cwd.absoluteFrom (l.absolute entry)) (l.prepare source) key =
      .ok c.text := by
  rw [Setting.contentOf]
  rcases h.reached.eq_or_below with rfl | ⟨hchain, hnot, hread⟩
  · rw [if_pos (Path.same_trans hsame (Path.same_symm hsteady))]
    rfl
  · -- Below the entry a call is for another file, as the entry is on the way to it.
    have hother : c.file.same (l.absolute entry) = false := Path.same_eq_false_of_mem hnot hchain
    have hkeyOther : key.same (l.fs.cwd.absoluteFrom (l.absolute entry)) = false := by
      rw [← Bool.not_eq_true]
      intro hentry
      rw [Path.same_trans (Path.same_symm hsame) (Path.same_trans hentry hsteady)] at hother
      cases hother
    rw [if_neg (by simp [hkeyOther])]
    exact halike key hkey c.file c.text hsame hread

theorem Executes.mem_visit (h : l.Executes entry w c i) :
    ∃ nodes, Sheet.parse c.text = .ok nodes ∧ i ∈ Sheet.Visitor.visit nodes := by
  obtain ⟨indent, out, ⟨nodes, before, after, hparse, hsteps, _⟩, hnamed, hliteral⟩ := h
  rw [Renderer.isLiteral, Bool.or_eq_false_iff] at hliteral
  refine ⟨nodes, hparse, ?_⟩
  rw [Sheet.Visitor.visit_eq, Sheet.importsOf, hsteps]
  refine List.mem_filterMap.2 ⟨_, List.mem_append_right _ List.mem_cons_self, ?_⟩
  simp [Sheet.Step.import?, hnamed, hliteral.1]

/-- The records of a rendered file list its imports one by one. -/
theorem lists_of_renders (hsteady : l.IsSteady entry) (halike : l.ReadsAlike w.index)
    (hcache : ∀ k, cache = some k → k.IsFaithful l.setting (l.prepare source))
    (hrenders : l.Renders budget cache entry source w c)
    {dependencies : List Dependency} (hget : w.index.get? c.file = some dependencies) :
    Dependency.Lists (importsIn (.ok c.text)) dependencies := by
  obtain ⟨cache', hwalk⟩ := hrenders.walked
  obtain ⟨key, hentry, hsame⟩ := PathTable.exists_of_get? hget
  have hcontent : l.setting.contentOf (l.fs.cwd.absoluteFrom (l.absolute entry))
      (l.prepare source) key = .ok c.text :=
    hrenders.contentOf hsteady halike (List.mem_map_of_mem hentry) hsame
  rw [← hcontent]
  exact (Walk.lists_of_fromSource hcache hwalk).1 _ hentry

/-- Each import of a rendered file that is executed finds its own record. -/
theorem lookup_of_executed (hsteady : l.IsSteady entry) (halike : l.ReadsAlike w.index)
    (hcache : ∀ k, cache = some k → k.IsFaithful l.setting (l.prepare source))
    (hrenders : l.Renders budget cache entry source w c) (hexecutes : l.Executes entry w c i)
    {dependencies : List Dependency} (hget : w.index.get? c.file = some dependencies) :
    ∃ nodes, Sheet.parse c.text = .ok nodes ∧
      Dependency.Lists (Sheet.Visitor.visit nodes) dependencies ∧
      ∃ (k : Nat) (d : Dependency), (Sheet.Visitor.visit nodes)[k]? = some i ∧
        dependencies[k]? = some d ∧ w.index.lookup c.file i.position i.specifier = some d := by
  obtain ⟨nodes, hparse, hmem⟩ := hexecutes.mem_visit
  have himports : importsIn (.ok c.text) = Sheet.Visitor.visit nodes := by
    rw [Sheet.Visitor.visit_eq]
    simp [importsIn, hparse]
  have hlists := lists_of_renders hsteady halike hcache hrenders hget
  obtain ⟨k, hk⟩ := List.mem_iff_getElem?.1 hmem
  obtain ⟨d, hd, hlookup⟩ := Index.lookup_of_lists hget hlists (himports ▸ hk)
  exact ⟨nodes, hparse, himports ▸ hlists, k, d, hk, hd, hlookup⟩

/-- What is asked for while a stylesheet is rendered are the imports that a visitor collects, in
order, without those of `.css` files unless these are put in; and each import of a file of the graph
that is asked for finds its own record. -/
theorem consulted (l : Loader) (budget : Nat) (cache : Option Cache) (entry : Path)
    (source : Text) :
    (∀ (r : Renderer) (urls : Option UrlRebaser) (c : Renderer.Call) (nodes : List Node),
      Sheet.parse c.text = .ok nodes →
      c.run r urls = (Pass.renderNodes r urls c (.start c) nodes).map Pass.out ∧
      ∀ pass, Pass.renderNodes r urls c (.start c) nodes = .ok pass →
        pass.asked = (Sheet.Visitor.visit nodes).filter fun i =>
          r.includeCss || !Text.endsWithAscii ".css" i.specifier) ∧
    (l.IsSteady entry →
      (∀ k, cache = some k → k.IsFaithful l.setting (l.prepare source)) →
      ∀ w c i dependencies, l.ReadsAlike w.index →
        l.Renders budget cache entry source w c → l.Executes entry w c i →
        w.index.get? c.file = some dependencies →
        ∃ nodes, Sheet.parse c.text = .ok nodes ∧
          Dependency.Lists (Sheet.Visitor.visit nodes) dependencies ∧
          ∃ (k : Nat) (d : Dependency), (Sheet.Visitor.visit nodes)[k]? = some i ∧
            dependencies[k]? = some d ∧
            w.index.lookup c.file i.position i.specifier = some d) := by
  constructor
  · intro r urls c nodes hparse
    refine ⟨?_, fun pass hpass => Pass.asked_of_renderNodes hpass⟩
    rw [Pass.run_eq_pass, hparse]
  · intro hsteady hcache w c i dependencies halike hrenders hexecutes hget
    exact lookup_of_executed hsteady halike hcache hrenders hexecutes hget

theorem consulted_chain : ∃ w c d, theme.Renders 9 none ⟨"main.styl".toList⟩ chainSource w c ∧
    c.file = ⟨"/p/a.styl".toList⟩ ∧
    theme.Executes ⟨"main.styl".toList⟩ w c ⟨"b", ⟨1, 1⟩, .always⟩ ∧
    w.index.lookup c.file ⟨1, 1⟩ "b" = some d := by
  obtain ⟨w, c, hindex, hfile, hrenders, hexecutes⟩ := executes_chain
  have hget : w.index.get? c.file = some [⟨⟨1, 1⟩, "b", .single ⟨"/p/b.styl".toList⟩⟩] := by
    rw [hindex, hfile]
    decide +kernel
  have hsteady : theme.IsSteady ⟨"main.styl".toList⟩ :=
    isSteady_of_isPlain (by decide +kernel) (by decide +kernel) _
  have halike : theme.ReadsAlike w.index :=
    readsAlike_ofMemory themeFiles {} .empty .empty w.index
  obtain ⟨_, _, _, _, d, _, _, hlookup⟩ :=
    (consulted theme 9 none ⟨"main.styl".toList⟩ chainSource).2 hsteady nofun w c
      ⟨"b", ⟨1, 1⟩, .always⟩ _ halike hrenders hexecutes hget
  exact ⟨w, c, d, hrenders, hfile, hexecutes, hlookup⟩

/-- Files below `/p/q`, seen from a directory whose own name is `p\q`. -/
def slashedFiles : Memory :=
  [("/p/q/main.styl", "@import '~pkg'"), ("/lib/pkg.styl", "a")].foldl
    (fun m file => m.add ⟨file.1.toList⟩ (Text.utf8 file.2.toList)) (.empty ⟨"/p\\q".toList⟩)

def slashed : Loader :=
  ofMemory slashedFiles {} ⟨[("pkg", [⟨"/lib/pkg.styl".toList⟩])]⟩ .empty

def slashedSource : Text := "\n@import '/p/q/main'"

/-- The graph of the walk: its entry is the stored file, with the imports of the entry. -/
def slashedIndex : Index :=
  ⟨[(⟨"/p/q/main.styl".toList⟩,
    [⟨⟨2, 1⟩, "/p/q/main", .single ⟨"/p/q/main.styl".toList⟩⟩])]⟩

/-- The render puts the stored file in below the entry and misses the record of its import. -/
theorem not_consulted_of_backslash : ∃ w c i,
    slashed.Renders 9 none ⟨"main.styl".toList⟩ slashedSource w c ∧
      slashed.Executes ⟨"main.styl".toList⟩ w c i ∧ w.index.contains c.file = true ∧
      w.index.lookup c.file i.position i.specifier = none := by
  obtain ⟨w, c, hindex, hfile, hrenders, hexecutes⟩ : ∃ w c, w.index = slashedIndex ∧
      c.file = ⟨"/p/q/main.styl".toList⟩ ∧
      slashed.Renders 9 none ⟨"main.styl".toList⟩ slashedSource w c ∧
      slashed.Executes ⟨"main.styl".toList⟩ w c ⟨"~pkg", ⟨1, 1⟩, .always⟩ :=
    exists_executes_of_opens ⟨"/p/q/main", ⟨2, 1⟩, .always⟩ [] "@import '~pkg'" rfl
      (by decide +kernel) (by decide +kernel) (by decide +kernel)
      (by decide +kernel) (by decide +kernel) (by decide +kernel)
  refine ⟨w, c, _, hrenders, hexecutes, ?_, ?_⟩
  · rw [hindex, hfile]
    decide +kernel
  · rw [hindex, hfile]
    decide +kernel

end StyleImports.Loader
