import StyleImports.Proofs.Loader.Bypass
import StyleImports.Proofs.Walk.Stores

/-!
# Imports with a record

Where the walk has found the files of an import, the render puts in these files, in their order,
unless the import is a URL request (`targets_of_recorded`). A URL request is looked up once more,
and may not be found again (`not_found_of_url`). So a record tells what is put in for its import as
long as the render goes by it, or comes with its lookup to the same (`Settles`).
-/

set_option autoImplicit false

namespace StyleImports

/-- A lookup finds no files for an import whose record failed, if the import is neither a request
for a package nor a pattern and no failed record is kept from one walk to the next. -/
theorem Walk.eq_nil_of_failed {s : Setting} {budget : Nat} {cache cache' : Option Cache}
    {entry : Path} {source : Text} {w : Walk}
    (hwalk : fromSource s budget cache entry source = some (w, cache'))
    (hresolved : ∀ k, cache = some k → k.IsResolved) {file : Path} {position : Position}
    {specifier : Text} {d : Dependency} (hmodule : Specifier.isModule specifier = false)
    (hpattern : s.isPattern file specifier = false)
    (hd : w.index.lookup file position specifier = some d) (hfailed : d.target.isFailed = true)
    {found : List Path}
    (hfound : Lookup.resolve ⟨s.fs, s.options.paths⟩ specifier file = some found) :
    found = [] := by
  obtain ⟨key, dependencies, hentry, hsame, hmem, rfl, rfl⟩ := Index.mem_of_lookup hd
  -- Files with a failed record are never served from a cache, so this one was just looked up.
  have hfresh : dependencies = freshOf s key _ :=
    freshOf_of_failed hresolved hwalk _ hentry ⟨d, hmem, hfailed⟩
  rw [hfresh] at hmem
  obtain ⟨i, _, rfl⟩ := List.mem_map.1 hmem
  rw [(s.place_resolve key i).2] at hpattern hmodule hfound
  have hpaths := Setting.paths_of_same_lookup hsame hpattern hmodule hfound
  rw [Target.paths_of_isFailed hfailed] at hpaths
  exact List.map_eq_nil_iff.1 hpaths.symm

namespace Loader

open Renderer (Call)

variable {l : Loader} {budget : Nat} {cache : Option Cache} {entry : Path} {source : Text}
  {w : Walk} {c : Call} {i : Sheet.Import}

/-- An import that a compilation does not find is left to the lookup, which does not find it. -/
theorem defers_of_notFound (h : l.options.preresolve = true) {kind : ImportKind} {specifier : Text}
    {file : Path} {position : Position} {detail : Option Text}
    (herror : (l.compile budget cache entry source).1 =
      .error (.failed (.render (.notFound kind specifier file position detail)))) :
    ∃ w c, l.Renders budget cache entry source w c ∧ c.file = file ∧
      l.Executes entry w c ⟨specifier, position, kind⟩ ∧
      w.index.Defers file position specifier ∧
      Lookup.resolve ⟨l.fs, l.options.searchPaths⟩ specifier file = none := by
  obtain ⟨w, c, hrenders, hstops⟩ := exists_stops_of_compile h herror
  generalize hfault : RenderError.notFound kind specifier file position detail = fault at hstops
  cases hstops with
  | unparsed => cases hfault
  | emptyPath => cases hfault
  | loop => cases hfault
  | unread => cases hfault
  | @notFound i indent out _ hexecutes htargets =>
    obtain ⟨hdefers, hlookup, detail', rfl⟩ := Renderer.notFound_of_targets rfl htargets
    cases hfault
    exact ⟨w, c, hrenders, rfl, ⟨indent, out, hexecutes⟩, hdefers, hlookup⟩

/-- A record settles what the render puts in for its import: the render goes by the record, or it
comes to the same with its own lookup. -/
inductive Settles (l : Loader) (cache : Option Cache) (c : Call) (i : Sheet.Import)
    (d : Dependency) : Prop where
  /-- The record leads somewhere, and the import is no URL request. -/
  | recorded : Specifier.isUrl i.specifier = false → d.target.isFailed = false →
      Settles l cache c i d
  /-- The record failed, and the import is neither a request for a package nor a pattern. The cache
  keeps no failed records. -/
  | failed : Specifier.isModule i.specifier = false →
      l.setting.isPattern c.file i.specifier = false → d.target.isFailed = true →
      (∀ k, cache = some k → k.IsResolved) → Settles l cache c i d
  /-- The import is neither a request for a package nor a pattern. Its record is not outdated, and
  what it leads to is recorded under its own name. -/
  | repeated : Specifier.isModule i.specifier = false →
      l.setting.isPattern c.file i.specifier = false →
      cache = none ∨ d.target = (l.setting.resolve c.file i).dependency.target →
      l.fs.IsPlain → Settles l cache c i d

/-- An import stands for the paths of a record that settles it. -/
theorem paths_of_targets (hrenders : l.Renders budget cache entry source w c) {d : Dependency}
    (hd : w.index.lookup c.file i.position i.specifier = some d) (hsettles : l.Settles cache c i d)
    {found : List Path} (htargets : c.targets (l.rendererAfter w) i = .ok found) :
    found = d.target.paths := by
  rcases w.index.defers_or_record c.file i.position i.specifier with
    hdefers | ⟨hurl, d', hd', htarget⟩
  case inr =>
    rw [hd] at hd'
    cases hd'
    have hrecord : c.targets (l.rendererAfter w) i = .ok d.target.paths :=
      Renderer.targets_of_record rfl hurl hd htarget
    rw [hrecord] at htargets
    exact (Except.ok.inj htargets).symm
  case inl =>
    have hfound := (Renderer.targets_of_defers rfl hdefers).1 htargets
    cases hsettles with
    | recorded hurl htarget =>
      rcases hdefers with hasked | hfailed
      · rw [hurl] at hasked
        cases hasked
      · rw [hfailed d hd] at htarget
        cases htarget
    | failed hmodule hpattern hfailed hresolved =>
      obtain ⟨cache', hwalk⟩ := hrenders.walked
      rw [Target.paths_of_isFailed hfailed]
      exact Walk.eq_nil_of_failed hwalk hresolved hmodule hpattern hd hfailed hfound
    | repeated hmodule hpattern hfresh hplain =>
      -- The record comes from the same lookup, made while walking or by now.
      have hpaths : d.target.paths = found.map Path.asDependency := by
        rcases hfresh with rfl | hfresh
        · obtain ⟨cache', hwalk⟩ := hrenders.walked
          exact Walk.paths_of_found hwalk hmodule hpattern hd hfound
        · rw [hfresh]
          exact Setting.paths_of_lookup hpattern hmodule hfound
      rw [hpaths, Lookup.map_asDependency hplain hfound]

/-- An import whose record leads to some paths is rendered as those files, in order, unless it is a
URL request. A URL request is rendered as what a lookup finds, which comes to the same paths if the
walk had no cache and no request for a package, no pattern and no backslash is involved. So only URL
requests and imports without a record that leads anywhere are ever not found. -/
theorem targets_of_recorded (l : Loader) (budget : Nat) (cache : Option Cache) (entry : Path)
    (source : Text) :
    (∀ w c i indent out d, l.Renders budget cache entry source w c →
      c.Executes (l.rendererAfter w) (l.rebaserAfter entry w) i indent out →
      w.index.lookup c.file i.position i.specifier = some d → d.target.isFailed = false →
      (Specifier.isUrl i.specifier = false →
        c.targets (l.rendererAfter w) i = .ok d.target.paths ∧
        c.step (l.rendererAfter w) (l.rebaserAfter entry w) out
            (.request i.kind i.position indent (some (.str i.specifier))) =
          d.target.paths.foldlM (c.put (l.rendererAfter w) (l.rebaserAfter entry w) i indent) out) ∧
      (Specifier.isUrl i.specifier = true → ∀ found,
        c.targets (l.rendererAfter w) i = .ok found ↔
          Lookup.resolve ⟨l.fs, l.options.searchPaths⟩ i.specifier c.file = some found) ∧
      (cache = none → l.fs.IsPlain → i.IsSimple → ∀ found,
        c.targets (l.rendererAfter w) i = .ok found → found = d.target.paths)) ∧
    (l.options.preresolve = true → ∀ kind specifier file position detail,
      (l.compile budget cache entry source).1 =
        .error (.failed (.render (.notFound kind specifier file position detail))) →
      ∃ w c, l.Renders budget cache entry source w c ∧ c.file = file ∧
        l.Executes entry w c ⟨specifier, position, kind⟩ ∧
        (Specifier.isUrl specifier = true ∨
          ∀ d, w.index.lookup file position specifier = some d → d.target.isFailed = true)) := by
  refine ⟨fun w c i indent out d hrenders hexecutes hd htarget => ⟨?record, ?url, ?simple⟩, ?_⟩
  case record =>
    intro hurl
    have htargets : c.targets (l.rendererAfter w) i = .ok d.target.paths :=
      Renderer.targets_of_record rfl hurl hd htarget
    refine ⟨htargets, ?_⟩
    rw [Call.step_of_executes hexecutes, htargets]
  case url => exact fun hurl found => Renderer.targets_of_defers rfl (.inl hurl)
  case simple =>
    rintro rfl hplain hsimple found htargets
    exact paths_of_targets hrenders hd (.repeated hsimple.1
      (Setting.isPattern_of_static hsimple.2) (.inl rfl) hplain) htargets
  · intro h kind specifier file position detail herror
    obtain ⟨w, c, hrenders, hfile, hexecutes, hdefers, _⟩ := defers_of_notFound h herror
    exact ⟨w, c, hrenders, hfile, hexecutes, hdefers⟩

/-- Files whose paths from the root are below `/project`, with a source that asks for one. -/
def rootedFiles : Memory :=
  (Memory.empty ⟨"/".toList⟩).add ⟨"/lib/a.styl".toList⟩ (Text.utf8 "a".toList)

def rooted : Loader :=
  ofMemory rootedFiles { root := some ⟨"/project".toList⟩ }
    ⟨[("/project/a.styl", [⟨"/lib/a.styl".toList⟩])]⟩ .empty

def rootedSource : Text := "@import '/a.styl'"

def rootedIndex : Index :=
  ⟨[(⟨"/lib/a.styl".toList⟩, []),
    (⟨"/p/main.styl".toList⟩, [⟨⟨1, 1⟩, "/a.styl", .single ⟨"/lib/a.styl".toList⟩⟩])]⟩

theorem compile_rooted : ∃ w cache,
    rooted.walk 9 none ⟨"/p/main.styl".toList⟩ rootedSource = some (w, cache) ∧
      w.index = rootedIndex ∧
      (rooted.compile 9 none ⟨"/p/main.styl".toList⟩ rootedSource).1 =
        .error (.failed (.render
          (.notFound .always "/a.styl" ⟨"/p/main.styl".toList⟩ ⟨1, 1⟩ none))) := by
  obtain ⟨⟨w, cache⟩, hwalk, hindex⟩ := Option.map_eq_some_iff.1
    (by decide +kernel : (rooted.walk 9 none ⟨"/p/main.styl".toList⟩ rootedSource).map
      (fun outcome => outcome.1.index) = some rootedIndex)
  refine ⟨w, cache, hwalk, hindex, ?_⟩
  rw [compile_of_walk rfl hwalk, finish_eq_failed]
  refine ⟨_, ?_, rfl⟩
  rw [Option.map_some, hindex]
  decide +kernel

/-- The walk finds an import through the resolver that the render cannot find. -/
theorem not_found_of_url : ∃ w cache d,
    rooted.walk 9 none ⟨"/p/main.styl".toList⟩ rootedSource = some (w, cache) ∧
      w.index.lookup ⟨"/p/main.styl".toList⟩ ⟨1, 1⟩ "/a.styl" = some d ∧
      d.target.paths = [⟨"/lib/a.styl".toList⟩] ∧
      (rooted.compile 9 none ⟨"/p/main.styl".toList⟩ rootedSource).1 =
        .error (.failed (.render
          (.notFound .always "/a.styl" ⟨"/p/main.styl".toList⟩ ⟨1, 1⟩ none))) := by
  obtain ⟨w, cache, hwalk, hindex, herror⟩ := compile_rooted
  refine ⟨w, cache, ⟨⟨1, 1⟩, "/a.styl", .single ⟨"/lib/a.styl".toList⟩⟩, hwalk, ?_, rfl, herror⟩
  rw [hindex]
  decide +kernel

/-- An import with a record is rendered as the file of the record, and a request that is not found
is one for a URL. -/
theorem targets_of_recorded_chain :
    (∃ w c, theme.Renders 9 none ⟨"main.styl".toList⟩ chainSource w c ∧
      c.file = ⟨"/p/a.styl".toList⟩ ∧
      c.targets (theme.rendererAfter w) ⟨"b", ⟨1, 1⟩, .always⟩ = .ok [⟨"/p/b.styl".toList⟩]) ∧
    ∃ w c, rooted.Renders 9 none ⟨"/p/main.styl".toList⟩ rootedSource w c ∧
      c.file = ⟨"/p/main.styl".toList⟩ ∧
      (Specifier.isUrl "/a.styl" = true ∨
        ∀ d, w.index.lookup ⟨"/p/main.styl".toList⟩ ⟨1, 1⟩ "/a.styl" = some d →
          d.target.isFailed = true) := by
  constructor
  · obtain ⟨w, c, hindex, hfile, hrenders, indent, out, hexecutes⟩ := executes_chain
    have hlookup : w.index.lookup c.file ⟨1, 1⟩ "b" =
        some ⟨⟨1, 1⟩, "b", .single ⟨"/p/b.styl".toList⟩⟩ := by
      rw [hindex, hfile]
      decide +kernel
    have hrecord := (targets_of_recorded theme 9 none ⟨"main.styl".toList⟩ chainSource).1 w c
      ⟨"b", ⟨1, 1⟩, .always⟩ indent out _ hrenders hexecutes hlookup rfl
    exact ⟨w, c, hrenders, hfile, (hrecord.1 (by decide +kernel)).1⟩
  · obtain ⟨_, _, _, _, herror⟩ := compile_rooted
    have hnever := (targets_of_recorded rooted 9 none ⟨"/p/main.styl".toList⟩ rootedSource).2 rfl
    obtain ⟨w, c, hrenders, hfile, _, hurl⟩ := hnever _ _ _ _ _ herror
    exact ⟨w, c, hrenders, hfile, hurl⟩

end Loader

end StyleImports
