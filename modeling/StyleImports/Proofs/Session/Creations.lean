import Mathlib.Data.List.Forall2
import StyleImports.Proofs.Graph.Static
import StyleImports.Proofs.Session.Basic
import StyleImports.Proofs.Session.Changes

/-!
# Sessions in which files are created

A cache knows an outdated entry by a target that is gone, and by nothing else. So when files are
created and manifests are edited between walks, a walk may record what an import came to in an
earlier walk (`Session.not_records_of_creates`). It does so only if a lookup of the import would
read or find something new (`LookupChanged`), and what it records is still there
(`Session.records_of_creates`).
-/

set_option autoImplicit false

namespace StyleImports

open Setting (importsIn)
open Walk (freshOf)

variable {k : Walker} {past now : Memory} {file : Path}

/-- Why the outcome of a lookup may have changed since some earlier files: it finds a file that was
not there, it reads a manifest that was not there or that had another text, or it goes by a
pattern. -/
inductive LookupChanged (k : Walker) (past now : Memory) (file : Path) (specifier : Text) :
    Prop where
  | found {found : List Path} {p : Path} :
      Lookup.resolve ⟨now.fileSystem, k.options.paths⟩ specifier file = some found → p ∈ found →
      past.fileSystem.isFile p = false → LookupChanged k past now file specifier
  | manifest {found : List Path} {p : Path} :
      Lookup.find ⟨now.fileSystem, k.options.paths⟩
        ("node_modules/" ++ specifier ++ "/package.json") file = some found → p ∈ found →
      (past.fileSystem.isFile p = true →
        past.fileSystem.readText p ≠ now.fileSystem.readText p) →
      LookupChanged k past now file specifier
  | pattern {asked : Text} :
      Lookup.Asked ⟨now.fileSystem, k.options.paths⟩ specifier file asked →
      Glob.isDynamic asked = true → LookupChanged k past now file specifier

/-- A record that was found in some earlier files: it leads to files that are there now, and a
lookup of its import may come to something else. -/
structure Outdated (k : Walker) (past now : Memory) (file : Path) (i : Sheet.Import)
    (d : Dependency) : Prop where
  eq : d = ((k.setting past).resolve file i).dependency
  resolved : d.target.isFailed = false
  live : ∀ p ∈ d.target.paths, now.fileSystem.isFile p = true
  looksUp : Specifier.isModule i.specifier = false
  changed : LookupChanged k past now file i.specifier

/-- A static import comes to the same after files were created, unless its lookup has changed. -/
theorem Walker.record_of_creates (h : Relation.ReflTransGen Memory.Creates past now)
    {i : Sheet.Import} (hstatic : Glob.isDynamic i.specifier = false)
    (hcurrent : Specifier.isModule i.specifier = false →
      ¬ LookupChanged k past now file i.specifier) :
    ((k.setting past).resolve file i).dependency =
      ((k.setting now).resolve file i).dependency := by
  refine Setting.record_of_lookup (s := k.setting now) hstatic fun hmodule => ?_
  have hnot := hcurrent hmodule
  refine Lookup.resolve_of_fewer (Memory.fewer_of_creates h) ?static ?manifest ?left
  case static =>
    intro asked hasked
    rw [← Bool.not_eq_true]
    exact fun hdynamic => hnot (.pattern hasked hdynamic)
  case manifest =>
    intro found hfound p hp
    by_contra hchanged
    refine hnot (.manifest hfound hp fun hthere hread => ?_)
    exact hchanged ⟨hthere, hread⟩
  case left =>
    intro found hfound p hp
    rw [← Bool.not_eq_false]
    exact fun hnew => hnot (.found hfound hp hnew)

namespace Session

variable {a : Session}

/-- What a walk of a session may record for an import: what it comes to now, which is what a walk
without a cache records (`Walk.freshOf_of_fromSource`), or an outdated record of an earlier walk. -/
def IsRecord (k : Walker) (a : Session) (file : Path) (i : Sheet.Import) (d : Dependency) : Prop :=
  d = ((k.setting a.files).resolve file i).dependency ∨
    ∃ past ∈ a.walked, Outdated k past a.files file i d

/-- What is recalled for a text are records of the imports of a text of the same digest. -/
theorem records_of_recalled (hsteady : k.resolvers.file.IsSteady) {T : Set Text} {text : Text}
    (hcreates : ∀ past ∈ a.walked, Relation.ReflTransGen Memory.Creates past a.files)
    {dependencies : List Dependency}
    (h : Recalled k T (a.files :: a.walked) a.files.fileSystem file text dependencies) :
    ∃ past, Sha256.ofText past = Sha256.ofText text ∧
      List.Forall₂ (a.IsRecord k file) (importsIn (.ok past)) dependencies := by
  obtain ⟨past, hpast, pastText, _, hdigest, heq, hfound⟩ := h.exists_past hsteady
  refine ⟨pastText, hdigest, ?_⟩
  rw [heq, freshOf, List.forall₂_map_right_iff, List.forall₂_same]
  intro i hi
  obtain ⟨hstatic, hresolved, hlive⟩ := hfound i hi
  rcases List.mem_cons.1 hpast with rfl | hpast
  · exact .inl rfl
  · by_cases hcurrent : Specifier.isModule i.specifier = false →
        ¬ LookupChanged k past a.files file i.specifier
    · exact .inl (Walker.record_of_creates (hcreates past hpast) hstatic hcurrent)
    · rw [Classical.not_imp, not_not] at hcurrent
      exact .inr ⟨past, hpast, rfl, hresolved, hlive, hcurrent.1, hcurrent.2⟩

/-- In a session of creations, a walk with the shared cache records for the imports of a file what
they come to now or an outdated record of an earlier walk; the imports are those of a text with the
digest of the file. -/
theorem records_of_creates (hsteady : k.resolvers.file.IsSteady) {m : Memory}
    (h : k.Reaches Memory.Creates Set.univ (.start m) a) {budget : Nat} {entry : Path}
    {source : Text} {w : Walk} {cache : Option Cache}
    (hwalk : Walk.fromSource (k.setting a.files) budget (some a.cache) entry source =
      some (w, cache)) :
    ∀ e ∈ w.index.entries, ∃ content : Except FileError Text,
      content.map Sha256.ofText =
        ((k.setting a.files).contentOf (a.files.cwd.absoluteFrom entry) source e.1).map
          Sha256.ofText ∧
      List.Forall₂ (a.IsRecord k e.1) (importsIn content) e.2 := by
  have hsound := sound_of_reaches (fun _ _ _ _ _ _ => trivial) (fun _ _ => trivial) h
  intro e he
  have hcwd : (k.setting a.files).fs.cwd = a.files.cwd := rfl
  have hrecords := (hsound.records trivial hwalk).1 e he
  rw [hcwd] at hrecords
  generalize (k.setting a.files).contentOf (a.files.cwd.absoluteFrom entry) source e.1 = content
    at hrecords ⊢
  rcases hrecords with hfresh | ⟨text, rfl, hrecalled⟩
  · refine ⟨content, rfl, ?_⟩
    rw [hfresh, freshOf, List.forall₂_map_right_iff, List.forall₂_same]
    exact fun i _ => .inl rfl
  · obtain ⟨past, hdigest, hpast⟩ :=
      records_of_recalled hsteady (fun past hpast => (hsound.walked past hpast).2) hrecalled
    exact ⟨.ok past, congrArg Except.ok hdigest, hpast⟩

/-- A stylesheet of a search path. -/
def libraryFiles : Memory := .ofTexts "/p" [("/lib/a.styl", "a\n")]

def libraryWalker : Walker := .searching [⟨"/lib".toList⟩] []

/-- The stylesheet is imported, and then one of the same name is created beside the entry. -/
def hidingSession : Session :=
  .after libraryWalker libraryFiles (libraryFiles.add ⟨"/p/a.styl".toList⟩ (Text.utf8 "b\n"))
    ⟨"main.styl".toList⟩ "@import 'a'"

theorem reaches_hidingSession :
    libraryWalker.Reaches Memory.Creates Set.univ (.start libraryFiles) hidingSession :=
  reaches_after trivial (.create _ (by decide +kernel))

theorem records_of_creates_hiding : ∃ w cache,
    libraryWalker.resolvers.file.IsSteady ∧
    libraryWalker.Reaches Memory.Creates Set.univ (.start libraryFiles) hidingSession ∧
    Walk.fromSource (libraryWalker.setting hidingSession.files) 9 (some hidingSession.cache)
      ⟨"main.styl".toList⟩ "@import 'a'" = some (w, cache) ∧
    ∀ e ∈ w.index.entries, ∃ content : Except FileError Text,
      content.map Sha256.ofText =
        ((libraryWalker.setting hidingSession.files).contentOf
          (hidingSession.files.cwd.absoluteFrom ⟨"main.styl".toList⟩) "@import 'a'" e.1).map
            Sha256.ofText ∧
      List.Forall₂ (hidingSession.IsRecord libraryWalker e.1) (importsIn content) e.2 := by
  have hsteady := RequestTable.isSteady_resolver ⟨[]⟩
  have hends : (Walk.fromSource (libraryWalker.setting hidingSession.files) 9
      (some hidingSession.cache) ⟨"main.styl".toList⟩ "@import 'a'").isSome = true := by
    decide +kernel
  obtain ⟨⟨w, cache⟩, hwalk⟩ := Option.isSome_iff_exists.1 hends
  exact ⟨w, cache, hsteady, reaches_hidingSession, hwalk,
    records_of_creates hsteady reaches_hidingSession hwalk⟩

/-- The walk with the shared cache records the stylesheet of the search path, and one without a
cache that beside the entry. -/
theorem not_records_of_creates : ∃ w cache cached kept,
    libraryWalker.Reaches Memory.Creates Set.univ (.start libraryFiles) hidingSession ∧
    Walk.fromSource (libraryWalker.setting hidingSession.files) 9 none
      ⟨"main.styl".toList⟩ "@import 'a'" = some (w, cache) ∧
    Walk.fromSource (libraryWalker.setting hidingSession.files) 9 (some hidingSession.cache)
      ⟨"main.styl".toList⟩ "@import 'a'" = some (cached, kept) ∧
    w.index.lookup ⟨"/p/main.styl".toList⟩ ⟨1, 1⟩ "a" =
      some ⟨⟨1, 1⟩, "a", .single ⟨"/p/a.styl".toList⟩⟩ ∧
    cached.index.lookup ⟨"/p/main.styl".toList⟩ ⟨1, 1⟩ "a" =
      some ⟨⟨1, 1⟩, "a", .single ⟨"/lib/a.styl".toList⟩⟩ := by
  have hfresh : (Walk.fromSource (libraryWalker.setting hidingSession.files) 9 none
      ⟨"main.styl".toList⟩ "@import 'a'").map
        (fun outcome => outcome.1.index.lookup ⟨"/p/main.styl".toList⟩ ⟨1, 1⟩ "a") =
      some (some ⟨⟨1, 1⟩, "a", .single ⟨"/p/a.styl".toList⟩⟩) := by decide +kernel
  have hcached : (Walk.fromSource (libraryWalker.setting hidingSession.files) 9
      (some hidingSession.cache) ⟨"main.styl".toList⟩ "@import 'a'").map
        (fun outcome => outcome.1.index.lookup ⟨"/p/main.styl".toList⟩ ⟨1, 1⟩ "a") =
      some (some ⟨⟨1, 1⟩, "a", .single ⟨"/lib/a.styl".toList⟩⟩) := by decide +kernel
  obtain ⟨⟨w, cache⟩, hwalk, hrecord⟩ := Option.map_eq_some_iff.1 hfresh
  obtain ⟨⟨cached, kept⟩, hagain, hold⟩ := Option.map_eq_some_iff.1 hcached
  exact ⟨w, cache, cached, kept, reaches_hidingSession, hwalk, hagain, hrecord, hold⟩

end Session

end StyleImports
