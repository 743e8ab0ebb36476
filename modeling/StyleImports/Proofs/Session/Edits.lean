import Mathlib.Data.Set.Operations
import StyleImports.Proofs.Graph.Plain
import StyleImports.Proofs.Graph.Static
import StyleImports.Proofs.Session.Basic
import StyleImports.Proofs.Session.Changes
import StyleImports.Proofs.Walk.Transparent

/-!
# Sessions in which files are edited and removed

While files are only edited and removed, and manifests are left alone, what a cache serves is what
the imports come to now (`Recalled.eq_fresh`): of the files that a lookup tried before the one that
it found none has come, and that one is still there. So a walk comes to the same with the cache of
the session and without one (`Session.walk_of_uncached`).
-/

set_option autoImplicit false

namespace StyleImports

open Setting (importsIn)
open Walk (freshOf)

variable {k : Walker} {T : Set Text} {file : Path}

/-- A static import has the same record after files were edited and removed, if all that it led to
is left. -/
theorem Walker.record_of_reduced {past now : Memory} (h : past.Reduced now)
    (hplain : past.Lacks '\\') (hsigns : ∀ c ∈ Glob.openings, past.Lacks c) {i : Sheet.Import}
    (hstatic : Glob.isDynamic i.specifier = false)
    (hderived : ¬ Lookup.DerivesPattern i.specifier)
    (hlive : ∀ p ∈ ((k.setting past).resolve file i).dependency.target.paths,
      now.fileSystem.isFile p = true) :
    ((k.setting now).resolve file i).dependency =
      ((k.setting past).resolve file i).dependency := by
  refine Setting.record_of_lookup (s := k.setting past) hstatic fun hmodule => ?_
  have hlookup : Lookup.IsStatic ⟨past.fileSystem, k.options.paths⟩ i.specifier file :=
    Lookup.isStatic_of_memory hsigns hstatic hderived file
  refine Lookup.resolve_of_fewer h.fewer hlookup ?manifest ?left
  case manifest =>
    intro found hfound p hp
    obtain ⟨hfile, hread⟩ := h.manifest_eq (Lookup.fileName?_of_find hfound hp)
    obtain ⟨path, rfl, hthere⟩ := Lookup.find_of_static hlookup.manifest hfound
    rw [List.mem_singleton.1 hp] at hfile hread ⊢
    exact ⟨hfile.trans hthere, hread⟩
  case left =>
    intro found hfound p hp
    refine hlive p ?_
    -- What is found is reported under its own path, so the cache asks for the right file.
    rw [Setting.paths_of_lookup (Setting.isPattern_of_static hstatic) hmodule hfound,
      Lookup.map_asDependency (Memory.isPlain_fileSystem hplain) hfound]
    exact hp

section
variable (hsteady : k.resolvers.file.IsSteady) (hdigest : Set.InjOn Sha256.ofText T)
  (hderived : ∀ t ∈ T, ∀ i ∈ importsIn (.ok t), Glob.isDynamic i.specifier = false →
    ¬ Lookup.DerivesPattern i.specifier)
include hsteady hdigest hderived

/-- What is recalled is what the imports come to, if files were edited and removed since. -/
theorem Recalled.eq_fresh {memories : List Memory} {now : Memory} {text : Text}
    {dependencies : List Dependency}
    (h : Recalled k T memories now.fileSystem file text dependencies)
    (hreduced : ∀ past ∈ memories, past.Reduced now)
    (hplain : ∀ past ∈ memories, past.Lacks '\\')
    (hsigns : ∀ past ∈ memories, ∀ c ∈ Glob.openings, past.Lacks c) (htext : text ∈ T) :
    dependencies = freshOf (k.setting now) file (importsIn (.ok text)) := by
  obtain ⟨past, hpast, pastText, hpastText, hsame, heq, hfound⟩ := h.exists_past hsteady
  have hsameText : pastText = text := hdigest hpastText htext hsame
  subst hsameText
  rw [heq, freshOf, freshOf]
  refine List.map_congr_left fun i hi => ?_
  obtain ⟨hstatic, _, hlive⟩ := hfound i hi
  exact (Walker.record_of_reduced (hreduced past hpast) (hplain past hpast) (hsigns past hpast)
    hstatic (hderived pastText hpastText i hi hstatic) hlive).symm

/-- In a session of edits and removals, a walk that ends without a cache ends with the shared one,
and it comes to the same. -/
theorem Session.walk_of_uncached {m : Memory} (hplain : m.Lacks '\\')
    (hsigns : ∀ c ∈ Glob.openings, m.Lacks c) (htexts : ∀ t ∈ m.texts, t ∈ T) {a : Session}
    (h : k.Reaches (Memory.Reduces T) T (.start m) a) {budget : Nat} {entry : Path}
    {source : Text} (hsource : source ∈ T) {w : Walk} {cache : Option Cache}
    (hwalk : Walk.fromSource (k.setting a.files) budget none entry source = some (w, cache)) :
    ∃ kept, Walk.fromSource (k.setting a.files) budget (some a.cache) entry source =
      some (w, some kept) := by
  have hsound := sound_of_reaches (fun _ _ => Memory.texts_of_reduces) htexts h
  have hpast : ∀ past ∈ a.files :: a.walked, m.Reduced past ∧ past.Reduced a.files := by
    intro past hpast
    rcases List.mem_cons.1 hpast with rfl | hpast
    · exact ⟨Memory.reduced_of_reduces hsound.files, .refl _⟩
    · obtain ⟨hbefore, hafter⟩ := hsound.walked past hpast
      exact ⟨Memory.reduced_of_reduces hbefore, Memory.reduced_of_reduces hafter⟩
  have hlacks : ∀ c, c ≠ '/' → c ≠ '.' → m.Lacks c → ∀ past ∈ a.files :: a.walked, past.Lacks c :=
    fun c hslash hdot hc past hmem => (hpast past hmem).1.lacks c hslash hdot hc
  have hopenings : ∀ c ∈ Glob.openings, c ≠ '/' ∧ c ≠ '.' :=
    Glob.forall_openings.2 (by decide)
  have htransparent : Walk.Transparent (k.setting a.files) T
      fun cache => cache.IsFilled k T (a.files :: a.walked) := by
    refine ⟨fun p text hread => hsound.texts text (Memory.mem_texts hread), ?_⟩
    intro file text cache dependencies cache' htext hfilled hrecorded
    obtain ⟨hrecords, hkept⟩ := hfilled.recorded List.mem_cons_self htext hrecorded
    refine ⟨hrecords.elim id fun hrecalled => ?_, hkept⟩
    exact hrecalled.eq_fresh hsteady hdigest hderived (fun past hmem => (hpast past hmem).2)
      (hlacks '\\' (by decide) (by decide) hplain)
      (fun past hmem c hc => hlacks c (hopenings c hc).1 (hopenings c hc).2 (hsigns c hc) past hmem)
      htext
  obtain ⟨kept, _, hcached⟩ := Walk.fromSource_of_transparent htransparent hsource
    (hsound.cache.cons a.files) hwalk
  exact ⟨kept, hcached⟩

end

/-- The texts of a list. -/
def Text.among (texts : List Text) : Set Text := fun t => t ∈ texts

instance (texts : List Text) (t : Text) : Decidable (t ∈ Text.among texts) :=
  inferInstanceAs (Decidable (t ∈ texts))

instance (texts : List Text) (P : Text → Prop) [DecidablePred P] :
    Decidable (∀ t ∈ Text.among texts, P t) :=
  inferInstanceAs (Decidable (∀ t ∈ texts, P t))

theorem Text.injOn_among {texts : List Text} (h : (texts.map Sha256.ofText).Nodup) :
    Set.InjOn Sha256.ofText (among texts) := fun _ hs _ ht => List.inj_on_of_nodup_map h hs ht

/-! ## A stylesheet that hides another one -/

def shadowedFiles : Memory := .ofTexts "/p" [("/p/a.styl", "a\n"), ("/lib/a.styl", "b\n")]

def shadowedWalker : Walker := .searching [⟨"/lib".toList⟩] []

def shadowedSource : Text := "@import 'a'"

abbrev shadowedTexts : Set Text := Text.among [shadowedSource, "a\n", "b\n"]

def shadowedSession : Session :=
  .after shadowedWalker shadowedFiles (shadowedFiles.remove ⟨"/p/a.styl".toList⟩)
    ⟨"main.styl".toList⟩ shadowedSource

/-- The stylesheet beside the entry is removed, and that of the search path is found instead. -/
theorem Session.walk_of_uncached_shadowed : ∃ w cache kept,
    shadowedWalker.resolvers.file.IsSteady ∧ Set.InjOn Sha256.ofText shadowedTexts ∧
    shadowedWalker.Reaches (Memory.Reduces shadowedTexts) shadowedTexts
      (.start shadowedFiles) shadowedSession ∧
    Walk.fromSource (shadowedWalker.setting shadowedSession.files) 9 none
      ⟨"main.styl".toList⟩ shadowedSource = some (w, cache) ∧
    Walk.fromSource (shadowedWalker.setting shadowedSession.files) 9 (some shadowedSession.cache)
      ⟨"main.styl".toList⟩ shadowedSource = some (w, some kept) := by
  have hsteady := RequestTable.isSteady_resolver ⟨[]⟩
  have hdigest : Set.InjOn Sha256.ofText shadowedTexts :=
    Text.injOn_among (by decide +kernel)
  have hderived : ∀ t ∈ shadowedTexts, ∀ i ∈ importsIn (.ok t),
      Glob.isDynamic i.specifier = false → ¬ Lookup.DerivesPattern i.specifier := by
    decide +kernel
  have hreaches : shadowedWalker.Reaches (Memory.Reduces shadowedTexts)
      shadowedTexts (.start shadowedFiles) shadowedSession :=
    reaches_after (by decide) (.remove (by decide +kernel))
  have hends : (Walk.fromSource (shadowedWalker.setting shadowedSession.files) 9 none
      ⟨"main.styl".toList⟩ shadowedSource).isSome = true := by decide +kernel
  obtain ⟨⟨w, cache⟩, hwalk⟩ := Option.isSome_iff_exists.1 hends
  obtain ⟨kept, hcached⟩ := walk_of_uncached hsteady hdigest hderived (m := shadowedFiles)
    (by decide +kernel) (Glob.forall_openings.2 (by decide +kernel)) (by decide +kernel) hreaches
    (by decide) hwalk
  exact ⟨w, cache, kept, hsteady, hdigest, hreaches, hwalk, hcached⟩

/-! ## A stylesheet that is reported under the path of another one -/

/-- Two stylesheets; the name of one holds a backslash, and the other one has the path that the
first is reported under. -/
def slashedFiles : Memory := .ofTexts "/p" [("/p/a\\b.styl", "a\n"), ("/p/a/b.styl", "b\n")]

def slashedWalker : Walker := .searching [] []

def slashedSource : Text := "@import 'a\\\\b'\n"

abbrev slashedTexts : Set Text := Text.among [slashedSource, "a\n", "b\n"]

def slashedSession : Session :=
  .after slashedWalker slashedFiles (slashedFiles.remove ⟨"/p/a\\b.styl".toList⟩)
    ⟨"/p/main.styl".toList⟩ slashedSource

/-- The imported file is removed, and the other one keeps the entry of the cache alive. -/
theorem Session.not_walk_of_uncached :
    slashedWalker.resolvers.file.IsSteady ∧ Set.InjOn Sha256.ofText slashedTexts ∧
    (∀ c ∈ Glob.openings, slashedFiles.Lacks c) ∧
    slashedWalker.Reaches (Memory.Reduces slashedTexts) slashedTexts (.start slashedFiles)
      slashedSession ∧
    slashedSession.IsStale slashedWalker ⟨"/p/main.styl".toList⟩ slashedSource :=
  ⟨RequestTable.isSteady_resolver ⟨[]⟩, Text.injOn_among (by decide +kernel),
    Glob.forall_openings.2 (by decide +kernel),
    reaches_after (by decide) (.remove (by decide +kernel)),
    isStale_of_contains ⟨"/p/a/b.styl".toList⟩ false (by decide +kernel) (by decide +kernel)⟩

/-! ## A pattern that the cache takes for a static import -/

/-- A file that is the directory of the entry too, a stylesheet in it, and one that the resolver
answers with. -/
def derivedFiles : Memory :=
  .ofTexts "/w" [("/p", "x"), ("/p/foo,.styl", "a\n"), ("/lib/x.styl", "b\n")]

def derivedWalker : Walker :=
  .searching [] [("./\x7d\x7b,]", [⟨"/lib/x.styl".toList⟩])]

def derivedSource : Text := "@import '\x7d\x7b,]'\n"

abbrev derivedTexts : Set Text := Text.among [derivedSource, "x", "a\n", "b\n"]

def derivedSession : Session :=
  .after derivedWalker derivedFiles (derivedFiles.remove ⟨"/p".toList⟩)
    ⟨"/p/*[/main.styl".toList⟩ derivedSource

/-- The static specifier derives a pattern, which matches another file once `/p` is a directory. -/
theorem Session.not_walk_of_uncached_derived :
    derivedWalker.resolvers.file.IsSteady ∧ Set.InjOn Sha256.ofText derivedTexts ∧
    derivedFiles.Lacks '\\' ∧ (∀ c ∈ Glob.openings, derivedFiles.Lacks c) ∧
    derivedWalker.Reaches (Memory.Reduces derivedTexts) derivedTexts (.start derivedFiles)
      derivedSession ∧
    derivedSession.IsStale derivedWalker ⟨"/p/*[/main.styl".toList⟩ derivedSource :=
  ⟨RequestTable.isSteady_resolver _, Text.injOn_among (by decide +kernel), by decide +kernel,
    Glob.forall_openings.2 (by decide +kernel),
    reaches_after (by decide) (.remove (by decide +kernel)),
    isStale_of_contains ⟨"/p/foo,.styl".toList⟩ true (by decide +kernel) (by decide +kernel)⟩

end StyleImports
