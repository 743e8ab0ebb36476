import StyleImports.Proofs.Glob.Exact
import StyleImports.Proofs.Glob.Split
import StyleImports.Proofs.Lookup.Spelling
import StyleImports.Proofs.Path.Below

/-!
# Where dynamic specifiers are looked up

A specifier is written for the directories that its base leads to from those where imports are
looked up, or for the directory in front of its pattern if it is absolute (`Lookup.Region`). What it
names lies below one of them, and whether a file matches depends on the pattern alone
(`Lookup.isBelow_of_find`).

The pattern is cut off only after the whole path has been cleaned. So this holds as long as no name
on the way to these directories is taken for a part of the pattern, none of them is the root
(`Glob.KeepsPattern`), and the pattern does not climb out of its directory (`Glob.StaysBelow`). With
a directory `v[1]` it does not (`Lookup.not_isBelow_of_find`).
-/

set_option autoImplicit false

namespace StyleImports

namespace FileSystem

variable {fs : FileSystem} {dir p : Path}

/-- What directories list can stand as names in a path. -/
def ListsNames (fs : FileSystem) : Prop :=
  ∀ dir listed, fs.list dir = .ok listed → ∀ n ∈ listed, (Part.name n).IsName

theorem ListsNames.exists_parts (h : fs.ListsNames) (hbelow : fs.ListsBelow dir p) :
    ∃ names, names ≠ [] ∧ (∀ part ∈ names, part.IsName) ∧ p.parts = dir.parts ++ names := by
  have hstep : ∀ {dir p : Path}, fs.Lists dir p →
      ∃ part : Part, part.IsName ∧ p.parts = dir.parts ++ [part] := by
    rintro _ _ ⟨hlist, hn⟩
    have hname := h _ _ hlist _ hn
    exact ⟨_, hname, Path.parts_join_name hname _⟩
  induction hbelow with
  | single hlists =>
    obtain ⟨part, hname, hparts⟩ := hstep hlists
    exact ⟨[part], List.cons_ne_nil _ _, List.forall_mem_singleton.2 hname, hparts⟩
  | tail _ hlists ih =>
    obtain ⟨names, -, hnames, hparts⟩ := ih
    obtain ⟨part, hname, hmore⟩ := hstep hlists
    refine ⟨names ++ [part], by simp, fun q hq => ?_, by rw [hmore, hparts, List.append_assoc]⟩
    exact (List.mem_append.1 hq).elim (hnames q) fun hq => List.mem_singleton.1 hq ▸ hname

end FileSystem

theorem Memory.IsPlaced.listsNames {m : Memory} (h : m.IsPlaced) (hcwd : m.cwd.isAbsolute = true) :
    m.fileSystem.ListsNames :=
  fun _ _ hlist _ hn => h.isName_of_list hcwd hlist hn

theorem Disk.IsNamed.listsNames {d : Disk} (h : d.IsNamed) : d.fileSystem.ListsNames :=
  fun _ _ hlist _ hn => (h.walk_of_list hlist hn).2

/-! ## Patterns -/

namespace Glob

/-- Cleaned, a pattern consists of names: it does not lead out of the directory it is seen from. -/
def StaysBelow (pattern : Text) : Prop := ∀ part ∈ (Path.clean ⟨pattern⟩).parts, part.IsName

instance (pattern : Text) : Decidable (StaysBelow pattern) :=
  inferInstanceAs (Decidable (∀ part ∈ (Path.clean ⟨pattern⟩).parts, part.IsName))

namespace StaysBelow

variable {pattern : Text}

theorem parts_clean (h : StaysBelow pattern) :
    (Path.clean ⟨pattern⟩).parts = Path.cleanParts (Path.mk pattern).parts := by
  rw [Path.parts_clean]
  split
  case isTrue hnil =>
    have hhere := h .here (by rw [Path.parts_clean, if_pos hnil]; exact List.mem_cons_self)
    cases hhere
  case isFalse => rfl

theorem isAbsolute (h : StaysBelow pattern) : (Path.mk pattern).isAbsolute = false := by
  rw [Bool.eq_false_iff]
  intro habsolute
  exact h .root (Path.isAbsolute_iff_parts.1 (Path.isAbsolute_clean habsolute))

/-- Joined to a directory and cleaned, a pattern adds its cleaned parts. -/
theorem cleanParts_join (h : StaysBelow pattern) (base : Path) :
    Path.cleanParts (base.join ⟨pattern⟩).parts =
      Path.cleanParts base.parts ++ (Path.clean ⟨pattern⟩).parts := by
  by_cases hbase : base = ⟨[]⟩
  · rw [hbase, Path.join_nil, h.parts_clean]
    rfl
  · have htext : base.text ≠ [] := fun hnil => hbase (congrArg Path.mk hnil)
    have hbody := h.parts_clean.trans (Path.cleanParts_of_relative h.isAbsolute)
    rw [Path.parts_join htext h.isAbsolute, hbody]
    exact Path.cleanParts_append_of_names (fun part hpart => Path.isSegment_of_mem_body hpart)
      (hbody ▸ h) _

/-- Joined to what is in front of it, a pattern spells the whole again. -/
theorem join_eq (h : StaysBelow pattern) {front : Text}
    (hfront : front = [] ∨ front.getLast? = some '/') :
    (Path.mk front).join ⟨pattern⟩ = ⟨front ++ pattern⟩ := by
  rw [Path.join, h.isAbsolute, if_neg Bool.false_ne_true, if_pos (by simpa using hfront)]

end StaysBelow

/-! ## Cuts of joined paths -/

/-- A directory other than the root without dynamic names. A pattern joined to it is cut off where
it begins. -/
structure KeepsPattern (dir : Path) : Prop where
  notRoot : dir.parts ≠ [.root]
  static : ∀ part ∈ dir.parts, isDynamic part.text = false

theorem KeepsPattern.cleanParts {dir : Path} (h : KeepsPattern dir.clean) :
    Path.cleanParts dir.clean.parts ≠ [.root] ∧
      ∀ part ∈ Path.cleanParts dir.clean.parts, isDynamic part.text = false := by
  obtain ⟨hroot, hstatic⟩ := h
  rw [Path.cleanParts_clean]
  rw [Path.parts_clean] at hroot hstatic
  split at hroot
  case isTrue hnil =>
    rw [hnil]
    exact ⟨nofun, nofun⟩
  case isFalse hne =>
    rw [if_neg hne] at hstatic
    exact ⟨hroot, hstatic⟩

theorem splitOn_of_names {names : List Part} (hnames : ∀ part ∈ names, part.IsName)
    (hne : names ≠ []) :
    Text.splitOn '/' (Path.ofParts names).text = names.map Path.segmentText :=
  Path.splitOn_ofParts (Path.spelled_of_isSegment fun part hpart => (hnames part hpart).isSegment)
    hne (Path.append_names_ne_root hnames hne [])

theorem Cut.exists_names {names : List Part} {front more : List Text} {next : Text}
    (h : Cut (Path.ofParts names).text front next more) (hnames : ∀ part ∈ names, part.IsName)
    (hne : names ≠ []) :
    ∃ first : List Part, front = first.map Path.segmentText ∧
      ∀ part ∈ first, part.IsName := by
  have hsegments := (splitOn_of_names hnames hne).symm.trans h.segments
  obtain ⟨first, rest, rfl, hfirst, -⟩ := List.map_eq_append_iff.1 hsegments
  exact ⟨first, hfirst.symm, fun part hpart => hnames part (List.mem_append_left rest hpart)⟩

/-- The segments of a directory without dynamic names go to the front of a cut. -/
theorem Cut.ofParts_append {done names : List Part} {front more : List Text} {next : Text}
    (h : Cut (Path.ofParts names).text front next more) (hdone : Path.Spelled done)
    (hnames : ∀ part ∈ names, part.IsName) (hne : names ≠ [])
    (hstatic : ∀ part ∈ done, isDynamic part.text = false) :
    Cut (Path.ofParts (done ++ names)).text (done.map Path.segmentText ++ front) next more := by
  refine ⟨?_, fun segment hsegment => ?_, h.stops⟩
  · have hspelled := hdone.append fun part hpart => (hnames part hpart).isSegment
    rw [Path.splitOn_ofParts hspelled (List.append_ne_nil_of_right_ne_nil _ hne)
      (Path.append_names_ne_root hnames hne done), List.map_append, ← splitOn_of_names hnames hne,
      h.segments, List.append_assoc]
  · rcases List.mem_append.1 hsegment with hsegment | hsegment
    · obtain ⟨part, hpart, rfl⟩ := List.mem_map.1 hsegment
      cases part with
      | root => rfl
      | _ => exact hstatic _ hpart
    · exact h.static segment hsegment

/-- The text of a list of parts, other than the root, as the base of a pattern. -/
theorem clean_baseOf {ps : List Part} (h : Path.Spelled ps) (hroot : ps ≠ [.root]) :
    Path.clean ⟨baseOf (ps.map Path.segmentText)⟩ = (Path.ofParts ps).clean := by
  rw [baseOf, ← Path.text_ofParts h hroot]
  split
  case isTrue hnil =>
    have hps : Path.ofParts ps = ⟨[]⟩ := congrArg Path.mk hnil
    rw [hps]
    rfl
  case isFalse => rfl

theorem cleanParts_join_baseOf {names : List Part} (hnames : ∀ part ∈ names, part.IsName)
    {dir : Path} (hdir : dir.text ≠ []) :
    Path.cleanParts (dir.join ⟨baseOf (names.map Path.segmentText)⟩).parts =
      Path.cleanParts dir.parts ++ names := by
  by_cases hnil : names = []
  · rw [hnil, Path.parts_join hdir rfl, List.append_nil]
    exact congrArg Path.cleanParts (List.append_nil _)
  · have hbase : (Path.clean ⟨baseOf (names.map Path.segmentText)⟩).parts = names := by
      have hspelled := Path.spelled_of_isSegment fun part hpart => (hnames part hpart).isSegment
      rw [clean_baseOf hspelled (Path.append_names_ne_root hnames hnil []), Path.parts_clean,
        Path.parts_ofParts hspelled, Path.cleanParts_of_names hnames, if_neg hnil]
    have hbelow : StaysBelow (baseOf (names.map Path.segmentText)) := by
      rw [StaysBelow, hbase]
      exact hnames
    rw [hbelow.cleanParts_join, hbase]

/-- In front of the cut of a pattern that stays below there are names. -/
theorem StaysBelow.exists_cut {pattern : Text} (h : StaysBelow pattern) :
    ∃ (names : List Part) (next : Text) (more : List Text), (∀ part ∈ names, part.IsName) ∧
      Cut (Path.clean ⟨pattern⟩).text (names.map Path.segmentText) next more := by
  obtain ⟨front, next, more, hcut⟩ := Glob.exists_cut (Path.clean ⟨pattern⟩).text
  have hown : Path.ofParts (Path.clean ⟨pattern⟩).parts = Path.clean ⟨pattern⟩ :=
    Path.isCanonical_clean _
  have hfront := hcut
  rw [← hown] at hfront
  obtain ⟨names, rfl, hnames⟩ := hfront.exists_names h (Path.parts_clean_ne_nil _)
  exact ⟨names, next, more, hnames, hcut⟩

/-- Joined to a directory that keeps patterns and cleaned, a pattern is cut as it is by itself, its
base seen from that directory. -/
theorem ofSpecifier_join {dir : Path} {pattern : Text} (h : StaysBelow pattern)
    (hdir : KeepsPattern dir.clean) :
    (ofSpecifier (dir.clean.join ⟨pattern⟩).clean.text).pattern =
        (ofSpecifier (Path.clean ⟨pattern⟩).text).pattern ∧
      Path.clean ⟨(ofSpecifier (dir.clean.join ⟨pattern⟩).clean.text).base⟩ =
        (dir.clean.join ⟨(ofSpecifier (Path.clean ⟨pattern⟩).text).base⟩).clean := by
  have hparts := h.cleanParts_join dir.clean
  have hcleaned := Path.cleaned_cleanParts dir.clean.spelled_parts
  have hspelled := Path.spelled_of_cleaned hcleaned
  have hne := Path.parts_clean_ne_nil ⟨pattern⟩
  have hown : Path.ofParts (Path.clean ⟨pattern⟩).parts = Path.clean ⟨pattern⟩ :=
    Path.isCanonical_clean _
  have hpath : (dir.clean.join ⟨pattern⟩).clean = Path.ofParts _ :=
    Path.clean_eq_ofParts (hparts ▸ List.append_ne_nil_of_right_ne_nil _ hne)
  obtain ⟨hroot, hstatic⟩ := hdir.cleanParts
  obtain ⟨names, next, more, hnames, hcut⟩ := h.exists_cut
  have hjoined := (hown.symm ▸ hcut).ofParts_append hspelled h hne hstatic
  rw [hpath, hparts, hjoined.ofSpecifier_eq, hcut.ofSpecifier_eq]
  refine ⟨rfl, ?_⟩
  -- Both bases are the parts of the directory and the names in front of the cut.
  have hnotRoot : Path.cleanParts dir.clean.parts ++ names ≠ [.root] := by
    by_cases hnil : names = []
    · rw [hnil, List.append_nil]
      exact hroot
    · exact Path.append_names_ne_root hnames hnil _
  have hall := hspelled.append fun part hpart => (hnames part hpart).isSegment
  rw [← List.map_append, clean_baseOf hall hnotRoot]
  refine Path.clean_of_cleanParts ?_
  rw [Path.parts_ofParts hall, Path.cleanParts_append_names hnames,
    Path.cleanParts_of_cleaned hcleaned,
    cleanParts_join_baseOf hnames (Path.text_ne_nil_of_parts (Path.parts_clean_ne_nil dir))]

theorem StaysBelow.exists_names_base {dir : Path} {pattern : Text} (h : StaysBelow pattern)
    (hdir : dir.text ≠ []) : ∃ names : List Part, (∀ part ∈ names, part.IsName) ∧
      Path.cleanParts (dir.join ⟨(ofSpecifier (Path.clean ⟨pattern⟩).text).base⟩).parts =
        Path.cleanParts dir.parts ++ names := by
  obtain ⟨names, next, more, hnames, hcut⟩ := h.exists_cut
  rw [hcut.ofSpecifier_eq]
  exact ⟨names, hnames, cleanParts_join_baseOf hnames hdir⟩

/-- The pattern of a specifier, cleaned: what stands before its first dynamic segment then is a base
of its own. -/
def cleaned (specifier : Text) : Glob :=
  ofSpecifier (Path.clean ⟨(ofSpecifier specifier).pattern⟩).text

/-- What stands in front of the pattern of a specifier is nothing, or the segments of the base and
a slash. -/
theorem exists_front (s : Text) : ∃ front next more, Cut s front next more ∧
    (front = [] ∧ s = (ofSpecifier s).pattern ∨
      front ≠ [] ∧ s = Text.joinWith '/' front ++ '/' :: (ofSpecifier s).pattern) := by
  obtain ⟨front, next, more, hcut⟩ := exists_cut s
  refine ⟨front, next, more, hcut, ?_⟩
  rw [hcut.ofSpecifier_eq]
  by_cases hfront : front = []
  · refine .inl ⟨hfront, ?_⟩
    conv_lhs => rw [hcut.eq_joinWith, hfront]
    rfl
  · refine .inr ⟨hfront, ?_⟩
    conv_lhs => rw [hcut.eq_joinWith]
    exact Text.joinWith_append hfront (List.cons_ne_nil next more)

end Glob

/-! ## Lookups -/

namespace Lookup

variable {l : Lookup} {specifier : Text} {file path p : Path} {found : List Path}

/-- The directories that a specifier is written for: what is in front of the pattern of an absolute
one, and what the base of any other leads to from where it is looked up. -/
inductive Region (l : Lookup) (specifier : Text) (file : Path) : Path → Prop where
  | absolute {front : Text} : Specifier.isAbsolute specifier = true →
      specifier = front ++ (Glob.ofSpecifier specifier).pattern →
      Region l specifier file (Path.clean ⟨front⟩)
  | joined {dir : Path} : Specifier.isAbsolute specifier = false → dir ∈ l.directories file →
      Region l specifier file (dir.join ⟨(Glob.ofSpecifier specifier).base⟩).clean

theorem ne_nil_of_relative {front pattern : Text}
    (h : Specifier.isAbsolute (front ++ '/' :: pattern) = false)
    (hpattern : (Path.mk pattern).isAbsolute = false) : front ≠ [] := by
  rintro rfl
  cases pattern with
  | nil => cases h
  | cons c pattern =>
    have hc : c ≠ '/' := by simpa [Path.isAbsolute] using hpattern
    simp only [Specifier.isAbsolute, Specifier.isSchemeRelative] at h
    simp [Ne.symm hc] at h

/-- A specifier is looked up at its pattern, seen from one of its directories. -/
theorem Candidate.exists_region (h : l.Candidate specifier file path)
    (hpattern : Glob.StaysBelow (Glob.ofSpecifier specifier).pattern) :
    ∃ home : Path, l.Region specifier file home.clean ∧
      path.clean = (home.clean.join ⟨(Glob.ofSpecifier specifier).pattern⟩).clean := by
  obtain ⟨front, next, more, hcut, hfront⟩ := Glob.exists_front specifier
  -- Cleaning the home changes nothing about what is joined to it.
  suffices hhome : ∃ home : Path, l.Region specifier file home.clean ∧
      path.clean = (home.join ⟨(Glob.ofSpecifier specifier).pattern⟩).clean by
    obtain ⟨home, hregion, hpath⟩ := hhome
    exact ⟨home, hregion, hpath.trans (home.clean_join_clean _).symm⟩
  cases h with
  | absolute habsolute =>
    rcases hfront with ⟨-, hs⟩ | ⟨-, hs⟩
    · refine ⟨⟨[]⟩, .absolute habsolute hs, ?_⟩
      rw [hpattern.join_eq (.inl rfl)]
      exact congrArg (fun t => (Path.mk t).clean) hs
    · rw [List.append_cons] at hs
      refine ⟨⟨Text.joinWith '/' front ++ ['/']⟩, .absolute habsolute hs, ?_⟩
      rw [hpattern.join_eq (.inr (by simp))]
      exact congrArg (fun t => (Path.mk t).clean) hs
  | @joined dir hrelative hdir =>
    refine ⟨_, .joined hrelative hdir, ?_⟩
    obtain ⟨q, rfl⟩ := exists_clean_of_mem_directories hdir
    have htext := Path.text_ne_nil_of_parts (Path.parts_clean_ne_nil q)
    have hbase : (Glob.ofSpecifier specifier).base = Glob.baseOf front := by
      rw [hcut.ofSpecifier_eq]
    rw [hbase]
    generalize (Glob.ofSpecifier specifier).pattern = pattern at hfront hpattern
    rcases hfront with ⟨rfl, rfl⟩ | ⟨hne, rfl⟩
    · have hnone : ∀ part ∈ ([] : List Part), part.IsName := nofun
      have hdot := Glob.cleanParts_join_baseOf hnone htext
      refine Path.clean_of_cleanParts ?_
      rw [hpattern.cleanParts_join, hpattern.cleanParts_join, ← List.map_nil, hdot, List.append_nil]
    · have hfront := ne_nil_of_relative hrelative hpattern.isAbsolute
      rw [Glob.baseOf, if_neg hfront]
      refine Path.clean_congr (Path.same_iff.2 ?_)
      rw [Path.parts_join_append_slash htext hfront,
        Path.parts_join (Path.text_join_ne_nil htext) hpattern.isAbsolute]

theorem mem_fileAt_matches (h : l.fileAt path specifier = some found) (hp : p ∈ found) :
    p = path.clean ∨ l.fs.ListsBelow (globBase path) p ∧
      Glob.FindsMatch l.fs (globBase path) (Glob.ofSpecifier path.clean.text).pattern p := by
  rcases fileAt_eq_some h with ⟨rfl, -⟩ | hglob
  · exact .inl (List.mem_singleton.1 hp)
  · obtain ⟨-, -, hexpand⟩ := expand_of_globAt hglob
    exact .inr ⟨(Glob.mem_expand hexpand hp).1, Glob.findsMatch_of_expand hexpand hp⟩

/-- If no name on the way to the directories that a specifier is written for is dynamic, none of
them is the root and the pattern does not lead out of them, what it names lies below one of them: at
the pattern taken as a name, or where the pattern, seen from there, matches. -/
theorem isBelow_of_find (hnames : l.fs.ListsNames)
    (hpattern : Glob.StaysBelow (Glob.ofSpecifier specifier).pattern)
    (hregions : ∀ region, l.Region specifier file region → Glob.KeepsPattern region)
    (h : l.find specifier file = some found) (hp : p ∈ found) :
    ∃ region, l.Region specifier file region ∧ p.IsBelow region ∧
      (p = (region.join ⟨(Glob.ofSpecifier specifier).pattern⟩).clean ∨
        Glob.FindsMatch l.fs (region.join ⟨(Glob.cleaned specifier).base⟩).clean
          (Glob.cleaned specifier).pattern p) := by
  obtain ⟨path, hpath, hfound⟩ := exists_fileAt_of_find h
  obtain ⟨home, hregion, hclean⟩ := hpath.exists_region hpattern
  refine ⟨home.clean, hregion, ?_⟩
  have htext := Path.text_ne_nil_of_parts (Path.parts_clean_ne_nil home)
  rcases mem_fileAt_matches hfound hp with rfl | ⟨hbelow, hmatch⟩
  · refine ⟨⟨_, Path.parts_clean_ne_nil _, hpattern, ?_⟩, .inl hclean⟩
    rw [hclean, Path.cleanParts_clean, hpattern.cleanParts_join]
  · obtain ⟨hown, hbase⟩ := Glob.ofSpecifier_join hpattern (hregions _ hregion)
    rw [globBase, hclean, hbase] at hbelow hmatch
    rw [hown] at hmatch
    refine ⟨?_, .inr hmatch⟩
    obtain ⟨names, hne, hbelow, hparts⟩ := hnames.exists_parts hbelow
    obtain ⟨front, hfront, hbaseParts⟩ := hpattern.exists_names_base htext
    refine (Path.isBelow_of_parts hne hbelow hparts).of_append hfront ?_
    rw [Path.cleanParts_clean, hbaseParts]

/-! ## Directories with brackets -/

def versionFiles : Memory :=
  ["/p/v[1]/parts/a.styl", "/p/v1/parts/b.styl"].foldl (fun m file => m.add ⟨file.toList⟩ [])
    (.empty ⟨"/p".toList⟩)

def versionLookup : Lookup := ⟨versionFiles.fileSystem, []⟩

def partsPattern : Text := "parts/*.styl".toList

theorem region_partsPattern {dir region : Path}
    (hdirectories : versionLookup.directories file = [dir])
    (h : versionLookup.Region partsPattern file region) :
    region = (dir.join ⟨"parts".toList⟩).clean := by
  cases h with
  | absolute habsolute => cases habsolute
  | joined _ hmem =>
    rw [hdirectories, List.mem_singleton] at hmem
    rw [hmem]
    rfl

theorem isBelow_of_find_parts :
    versionLookup.find partsPattern ⟨"/p/v1/main.styl".toList⟩ =
      some [⟨"/p/v1/parts/b.styl".toList⟩] ∧
    ∃ region, versionLookup.Region partsPattern ⟨"/p/v1/main.styl".toList⟩ region ∧
      (⟨"/p/v1/parts/b.styl".toList⟩ : Path).IsBelow region := by
  have hplaced : versionFiles.IsPlaced := ((Memory.isPlaced_empty _).add _ _).add _ _
  have hfind : versionLookup.find partsPattern ⟨"/p/v1/main.styl".toList⟩ =
      some [⟨"/p/v1/parts/b.styl".toList⟩] := by
    decide +kernel
  have hregions : ∀ region, versionLookup.Region partsPattern ⟨"/p/v1/main.styl".toList⟩ region →
      Glob.KeepsPattern region := by
    intro region hregion
    have hdirectories : versionLookup.directories ⟨"/p/v1/main.styl".toList⟩ =
        [⟨"/p/v1".toList⟩] := by
      decide +kernel
    rw [region_partsPattern hdirectories hregion]
    exact ⟨by decide +kernel, by decide +kernel⟩
  obtain ⟨region, hregion, hbelow, -⟩ := isBelow_of_find (hplaced.listsNames (by decide))
    (by decide +kernel) hregions hfind List.mem_cons_self
  exact ⟨hfind, region, hregion, hbelow⟩

/-- From a directory `v[1]` a pattern is expanded in the directory `v1`, which the name of the first
matches. -/
theorem not_isBelow_of_find :
    versionLookup.find partsPattern ⟨"/p/v[1]/main.styl".toList⟩ =
      some [⟨"/p/v1/parts/b.styl".toList⟩] ∧
    ∀ region, versionLookup.Region partsPattern ⟨"/p/v[1]/main.styl".toList⟩ region →
      ¬ (⟨"/p/v1/parts/b.styl".toList⟩ : Path).IsBelow region := by
  refine ⟨by decide +kernel, fun region hregion hbelow => ?_⟩
  have hdirectories : versionLookup.directories ⟨"/p/v[1]/main.styl".toList⟩ =
      [⟨"/p/v[1]".toList⟩] := by
    decide +kernel
  rw [region_partsPattern hdirectories hregion] at hbelow
  exact absurd hbelow.isPrefix (by decide +kernel)

end Lookup

end StyleImports
