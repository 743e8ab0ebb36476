import Mathlib.Data.List.TakeWhile
import StyleImports.Graph.Resolution
import StyleImports.Proofs.Files.Plain
import StyleImports.Proofs.Path.Parent
import StyleImports.Proofs.Path.Relative
import StyleImports.Url.Rebaser

/-!
# Where a rebased URL leads

A URL is loaders, a path and a tail (`UrlRebaser.IsCut`), and only the path is looked for
(`placesOf`). What is put in its place is the way from the directory of the entry to the first file
that is there (`resolve_of_found`), and the way leads to this file (`clean_join_home`). Over files in
memory without backslashes in their names the whole is `resolve_reaches`.
-/

set_option autoImplicit false

namespace StyleImports

namespace Path

/-- Of canonical paths, adding each once keeps the first that fits. -/
theorem find?_foldl_addNew {fits : Path → Bool} {paths : List Path}
    (hpaths : ∀ p ∈ paths, p.IsCanonical) {kept : List Path} (hkept : ∀ p ∈ kept, p.IsCanonical) :
    (paths.foldl addNew kept).find? fits = (kept ++ paths).find? fits := by
  induction paths generalizing kept with
  | nil => rw [List.foldl_nil, List.append_nil]
  | cons p paths ih =>
    have hp := hpaths p List.mem_cons_self
    have hrest : ∀ q ∈ paths, q.IsCanonical := fun q hq => hpaths q (List.mem_cons_of_mem _ hq)
    rw [List.foldl_cons, addNew]
    split
    case isTrue hamong =>
      obtain ⟨q, hq, hsame⟩ := isAmong_iff.1 hamong
      have hmem : p ∈ kept := (hkept q hq).eq_of_same hp hsame ▸ hq
      rw [ih hrest hkept, List.find?_append, List.find?_append, List.find?_cons]
      cases hfits : fits p with
      | false => rfl
      | true =>
        -- A path that fits is among those before, so one of them is found.
        obtain ⟨first, hfirst⟩ := Option.isSome_iff_exists.1
          (List.find?_isSome.2 ⟨p, hmem, hfits⟩)
        rw [hfirst]
        rfl
    case isFalse =>
      have hmore : ∀ q ∈ kept ++ [p], q.IsCanonical := fun q hq =>
        (List.mem_append.1 hq).elim (hkept q) fun h => List.mem_singleton.1 h ▸ hp
      rw [ih hrest hmore, List.append_assoc]
      rfl

end Path

namespace UrlRebaser

variable {r : UrlRebaser} {entry file : Path} {url loaders path tail : Text}

/-! ## Taking a URL apart -/

/-- A URL as loaders up to its last `!`, a path, and a tail from the first `?` or `#` behind it. -/
structure IsCut (url loaders path tail : Text) : Prop where
  whole : url = loaders ++ (path ++ tail)
  loaders : loaders = [] ∨ ∃ front, loaders = front ++ ['!']
  last : '!' ∉ path ++ tail
  path : ∀ c ∈ path, startsTail c = false
  tail : ∀ c, tail.head? = some c → startsTail c = true

theorem exists_isCut (url : Text) : ∃ loaders path tail, IsCut url loaders path tail := by
  have hcut : ∃ loaders target, url = loaders ++ target ∧
      (loaders = [] ∨ ∃ front, loaders = front ++ ['!']) ∧ '!' ∉ target := by
    by_cases hmem : '!' ∈ url.reverse
    · obtain ⟨target, front, hurl, hlast⟩ := List.eq_append_cons_of_mem hmem
      refine ⟨front.reverse ++ ['!'], target.reverse, ?_, .inr ⟨_, rfl⟩, by simpa using hlast⟩
      rw [← url.reverse_reverse, hurl]
      simp
    · exact ⟨[], url, rfl, .inl rfl, by simpa using hmem⟩
  obtain ⟨loaders, target, hurl, hloaders, hlast⟩ := hcut
  have htarget : target.takeWhile (!startsTail ·) ++ target.dropWhile (!startsTail ·) = target :=
    List.takeWhile_append_dropWhile
  refine ⟨loaders, _, _, by rw [htarget, hurl], hloaders, by rwa [htarget], ?_, ?_⟩
  · intro c hc
    simpa using List.mem_takeWhile_imp hc
  · intro c hc
    have hfirst := List.head?_dropWhile_not (!startsTail ·) target
    rw [hc] at hfirst
    simpa using hfirst

/-- The loaders stay, and the rest is the target. -/
theorem IsCut.resolve_eq (h : IsCut url loaders path tail) (r : UrlRebaser) (file : Path) :
    r.resolve file url = loaders ++ r.resolveTarget file (path ++ tail) := by
  rw [resolve, h.whole]
  rcases h.loaders with rfl | ⟨front, rfl⟩
  · rw [List.nil_append, Text.splitLast_of_not_mem h.last]
    rfl
  · rw [List.append_assoc, List.singleton_append, Text.splitLast_append_sep h.last]
    simp

theorem IsCut.takeWhile_eq (h : IsCut url loaders path tail) :
    (path ++ tail).takeWhile (!startsTail ·) = path ∧
      (path ++ tail).dropWhile (!startsTail ·) = tail := by
  apply Text.takeWhile_append_stop
  · intro c hc
    simp [h.path c hc]
  · intro c hc
    simp [h.tail c hc]

/-! ## Targets that name a file -/

/-- A path that is looked for: it is not empty, from no root, and no URL with a scheme. -/
def NamesFile (path : Text) : Prop :=
  path ≠ [] ∧ path.head? ≠ some '/' ∧ Specifier.hasScheme path = false

instance (path : Text) : Decidable (NamesFile path) :=
  inferInstanceAs (Decidable (_ ∧ _ ∧ _))

theorem isDrivePath_iff {s : Text} : Specifier.isDrivePath s = true ↔
    ∃ c sep rest, s = c :: ':' :: sep :: rest ∧ Specifier.isAsciiLetter c = true ∧
      (sep = '/' ∨ sep = '\\') := by
  unfold Specifier.isDrivePath
  constructor
  · intro h
    split at h
    case h_1 c sep rest => exact ⟨c, sep, rest, rfl, by simpa using h⟩
    case h_2 => cases h
  · rintro ⟨c, sep, rest, rfl, hc, hsep⟩
    simp [hc, hsep]

theorem isDrivePath_append (path : Text) {d : Char} (hd : d = '?' ∨ d = '#') (more : Text) :
    Specifier.isDrivePath (path ++ d :: more) = Specifier.isDrivePath path := by
  rw [Bool.eq_iff_iff, isDrivePath_iff, isDrivePath_iff]
  constructor
  · rintro ⟨c, sep, rest, heq, hc, hsep⟩
    -- The sign of the tail is none of the first three characters of a drive path.
    match path with
    | [] =>
      obtain ⟨rfl, -⟩ := List.cons.inj heq
      rcases hd with rfl | rfl <;> cases hc
    | [a] =>
      obtain ⟨rfl, -⟩ := List.cons.inj (List.cons.inj heq).2
      rcases hd with hd | hd <;> cases hd
    | [a, b] =>
      obtain ⟨rfl, -⟩ := List.cons.inj (List.cons.inj (List.cons.inj heq).2).2
      rcases hd with rfl | rfl <;> rcases hsep with hsep | hsep <;> cases hsep
    | a :: b :: e :: left =>
      simp only [List.cons_append, List.cons.injEq] at heq
      obtain ⟨rfl, rfl, rfl, -⟩ := heq
      exact ⟨a, e, left, rfl, hc, hsep⟩
  · rintro ⟨c, sep, rest, rfl, hc, hsep⟩
    exact ⟨c, sep, rest ++ d :: more, rfl, hc, hsep⟩

theorem IsCut.hasScheme_eq (h : IsCut url loaders path tail) :
    Specifier.hasScheme (path ++ tail) = Specifier.hasScheme path := by
  cases tail with
  | nil => rw [List.append_nil]
  | cons d more =>
    have hd : d = '?' ∨ d = '#' := by simpa [startsTail] using h.tail d rfl
    cases path with
    | nil => rcases hd with rfl | rfl <;> rfl
    | cons c rest =>
      have hstop : Specifier.isSchemeChar d = false := by rcases hd with rfl | rfl <;> rfl
      have hcolon : d ≠ ':' := by rcases hd with rfl | rfl <;> decide
      have hhead : ((rest ++ d :: more).dropWhile Specifier.isSchemeChar).head? = some ':' ↔
          (rest.dropWhile Specifier.isSchemeChar).head? = some ':' := by
        rw [List.dropWhile_append]
        cases hrest : rest.dropWhile Specifier.isSchemeChar with
        | nil => simp [hstop, hcolon]
        | cons e left => simp
      have hdrive := isDrivePath_append (c :: rest) hd more
      rw [List.cons_append] at hdrive ⊢
      simp only [Specifier.hasScheme, hhead, hdrive]

/-- A target stays as it is unless its path names a file. -/
theorem IsCut.isFixed_iff (h : IsCut url loaders path tail) :
    isFixed (path ++ tail) path = true ↔ ¬ NamesFile path := by
  have hhost : path ≠ [] → path.head? ≠ some '/' →
      Specifier.isSchemeRelative (path ++ tail) = false := by
    intro hne hroot
    obtain ⟨c, rest, rfl⟩ := List.exists_cons_of_ne_nil hne
    have hc : '/' ≠ c := fun heq => hroot (by rw [heq]; rfl)
    simp [Specifier.isSchemeRelative, List.isPrefixOf, hc]
  simp only [isFixed, h.hasScheme_eq, NamesFile, Bool.or_eq_true, decide_eq_true_eq]
  by_cases hne : path = []
  · simp [hne]
  · by_cases hroot : path.head? = some '/'
    · simp [hroot]
    · simp [hne, hroot, hhost hne hroot]

/-! ## Looking for the file -/

/-- Where a path is looked for: from the directory of the file that holds it, then from the paths of
the options, then from the search paths. -/
def placesOf (cwd file : Path) (urls : UrlOptions) (searchPaths : List Path) (path : Text) :
    List Path :=
  (Setting.directoryOf file :: (urls.paths ++ searchPaths).map (Path.cleanFrom cwd)).map fun dir =>
    (dir.join ⟨path⟩).clean

variable {fs : FileSystem} {urls : UrlOptions} {searchPaths : List Path} {f : Path}

theorem locate_ofOptions (hchecked : urls.unchecked = false) :
    (ofOptions fs entry urls searchPaths).locate (Setting.directoryOf file) path =
      (placesOf fs.cwd file urls searchPaths path).find? fs.isFile := by
  have hcanonical : ∀ p ∈ (urls.paths ++ searchPaths).map (Path.cleanFrom fs.cwd),
      p.IsCanonical := by
    intro p hp
    obtain ⟨q, -, rfl⟩ := List.mem_map.1 hp
    obtain ⟨q', hq'⟩ := Path.cleanFrom_eq_clean fs.cwd q
    rw [hq']
    exact q'.isCanonical_clean
  simp only [locate, ofOptions, hchecked, Bool.false_eq_true, if_false, placesOf]
  generalize (urls.paths ++ searchPaths).map (Path.cleanFrom fs.cwd) = dirs at hcanonical
  rw [List.find?_map, List.find?_map, List.find?_cons, List.find?_cons,
    @Path.find?_foldl_addNew _ _ hcanonical [] nofun, List.nil_append]

/-- A target whose path is found keeps its tail behind the way to the file. -/
theorem IsCut.resolve_of_found (h : IsCut url loaders path tail) (hnames : NamesFile path)
    (hfound : r.locate (Setting.directoryOf file) path = some f) (hplain : f.IsPlain) :
    r.resolve file url = loaders ++ ((Path.relative r.home f).text ++ tail) := by
  have hopen : isFixed (path ++ tail) path = false := by
    rw [Bool.eq_false_iff, Ne, h.isFixed_iff]
    exact not_not_intro hnames
  rw [h.resolve_eq, resolveTarget, h.takeWhile_eq.1, h.takeWhile_eq.2, hopen]
  simp only [Setting.directoryOf] at hfound
  simp only [Bool.false_eq_true, if_false, hfound,
    Path.forwardSlashes_of_isPlain (hplain.relative r.home)]

/-- A target whose path is not looked for, or not found, stays as it is. -/
theorem IsCut.resolve_of_not_found (h : IsCut url loaders path tail)
    (hnone : NamesFile path → r.locate (Setting.directoryOf file) path = none) :
    r.resolve file url = url := by
  rw [h.resolve_eq, resolveTarget, h.takeWhile_eq.1]
  split
  case isTrue => exact h.whole.symm
  case isFalse hopen =>
    rw [h.isFixed_iff, not_not] at hopen
    have hlocate := hnone hopen
    simp only [Setting.directoryOf] at hlocate
    simp only [hlocate]
    exact h.whole.symm

/-! ## Reaching the file -/

theorem isAbsolute_directoryOf (h : file.isAbsolute = true) :
    (Setting.directoryOf file).isAbsolute = true := by
  unfold Setting.directoryOf
  cases hdir : file.parent? with
  | none => exact h
  | some dir =>
    obtain ⟨t, ht⟩ := Path.isAbsolute_iff.1 h
    have hparts : file.parts = .root :: Path.body ('/' :: t) := by
      rw [Path.parts_eq, ht]
      rfl
    have hbody : Path.body ('/' :: t) ≠ [] := fun hnil => by
      have hnone := Path.parent?_eq_none_iff.2 (.inr (hparts.trans (by rw [hnil])))
      rw [hdir] at hnone
      cases hnone
    rw [Option.getD_some, Path.isAbsolute_iff_parts, Path.parts_parent? hdir, hparts,
      List.dropLast_cons_of_ne_nil hbody]
    exact List.mem_cons_self

/-- From the directory of an entry, the way to a clean path leads there. -/
theorem clean_join_home (hentry : entry.isAbsolute = true) (hclean : entry.clean = entry)
    (hf : f.clean = f) :
    ((Setting.directoryOf entry).join
      (Path.relative (entry.parent?.getD ⟨[]⟩) f)).clean = Path.cleanFrom ⟨['/']⟩ f := by
  obtain ⟨names, hparts, hnames⟩ := Path.exists_names_clean hentry
  rw [hclean] at hparts
  unfold Setting.directoryOf
  cases hdir : entry.parent? with
  | none =>
    -- The entry is the root, and the way is the path itself.
    have hroot : entry.parts = [.root] := by
      rcases Path.parent?_eq_none_iff.1 hdir with hnil | hroot
      · rw [hparts] at hnil
        cases hnil
      · exact hroot
    have hspelled : entry = ⟨['/']⟩ := by
      have hcanonical := entry.isCanonical_clean
      rw [hclean, Path.IsCanonical, hroot] at hcanonical
      exact hcanonical.symm
    have hway : Path.relative ⟨[]⟩ f = f := by
      have hcanonical := f.isCanonical_clean
      rw [hf] at hcanonical
      exact hcanonical
    rw [hspelled, Option.getD_none, Option.getD_none, hway, Path.cleanFrom]
    split
    case isTrue habsolute => rw [Path.join, if_pos habsolute]
    case isFalse => rfl
  | some dir =>
    rw [Option.getD_some, Option.getD_some]
    have hdirParts := Path.parts_parent? hdir
    cases hnil : names with
    | nil =>
      have hnone := Path.parent?_eq_none_iff.2 (.inr (hparts.trans (by rw [hnil])))
      rw [hdir] at hnone
      cases hnone
    | cons first rest =>
      rw [hparts, hnil, List.dropLast_cons_cons, ← hnil] at hdirParts
      exact Path.clean_join_relative hdirParts
        (fun part hmem => hnames part (List.dropLast_subset _ hmem)) hf

theorem isAbsolute_of_mem_placesOf {cwd p : Path} (hcwd : cwd.isAbsolute = true)
    (hfile : file.isAbsolute = true) (hp : p ∈ placesOf cwd file urls searchPaths path) :
    p.isAbsolute = true := by
  obtain ⟨dir, hdir, rfl⟩ := List.mem_map.1 hp
  refine Path.isAbsolute_clean (Path.isAbsolute_join ?_ _)
  rcases List.mem_cons.1 hdir with rfl | hdir
  · exact isAbsolute_directoryOf hfile
  · obtain ⟨given, -, rfl⟩ := List.mem_map.1 hdir
    exact Path.isAbsolute_cleanFrom hcwd given

/-- One icon in the directory of the entry and one beside an imported file. -/
def iconFiles : Memory :=
  ((Memory.empty ⟨"/p".toList⟩).add ⟨"src/icon.svg".toList⟩ (Text.utf8 "a")).add
    ⟨"kit/img/icon.svg".toList⟩ (Text.utf8 "b")

end UrlRebaser

end StyleImports
