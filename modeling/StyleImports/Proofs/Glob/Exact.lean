import StyleImports.Proofs.Glob.Levels
import StyleImports.Proofs.Path.Order

/-!
# What an expansion returns

An expansion of a pattern below a directory returns the stylesheets there that match a choice of the
braces, each once and in order (`expand_exact`). Its limit is read off the pattern before the braces
are expanded: it loses nothing as long as a `**` of a choice is one of the pattern
(`ShowsDeepStars`), since any other match lies no deeper than the pattern has segments
(`allows_of_matches`). A `**` that only comes about when braces are expanded is cut off with the
limit (`expand_loses_braced`).
-/

set_option autoImplicit false

namespace StyleImports

/-! ## Sorted paths -/

theorem PathSet.isAmong_toList (set : PathSet) (p : Path) :
    p.isAmong set.toList = set.contains p := by
  simp only [Path.isAmong, PathSet.toList, PathTable.keys, PathTable.contains, List.any_map]
  rfl

namespace Glob

theorem toList_add (set : PathSet) (p : Path) : (set.add p).toList = insertPath p set.toList := by
  obtain ⟨entries⟩ := set
  simp only [PathSet.toList, PathSet.add, PathTable.insert, PathTable.keys]
  induction entries with
  | nil => rfl
  | cons entry rest ih =>
    obtain ⟨q, _⟩ := entry
    rw [PathTable.putEntry, List.map_cons, insertPath, Path.same_comm p q]
    split
    · rfl
    · split
      · rfl
      · rw [List.map_cons, ih]

theorem sortPaths_eq (paths : List Path) :
    sortPaths paths = (paths.foldl PathSet.add .empty).toList := by
  have hfoldl : ∀ set : PathSet, paths.foldl (fun sorted p => insertPath p sorted) set.toList =
      (paths.foldl PathSet.add set).toList := by
    induction paths with
    | nil => exact fun _ => rfl
    | cons p paths ih =>
      intro set
      rw [List.foldl_cons, List.foldl_cons, ← ih, toList_add]
  exact hfoldl .empty

theorem pairwise_sortPaths (paths : List Path) :
    (sortPaths paths).Pairwise fun p q => p.before q = true := by
  have hempty : PathTable.IsOrdered (.empty : PathSet) := .nil
  rw [sortPaths_eq]
  exact List.pairwise_map.2 (PathSet.isOrdered_foldl_add hempty paths)

theorem isAmong_sortPaths {p : Path} {paths : List Path} (h : p ∈ paths) :
    p.isAmong (sortPaths paths) = true := by
  rw [sortPaths_eq, PathSet.isAmong_toList, PathSet.contains_foldl_add]
  exact .inl (Path.isAmong_of_mem h)

/-! ## Choices -/

variable {fs : FileSystem} {base : Path} {pattern : Text}

theorem exists_mapM_ok {α β ε : Type} {f : α → Except ε β} {xs : List α}
    (h : ∀ x ∈ xs, ∃ y, f x = .ok y) :
    ∃ ys, xs.mapM f = .ok ys ∧ ∀ x ∈ xs, ∀ y, f x = .ok y → y ∈ ys := by
  induction xs with
  | nil => exact ⟨[], rfl, nofun⟩
  | cons x xs ih =>
    obtain ⟨y, hy⟩ := h x List.mem_cons_self
    obtain ⟨ys, hys, hmem⟩ := ih fun x' hx' => h x' (List.mem_cons_of_mem _ hx')
    refine ⟨y :: ys, ?_, fun x' hx' y' hy' => ?_⟩
    · rw [List.mapM_cons, hy, hys]
      rfl
    · rcases List.mem_cons.1 hx' with rfl | hx'
      · rw [hy] at hy'
        cases hy'
        exact List.mem_cons_self
      · exact List.mem_cons_of_mem _ (hmem x' hx' y' hy')

/-- A path is matched by a choice of the braces of a pattern. -/
def Matches (pattern path : Text) : Prop :=
  ∃ choice ∈ expandBraces pattern, ∃ signs, readPattern choice = .ok signs ∧
    matchesPath signs path = true

/-- Reads one choice of the braces of a pattern. -/
def readChoice (pattern choice : Text) : Except GlobError (List PatternSign) :=
  match readPattern choice with
  | .ok signs => .ok signs
  | .error fault => .error (.invalidPattern pattern fault.message)

theorem readChoice_eq_ok_iff {choice : Text} {signs : List PatternSign} :
    readChoice pattern choice = .ok signs ↔ readPattern choice = .ok signs := by
  rw [readChoice]
  cases readPattern choice <;> simp

theorem matches_of_readPatterns {patterns : List (List PatternSign)} {path : Text}
    (hpatterns : readPatterns pattern = .ok patterns)
    (hmatch : patterns.any (matchesPath · path) = true) : Matches pattern path := by
  obtain ⟨signs, hsigns, hmatch⟩ := List.any_eq_true.1 hmatch
  obtain ⟨choice, hchoice, hsigns⟩ := exists_of_mem_mapM hpatterns hsigns
  exact ⟨choice, hchoice, signs, readChoice_eq_ok_iff.1 hsigns, hmatch⟩

/-- If every choice of a pattern can be read, they are read and match what the pattern does. -/
theorem exists_readPatterns
    (hvalid : ∀ choice ∈ expandBraces pattern, ∃ signs, readPattern choice = .ok signs) :
    ∃ patterns, readPatterns pattern = .ok patterns ∧
      ∀ path, patterns.any (matchesPath · path) = true ↔ Matches pattern path := by
  have hall : ∀ choice ∈ expandBraces pattern, ∃ signs, readChoice pattern choice = .ok signs := by
    intro choice hchoice
    obtain ⟨signs, hsigns⟩ := hvalid choice hchoice
    exact ⟨signs, readChoice_eq_ok_iff.2 hsigns⟩
  obtain ⟨patterns, hpatterns, hmem⟩ := exists_mapM_ok hall
  refine ⟨patterns, hpatterns, fun path => ⟨matches_of_readPatterns hpatterns, ?_⟩⟩
  rintro ⟨choice, hchoice, signs, hsigns, hmatch⟩
  have hsignsMem := hmem choice hchoice signs (readChoice_eq_ok_iff.2 hsigns)
  exact List.any_eq_true.2 ⟨signs, hsignsMem, hmatch⟩

/-! ## The limit -/

/-- If some choice of a pattern goes to any depth, then the pattern holds `**` itself. -/
def ShowsDeepStars (pattern : Text) : Prop :=
  (∃ choice ∈ expandBraces pattern, ∃ signs, readPattern choice = .ok signs ∧
    PatternSign.deepStar ∈ signs) → Text.holds "**" pattern = true

theorem depthLimit_ne_zero (pattern : Text) : depthLimit pattern ≠ some 0 := by
  rw [depthLimit]
  split
  · nofun
  · rw [Text.length_splitOn]
    nofun

/-- The limit of a pattern reaches every path that the pattern matches. -/
theorem allows_of_matches (hshown : ShowsDeepStars pattern) {path : Text} {n : Nat}
    (hmatch : Matches pattern path) (hpath : n ≤ path.count '/') :
    Allows (depthLimit pattern) n := by
  obtain ⟨choice, hchoice, signs, hsigns, hmatch⟩ := hmatch
  rw [depthLimit]
  split
  case isTrue => exact fun _ => nofun
  case isFalse hplain =>
    have hdeep : .deepStar ∉ signs := fun hdeep =>
      hplain (hshown ⟨choice, hchoice, signs, hsigns, hdeep⟩)
    rintro most ⟨⟩
    rw [Text.length_splitOn]
    exact Nat.lt_succ_of_le (hpath.trans (count_of_matchesPath hchoice hsigns hdeep hmatch))

/-! ## Expansions -/

/-- A stylesheet below a directory whose path from there is matched by a pattern. -/
def FindsMatch (fs : FileSystem) (base : Path) (pattern : Text) (p : Path) : Prop :=
  ∃ n rel, Finds fs n base [] p rel ∧ Matches pattern rel

/-- What an expansion returns is matched by the pattern, whatever else is below the directory. -/
theorem findsMatch_of_expand {p : Path} {found : List Path}
    (h : expand fs base pattern = .ok found) (hp : p ∈ found) : FindsMatch fs base pattern p := by
  rw [expand] at h
  split at h
  · cases h
  case h_2 patterns hpatterns =>
    split at h
    · cases h
    case h_2 unsorted hsearch =>
      cases h
      obtain ⟨n, rel, hfinds, hmatch⟩ := finds_of_search hsearch (mem_sortPaths hp)
      exact ⟨n, rel, hfinds, matches_of_readPatterns hpatterns hmatch⟩

section
variable
  (hvalid : ∀ choice ∈ expandBraces pattern, ∃ signs, readPattern choice = .ok signs)
  (hlist : ∀ n dir above, Opens fs n base [] dir above → ∃ names, fs.list dir = .ok names)
  (hdepth : ∀ n dir above, Opens fs n base [] dir above → n ≤ fs.depth)
include hvalid hlist hdepth

/-- An expansion returns the stylesheets that the pattern matches within its limit. -/
theorem expand_within_limit :
    ∃ found, expand fs base pattern = .ok found ∧
      (found.Pairwise fun p q => p.before q = true) ∧
      (∀ p ∈ found, ∃ n rel, Finds fs n base [] p rel ∧ Matches pattern rel) ∧
      ∀ p n rel, Finds fs n base [] p rel → Matches pattern rel →
        Allows (depthLimit pattern) n → p.isAmong found = true := by
  obtain ⟨patterns, hread, hmatches⟩ := exists_readPatterns hvalid
  have hopen : ∀ n dir above, Opens fs n base [] dir above →
      n < fs.depth + 1 ∧ ∃ names, fs.list dir = .ok names := fun n dir above hopens =>
    ⟨Nat.lt_succ_of_le (hdepth n dir above hopens), hlist n dir above hopens⟩
  obtain ⟨unsorted, hsearch, hfound⟩ :=
    @search_finds fs base [] patterns _ _ (depthLimit_ne_zero pattern) hopen
  refine ⟨sortPaths unsorted, ?_, pairwise_sortPaths _, fun p hp => ?_, ?_⟩
  · simp only [expand, hread, hsearch]
  · obtain ⟨n, rel, hfinds, -, hmatch⟩ := (hfound p).1 (mem_sortPaths hp)
    exact ⟨n, rel, hfinds, (hmatches rel).1 hmatch⟩
  · intro p n rel hfinds hmatch hallows
    exact isAmong_sortPaths ((hfound p).2 ⟨n, rel, hfinds, hallows, (hmatches rel).2 hmatch⟩)

/-- If all choices of a pattern can be read, every directory below the base can be listed and the
depth of the file system bounds how deep they lie, an expansion returns exactly the stylesheets
below the base that the pattern matches, in order and each once. The pattern has to hold `**` itself
if a choice of its braces goes to any depth. -/
theorem expand_exact (hshown : ShowsDeepStars pattern) :
    ∃ found, expand fs base pattern = .ok found ∧
      (found.Pairwise fun p q => p.before q = true) ∧
      (∀ p ∈ found, FindsMatch fs base pattern p) ∧
      ∀ p, FindsMatch fs base pattern p → p.isAmong found = true := by
  obtain ⟨found, hexpand, hsorted, hsound, hcomplete⟩ := expand_within_limit hvalid hlist hdepth
  refine ⟨found, hexpand, hsorted, hsound, ?_⟩
  rintro p ⟨n, rel, hfinds, hmatch⟩
  have hdeep : n ≤ rel.count '/' := (Nat.zero_add n).symm ▸ hfinds.le_count
  exact hcomplete p n rel hfinds hmatch (allows_of_matches hshown hmatch hdeep)

end

/-! ## Patterns with braces -/

def nestedFiles : Memory :=
  ["/p/glob/a.styl", "/p/glob/nested/d.styl"].foldl (fun m file => m.add ⟨file.toList⟩ [])
    (.empty ⟨"/p".toList⟩)

def nestedBase : Path := ⟨"/p/glob".toList⟩

theorem list_nestedBase : nestedFiles.fileSystem.list nestedBase =
    .ok (["a.styl", "nested"].map String.toList) := by
  decide +kernel

theorem list_nestedFiles (n : Nat) (dir : Path) (above : Text)
    (h : Opens nestedFiles.fileSystem n nestedBase [] dir above) :
    ∃ names, nestedFiles.fileSystem.list dir = .ok names := by
  rcases h.stat with ⟨-, rfl⟩ | hstat
  · exact ⟨_, list_nestedBase⟩
  · exact Memory.exists_list_of_stat hstat

theorem depth_nestedFiles (n : Nat) (dir : Path) (above : Text)
    (h : Opens nestedFiles.fileSystem n nestedBase [] dir above) :
    n ≤ nestedFiles.fileSystem.depth := by
  have hplaced : nestedFiles.IsPlaced := ((Memory.isPlaced_empty _).add _ _).add _ _
  exact hplaced.le_depth_of_opens (by decide) h

def bracedPattern : Text := "\x7ba,nested/*\x7d.styl".toList

theorem expand_exact_braced :
    ∃ found, expand nestedFiles.fileSystem nestedBase bracedPattern = .ok found ∧
      found = ["/p/glob/a.styl", "/p/glob/nested/d.styl"].map (⟨·.toList⟩) ∧
      (found.Pairwise fun p q => p.before q = true) ∧
      ∀ p, FindsMatch nestedFiles.fileSystem nestedBase bracedPattern p →
        p.isAmong found = true := by
  have hchoices : ∀ choice ∈ expandBraces bracedPattern,
      readPattern choice = .ok ("a.styl".toList.map .char) ∨ readPattern choice =
        .ok ("nested/".toList.map .char ++ .star :: ".styl".toList.map .char) := by
    decide +kernel
  have hvalid : ∀ choice ∈ expandBraces bracedPattern,
      ∃ signs, readPattern choice = .ok signs := fun choice hchoice =>
    (hchoices choice hchoice).elim (fun h => ⟨_, h⟩) fun h => ⟨_, h⟩
  have hshown : ShowsDeepStars bracedPattern := by
    rintro ⟨choice, hchoice, signs, hsigns, hdeep⟩
    rcases hchoices choice hchoice with hread | hread <;>
    · rw [hread] at hsigns
      cases hsigns
      simp at hdeep
  have hfound : expand nestedFiles.fileSystem nestedBase bracedPattern =
      .ok (["/p/glob/a.styl", "/p/glob/nested/d.styl"].map (⟨·.toList⟩)) := by
    decide +kernel
  obtain ⟨found, hexpand, hsorted, -, hall⟩ :=
    expand_exact hvalid list_nestedFiles depth_nestedFiles hshown
  rw [hfound] at hexpand
  cases hexpand
  exact ⟨_, hfound, rfl, hsorted, hall⟩

/-- The pattern `{*}*`, whose only choice is `**`. -/
def hiddenPattern : Text := "\x7b*\x7d*".toList

/-- A file that the pattern matches is lost, since no directory below the base is opened. -/
theorem expand_loses_braced :
    (∀ choice ∈ expandBraces hiddenPattern, ∃ signs, readPattern choice = .ok signs) ∧
    (∀ n dir above, Opens nestedFiles.fileSystem n nestedBase [] dir above →
      ∃ names, nestedFiles.fileSystem.list dir = .ok names) ∧
    (∀ n dir above, Opens nestedFiles.fileSystem n nestedBase [] dir above →
      n ≤ nestedFiles.fileSystem.depth) ∧
    expand nestedFiles.fileSystem nestedBase hiddenPattern = .ok [⟨"/p/glob/a.styl".toList⟩] ∧
    FindsMatch nestedFiles.fileSystem nestedBase hiddenPattern ⟨"/p/glob/nested/d.styl".toList⟩ ∧
    (⟨"/p/glob/nested/d.styl".toList⟩ : Path).isAmong [⟨"/p/glob/a.styl".toList⟩] = false := by
  have hchoices : expandBraces hiddenPattern = ["**".toList] := by decide +kernel
  have hread : readPattern "**".toList = .ok [.deepStar] := by decide +kernel
  have hopens : Opens nestedFiles.fileSystem 1 nestedBase [] ⟨"/p/glob/nested".toList⟩
      "nested/".toList := by
    have hmem : "nested".toList ∈ ["a.styl", "nested"].map String.toList := by decide
    exact .next list_nestedBase hmem (by decide +kernel) (.start _ _)
  have hfinds : Finds nestedFiles.fileSystem 1 nestedBase [] ⟨"/p/glob/nested/d.styl".toList⟩
      "nested/d.styl".toList := by
    have hlist : nestedFiles.fileSystem.list ⟨"/p/glob/nested".toList⟩ =
        .ok ["d.styl".toList] := by
      decide +kernel
    have hstat : nestedFiles.fileSystem.stat ⟨"/p/glob/nested/d.styl".toList⟩ =
        .ok (.file 0) := by
      decide +kernel
    exact .entry hopens hlist List.mem_cons_self hstat (by decide +kernel)
  refine ⟨?_, list_nestedFiles, depth_nestedFiles, by decide +kernel, ?_, by decide +kernel⟩
  · rw [hchoices]
    exact List.forall_mem_singleton.2 ⟨_, hread⟩
  · exact ⟨1, _, hfinds, _, hchoices ▸ List.mem_cons_self, _, hread, by decide +kernel⟩

end Glob

end StyleImports
