import StyleImports.Proofs.Glob.Depth

/-!
# What a search finds

A search opens the directories that it comes to (`Opens`) and finds the stylesheets that these list
(`Finds`), as far as its limit goes. If it can open them all and has levels enough, it finds exactly
the stylesheets within the limit whose path a pattern matches (`search_finds`), each as often as it
is listed. A stylesheet has more slashes in its path than there are directories on the way to it
(`Finds.le_count`).
-/

set_option autoImplicit false

namespace StyleImports.Glob

variable {fs : FileSystem} {dir dir' p : Path} {above above' rel : Text} {n : Nat}

/-- A directory is come to from another one through directories that list the next: their number,
and the paths of both from a base, closed by a slash unless empty. -/
inductive Opens (fs : FileSystem) : Nat → Path → Text → Path → Text → Prop where
  | start (dir : Path) (above : Text) : Opens fs 0 dir above dir above
  | next {n : Nat} {dir dir' : Path} {above above' : Text} {names : List Text} {name : Text} :
      fs.list dir = .ok names → name ∈ names →
      fs.stat (dir.join ⟨name⟩) = .ok .directory →
      Opens fs n (dir.join ⟨name⟩) (above ++ name ++ ['/']) dir' above' →
      Opens fs (n + 1) dir above dir' above'

/-- A stylesheet is listed by a directory that is come to, with its path from the base. -/
inductive Finds (fs : FileSystem) (n : Nat) (dir : Path) (above : Text) : Path → Text → Prop where
  | entry {dir' : Path} {above' : Text} {names : List Text} {name : Text} {size : Nat} :
      Opens fs n dir above dir' above' → fs.list dir' = .ok names → name ∈ names →
      fs.stat (dir'.join ⟨name⟩) = .ok (.file size) → isStylesheetName name = true →
      Finds fs n dir above (dir'.join ⟨name⟩) (above' ++ name)

/-! ## Paths on the way -/

theorem Opens.le_count (h : Opens fs n dir above dir' above') :
    above.count '/' + n ≤ above'.count '/' := by
  induction h with
  | start => exact Nat.le_refl _
  | next _ _ _ _ ih =>
    rw [List.count_append, List.count_append, List.count_cons_self] at ih
    omega

/-- The path of a stylesheet has a slash for every directory on the way to it. -/
theorem Finds.le_count (h : Finds fs n dir above p rel) :
    above.count '/' + n ≤ rel.count '/' := by
  cases h with
  | entry hopens =>
    rw [List.count_append]
    exact Nat.le_trans hopens.le_count (Nat.le_add_right _ _)

/-- What is found for one name that a directory lists: a stylesheet, or what is found below. -/
inductive FindsBy (fs : FileSystem) (dir : Path) (above name : Text) :
    Nat → Path → Text → Prop where
  | file {size : Nat} : fs.stat (dir.join ⟨name⟩) = .ok (.file size) →
      isStylesheetName name = true → FindsBy fs dir above name 0 (dir.join ⟨name⟩) (above ++ name)
  | directory {n : Nat} {p : Path} {rel : Text} : fs.stat (dir.join ⟨name⟩) = .ok .directory →
      Finds fs n (dir.join ⟨name⟩) (above ++ name ++ ['/']) p rel →
      FindsBy fs dir above name (n + 1) p rel

theorem finds_iff : Finds fs n dir above p rel ↔
    ∃ names name, fs.list dir = .ok names ∧ name ∈ names ∧ FindsBy fs dir above name n p rel := by
  constructor
  · rintro ⟨hopens, hlist, hname, hstat, hstyl⟩
    cases hopens with
    | start => exact ⟨_, _, hlist, hname, .file hstat hstyl⟩
    | next hlist' hname' hstat' hopens =>
      exact ⟨_, _, hlist', hname', .directory hstat' (.entry hopens hlist hname hstat hstyl)⟩
  · rintro ⟨names, name, hlist, hname, ⟨hstat, hstyl⟩ | ⟨hstat, hfinds⟩⟩
    · exact .entry (.start dir above) hlist hname hstat hstyl
    · cases hfinds with
      | entry hopens hlist' hname' hstat' hstyl =>
        exact .entry (.next hlist hname hstat hopens) hlist' hname' hstat' hstyl

/-! ## Searches -/

variable {patterns : List (List PatternSign)} {limit : Option Nat} {levels : Nat}

/-- What a search finds for one name of a directory. -/
def searchEntry (fs : FileSystem) (patterns : List (List PatternSign)) (levels : Nat)
    (limit : Option Nat) (dir : Path) (above name : Text) : Except FileError (List Path) :=
  match fs.stat (dir.join ⟨name⟩) with
  | .error _ => .ok []
  | .ok .directory =>
    if limit = some 1 then .ok []
    else search fs patterns levels (limit.map (· - 1)) (dir.join ⟨name⟩) (above ++ name ++ ['/'])
  | .ok (.file _) =>
    if isStylesheetName name && patterns.any (matchesPath · (above ++ name)) then
      .ok [dir.join ⟨name⟩]
    else .ok []

/-- Adds what is found for a name, unless the search has failed. -/
def addFound (entry : Text → Except FileError (List Path)) (found : Except FileError (List Path))
    (name : Text) : Except FileError (List Path) :=
  found.bind fun found => (entry name).map (found ++ ·)

theorem search_succ (fs : FileSystem) (patterns : List (List PatternSign)) (levels : Nat)
    (limit : Option Nat) (dir : Path) (above : Text) :
    search fs patterns (levels + 1) limit dir above =
      match fs.list dir with
      | .error e => .error e
      | .ok names =>
        names.foldl (addFound (searchEntry fs patterns levels limit dir above)) (.ok []) := by
  rw [search]
  cases fs.list dir with
  | error e => rfl
  | ok names =>
    dsimp only
    congr 1
    funext found name
    cases found with
    | error e => rfl
    | ok found =>
      simp only [addFound, searchEntry, Except.bind]
      cases fs.stat (dir.join ⟨name⟩) with
      | error e => exact congrArg Except.ok (List.append_nil found).symm
      | ok kind =>
        cases kind with
        | directory =>
          dsimp only
          split
          · exact congrArg Except.ok (List.append_nil found).symm
          · generalize search fs patterns levels (limit.map (· - 1)) (dir.join ⟨name⟩)
              (above ++ name ++ ['/']) = inner
            cases inner <;> rfl
        | file size =>
          dsimp only
          split
          · rfl
          · exact congrArg Except.ok (List.append_nil found).symm

/-- If every name is searched without a fault, what is found is what is found for some name. -/
theorem exists_foldl_addFound {entry : Text → Except FileError (List Path)}
    {P : Text → Path → Prop} {names : List Text}
    (h : ∀ name ∈ names, ∃ inner, entry name = .ok inner ∧ ∀ p, p ∈ inner ↔ P name p)
    (found : List Path) :
    ∃ found', names.foldl (addFound entry) (.ok found) = .ok found' ∧
      ∀ p, p ∈ found' ↔ p ∈ found ∨ ∃ name ∈ names, P name p := by
  induction names generalizing found with
  | nil => exact ⟨found, rfl, fun p => by simp⟩
  | cons name names ih =>
    obtain ⟨inner, hentry, hinner⟩ := h name List.mem_cons_self
    obtain ⟨found', hfold, hfound'⟩ :=
      ih (fun name' hname' => h name' (List.mem_cons_of_mem _ hname')) (found ++ inner)
    refine ⟨found', ?_, fun p => ?_⟩
    · rw [List.foldl_cons, ← hfold, addFound, hentry]
      rfl
    · rw [hfound' p, List.mem_append, hinner p, or_assoc, List.exists_mem_cons_iff]

/-- A limit lets a search go some levels down. -/
def Allows (limit : Option Nat) (n : Nat) : Prop := ∀ most, limit = some most → n < most

theorem allows_zero (hlimit : limit ≠ some 0) : Allows limit 0 := by
  rintro most rfl
  exact Nat.pos_of_ne_zero fun hzero => hlimit (by rw [hzero])

theorem allows_succ (h : limit ≠ some 1) : Allows limit (n + 1) ↔ Allows (limit.map (· - 1)) n := by
  cases limit with
  | none => exact ⟨fun _ => nofun, fun _ => nofun⟩
  | some most =>
    simp only [Allows, Option.map_some, Option.some.injEq, forall_eq']
    omega

theorem pred_ne_zero (hlimit : limit ≠ some 0) (hlast : limit ≠ some 1) :
    limit.map (· - 1) ≠ some 0 := by
  cases limit with
  | none => nofun
  | some most =>
    simp only [Option.map_some, ne_eq, Option.some.injEq] at hlimit hlast ⊢
    omega

/-- What is found for a name, if the search below the name finds what it should. -/
theorem searchEntry_finds {name : Text} (hlimit : limit ≠ some 0)
    (hbelow : fs.stat (dir.join ⟨name⟩) = .ok .directory → limit ≠ some 1 →
      ∃ found, search fs patterns levels (limit.map (· - 1)) (dir.join ⟨name⟩)
          (above ++ name ++ ['/']) = .ok found ∧
        ∀ p, p ∈ found ↔ ∃ n rel, Finds fs n (dir.join ⟨name⟩) (above ++ name ++ ['/']) p rel ∧
          Allows (limit.map (· - 1)) n ∧ patterns.any (matchesPath · rel) = true) :
    ∃ found, searchEntry fs patterns levels limit dir above name = .ok found ∧
      ∀ p, p ∈ found ↔ ∃ n rel, FindsBy fs dir above name n p rel ∧ Allows limit n ∧
        patterns.any (matchesPath · rel) = true := by
  rw [searchEntry]
  cases hstat : fs.stat (dir.join ⟨name⟩) with
  | error e =>
    refine ⟨[], rfl, fun p => ⟨nofun, ?_⟩⟩
    rintro ⟨n, rel, hfinds, -⟩
    cases hfinds <;> simp_all
  | ok kind =>
    cases kind with
    | directory =>
      dsimp only
      -- At the last level a directory is not searched, and nothing below it is allowed.
      by_cases hlast : limit = some 1
      · rw [if_pos hlast]
        refine ⟨[], rfl, fun p => ⟨nofun, ?_⟩⟩
        rintro ⟨n, rel, hfinds, hallows, -⟩
        cases hfinds with
        | file hfile =>
          rw [hstat] at hfile
          cases hfile
        | directory => exact absurd (hallows 1 hlast) (by omega)
      · rw [if_neg hlast]
        obtain ⟨found, hsearch, hfound⟩ := hbelow hstat hlast
        refine ⟨found, hsearch, fun p => (hfound p).trans ⟨?_, ?_⟩⟩
        · rintro ⟨n, rel, hfinds, hallows, hmatch⟩
          exact ⟨n + 1, rel, .directory hstat hfinds, (allows_succ hlast).2 hallows, hmatch⟩
        · rintro ⟨n, rel, hfinds, hallows, hmatch⟩
          cases hfinds with
          | file hfile =>
            rw [hstat] at hfile
            cases hfile
          | directory _ hfinds =>
            exact ⟨_, rel, hfinds, (allows_succ hlast).1 hallows, hmatch⟩
    | file size =>
      dsimp only
      -- What is found by the name of a file is the file.
      have hone : ∀ {n p rel}, FindsBy fs dir above name n p rel →
          n = 0 ∧ p = dir.join ⟨name⟩ ∧ rel = above ++ name ∧ isStylesheetName name = true := by
        intro n p rel hfinds
        cases hfinds with
        | file _ hstyl => exact ⟨rfl, rfl, rfl, hstyl⟩
        | directory hdirectory =>
          rw [hstat] at hdirectory
          cases hdirectory
      by_cases hmatch : (isStylesheetName name &&
          patterns.any (matchesPath · (above ++ name))) = true
      · rw [if_pos hmatch]
        rw [Bool.and_eq_true] at hmatch
        refine ⟨_, rfl, fun p => List.mem_singleton.trans ⟨?_, ?_⟩⟩
        · rintro rfl
          exact ⟨0, _, .file hstat hmatch.1, allows_zero hlimit, hmatch.2⟩
        · rintro ⟨n, rel, hfinds, -⟩
          exact (hone hfinds).2.1
      · rw [if_neg hmatch]
        refine ⟨[], rfl, fun p => ⟨nofun, ?_⟩⟩
        rintro ⟨n, rel, hfinds, -, hany⟩
        obtain ⟨-, -, rfl, hstyl⟩ := hone hfinds
        exact absurd (Bool.and_eq_true_iff.2 ⟨hstyl, hany⟩) hmatch

/-- A search that can open all directories on its way finds exactly the stylesheets within its
limit whose path a pattern matches. -/
theorem search_finds (hlimit : limit ≠ some 0)
    (hopen : ∀ n dir' above', Opens fs n dir above dir' above' →
      n < levels ∧ ∃ names, fs.list dir' = .ok names) :
    ∃ found, search fs patterns levels limit dir above = .ok found ∧
      ∀ p, p ∈ found ↔ ∃ n rel, Finds fs n dir above p rel ∧ Allows limit n ∧
        patterns.any (matchesPath · rel) = true := by
  induction levels generalizing limit dir above with
  | zero => exact absurd (hopen 0 dir above (.start dir above)).1 (Nat.not_lt_zero 0)
  | succ levels ih =>
    obtain ⟨-, names, hlist⟩ := hopen 0 dir above (.start dir above)
    have hentry : ∀ name ∈ names, ∃ inner,
        searchEntry fs patterns levels limit dir above name = .ok inner ∧
        ∀ p, p ∈ inner ↔ ∃ n rel, FindsBy fs dir above name n p rel ∧ Allows limit n ∧
          patterns.any (matchesPath · rel) = true := by
      intro name hname
      refine searchEntry_finds hlimit fun hstat hlast => ih (pred_ne_zero hlimit hlast) ?_
      intro n dir' above' hopens
      obtain ⟨hlevels, hlisted⟩ := hopen (n + 1) dir' above' (.next hlist hname hstat hopens)
      exact ⟨Nat.lt_of_succ_lt_succ hlevels, hlisted⟩
    obtain ⟨found, hfold, hfound⟩ := exists_foldl_addFound hentry []
    refine ⟨found, by rw [search_succ, hlist]; exact hfold, fun p => (hfound p).trans ⟨?_, ?_⟩⟩
    · rintro (hnil | ⟨name, hname, n, rel, hfinds, hallows, hmatch⟩)
      · cases hnil
      · exact ⟨n, rel, finds_iff.2 ⟨names, name, hlist, hname, hfinds⟩, hallows, hmatch⟩
    · rintro ⟨n, rel, hfinds, hallows, hmatch⟩
      obtain ⟨names', name, hlist', hname, hone⟩ := finds_iff.1 hfinds
      rw [hlist] at hlist'
      cases hlist'
      exact .inr ⟨name, hname, n, rel, hone, hallows, hmatch⟩

/-! ## Searches that succeed -/

theorem foldl_addFound_error {entry : Text → Except FileError (List Path)} (names : List Text)
    (e : FileError) : names.foldl (addFound entry) (.error e) = .error e := by
  induction names with
  | nil => rfl
  | cons name names ih => exact ih

theorem mem_foldl_addFound {entry : Text → Except FileError (List Path)} {names : List Text}
    {found found' : List Path} (h : names.foldl (addFound entry) (.ok found) = .ok found')
    (hp : p ∈ found') :
    p ∈ found ∨ ∃ name ∈ names, ∃ inner, entry name = .ok inner ∧ p ∈ inner := by
  induction names generalizing found with
  | nil =>
    cases h
    exact .inl hp
  | cons name names ih =>
    rw [List.foldl_cons, addFound] at h
    cases hentry : entry name with
    | error e =>
      rw [hentry] at h
      exact absurd ((foldl_addFound_error names e).symm.trans h) nofun
    | ok inner =>
      rw [hentry] at h
      rcases ih h with hfound | ⟨other, hother, hlater⟩
      · rcases List.mem_append.1 hfound with hfound | hinner
        · exact .inl hfound
        · exact .inr ⟨name, List.mem_cons_self, inner, hentry, hinner⟩
      · exact .inr ⟨other, List.mem_cons_of_mem name hother, hlater⟩

/-- What a search returns is found below its directory and matched, whatever its limit is. -/
theorem finds_of_search {found : List Path}
    (h : search fs patterns levels limit dir above = .ok found) (hp : p ∈ found) :
    ∃ n rel, Finds fs n dir above p rel ∧ patterns.any (matchesPath · rel) = true := by
  induction levels generalizing limit dir above found with
  | zero =>
    cases h
    cases hp
  | succ levels ih =>
    rw [search_succ] at h
    split at h
    · cases h
    case h_2 names hlist =>
      obtain hnil | ⟨name, hname, inner, hentry, hp⟩ := mem_foldl_addFound h hp
      · cases hnil
      have hby : ∃ n rel, FindsBy fs dir above name n p rel ∧
          patterns.any (matchesPath · rel) = true := by
        rw [searchEntry] at hentry
        split at hentry
        · cases hentry
          cases hp
        case h_2 hstat =>
          split at hentry
          · cases hentry
            cases hp
          · obtain ⟨n, rel, hfinds, hmatch⟩ := ih hentry hp
            exact ⟨n + 1, rel, .directory hstat hfinds, hmatch⟩
        case h_3 size hstat =>
          split at hentry
          case isTrue hmatch =>
            cases hentry
            rw [Bool.and_eq_true] at hmatch
            rw [List.mem_singleton.1 hp]
            exact ⟨0, above ++ name, .file hstat hmatch.1, hmatch.2⟩
          · cases hentry
            cases hp
      obtain ⟨n, rel, hfinds, hmatch⟩ := hby
      exact ⟨n, rel, finds_iff.2 ⟨names, name, hlist, hname, hfinds⟩, hmatch⟩

end StyleImports.Glob
