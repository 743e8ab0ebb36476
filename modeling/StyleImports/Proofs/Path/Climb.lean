import StyleImports.Proofs.Path.Place

/-!
# How far a path climbs

A path climbs by the `..` that it starts with (`Path.climb`). An absolute path does not, going on to
an entry changes nothing, and the reported spelling of a path climbs at least as far
(`climb_le_asDependency`). A path is tidy when it is a stem and names and is spelled so (`IsTidy`):
clean paths are, and so is the path of an entry below one of them.

A path that climbs past the names of a directory climbs further than the directory
(`clean_join_of_ups`), and past the root it climbs in vain (`cleanFrom_of_ups`).
-/

set_option autoImplicit false

namespace StyleImports.Path

/-- How many `..` a path starts with. -/
def climb (p : Path) : Nat := (p.parts.takeWhile (· = .up)).length

theorem climb_congr {p q : Path} (h : p.same q = true) : p.climb = q.climb := by
  rw [climb, climb, same_iff.1 h]

/-! ## Tidy paths -/

/-- A canonical path of a stem and names. -/
structure IsTidy (p : Path) : Prop where
  canonical : p.IsCanonical
  parts : ∃ stem names, p.parts = stem ++ names ∧ IsStem stem ∧ ∀ part ∈ names, part.IsName

theorem isTidy_clean (p : Path) : p.clean.IsTidy := ⟨p.isCanonical_clean, p.exists_stem⟩

theorem takeWhile_names {names : List Part} (h : ∀ part ∈ names, part.IsName) :
    names.takeWhile (· = .up) = [] := by
  cases names with
  | nil => rfl
  | cons part names =>
    have hname := h part List.mem_cons_self
    cases part with
    | name n => rfl
    | _ => cases hname

theorem climb_ups {p : Path} {count : Nat} {names : List Part}
    (h : p.parts = List.replicate count .up ++ names) (hnames : ∀ part ∈ names, part.IsName) :
    p.climb = count := by
  rw [climb, h, List.takeWhile_append_of_pos (by simp), takeWhile_names hnames]
  simp

theorem climb_of_isAbsolute {p : Path} (h : p.isAbsolute = true) : p.climb = 0 := by
  obtain ⟨t, ht⟩ := isAbsolute_iff.1 h
  rw [climb, parts_eq, ht]
  rfl

/-- The path of an entry climbs as far as its directory. -/
theorem IsTidy.join {p : Path} (hp : p.IsTidy) {n : Text} (hn : (Part.name n).IsName) :
    (p.join ⟨n⟩).IsTidy ∧ (p.join ⟨n⟩).climb = p.climb := by
  obtain ⟨stem, names, hparts, hstem, hnames⟩ := hp.parts
  obtain ⟨hcanonical, hjoin⟩ := hp.canonical.join hn.1 hn.2.2
  have hpart : partOf n = .name n := if_neg hn.2.1
  rw [hpart, hparts, List.append_assoc] at hjoin
  have hmore : ∀ part ∈ names ++ [.name n], part.IsName := fun part hmem => by
    rcases List.mem_append.1 hmem with hmem | hmem
    · exact hnames part hmem
    · rw [List.mem_singleton.1 hmem]
      exact hn
  refine ⟨⟨hcanonical, stem, _, hjoin, hstem, hmore⟩, ?_⟩
  cases hstem with
  | root => rw [climb, climb, hjoin, hparts]; rfl
  | here => rw [climb, climb, hjoin, hparts]; rfl
  | ups count => rw [climb_ups hjoin hmore, climb_ups hparts hnames]

/-! ## Climbing past names -/

theorem foldl_cleanStep_names_ups {names : List Part} (h : ∀ part ∈ names, part.IsName)
    (done : List Part) (more : Nat) :
    (List.replicate (names.length + more) Part.up).foldl cleanStep (names.reverse ++ done) =
      (List.replicate more Part.up).foldl cleanStep done := by
  induction names using List.reverseRecOn with
  | nil => rw [List.length_nil, Nat.zero_add, List.reverse_nil, List.nil_append]
  | append_singleton names part ih =>
    have hnames := ih fun q hq => h q (List.mem_append_left _ hq)
    have hpart := h part (List.mem_append_right _ List.mem_cons_self)
    have hlength : (names ++ [part]).length + more = names.length + more + 1 := by
      rw [List.length_append, List.length_singleton]
      omega
    -- The first `..` takes back the last name.
    rw [hlength, List.replicate_succ, List.reverse_append, List.foldl_cons, ← hnames]
    cases part with
    | name n => rfl
    | _ => cases hpart

theorem foldl_cleanStep_root_ups (count : Nat) :
    (List.replicate count Part.up).foldl cleanStep [.root] = [.root] := by
  induction count with
  | zero => rfl
  | succ count ih => exact ih

/-- What climbs past its names climbs further than before. -/
theorem cleanParts_ups_names_ups {names : List Part} (h : ∀ part ∈ names, part.IsName)
    (count more : Nat) :
    cleanParts (List.replicate count .up ++ names ++ List.replicate (names.length + more) .up) =
      List.replicate (count + more) .up := by
  have hnames := cleanParts_append_names h (List.replicate count .up)
  simp only [cleanParts, foldl_cleanStep_ups, List.reverse_replicate] at hnames
  rw [List.reverse_eq_iff, List.reverse_append, List.reverse_replicate] at hnames
  rw [cleanParts, List.foldl_append, hnames, foldl_cleanStep_names_ups h,
    ← foldl_cleanStep_ups count, ← List.foldl_append, List.replicate_append_replicate,
    foldl_cleanStep_ups, List.reverse_replicate]

/-- A path that climbs past the names of a directory climbs further than the directory. -/
theorem clean_join_of_ups {dir p : Path} {names rest : List Part} {count more : Nat}
    (hdir : dir.parts = List.replicate count .up ++ names) (hnames : ∀ part ∈ names, part.IsName)
    (htext : dir.text ≠ []) (hp : p.parts = List.replicate (names.length + more) .up ++ rest)
    (hrest : ∀ part ∈ rest, part.IsName) (hne : rest ≠ []) :
    (dir.join p).clean = .ofParts (List.replicate (count + more) .up ++ rest) := by
  have hsegments : ∀ part ∈ p.parts, part.IsSegment := hp ▸ Part.isSegment_of_mem_ups hrest
  have hrelative : p.isAbsolute = false := Bool.eq_false_iff.2 fun h =>
    (hsegments .root (isAbsolute_iff_parts.1 h)).elim
  have hclean : (dir.join p).clean.parts = List.replicate (count + more) .up ++ rest := by
    rw [parts_clean, parts_join htext hrelative, body_eq_parts hsegments, hdir, hp,
      ← List.append_assoc, cleanParts_append_names hrest, cleanParts_ups_names_ups hnames,
      if_neg (by simp [hne])]
  rw [← (dir.join p).isCanonical_clean, hclean]

/-- From below the root, every path that climbs so far leads to the root. -/
theorem cleanFrom_of_ups {cwd p : Path} {above names : List Part} {more : Nat}
    (hcwd : cwd.parts = .root :: above) (habove : ∀ part ∈ above, part.IsName)
    (hp : p.parts = List.replicate (above.length + more) .up ++ names)
    (hnames : ∀ part ∈ names, part.IsName) : cleanFrom cwd p = .ofParts (.root :: names) := by
  have hsegments : ∀ part ∈ p.parts, part.IsSegment := hp ▸ Part.isSegment_of_mem_ups hnames
  have hrelative : p.isAbsolute = false := Bool.eq_false_iff.2 fun h =>
    (hsegments .root (isAbsolute_iff_parts.1 h)).elim
  have hjoin : (cwd.join p).parts =
      .root :: above ++ List.replicate (above.length + more) .up ++ names := by
    rw [parts_join (text_ne_nil_of_parts (by rw [hcwd]; simp)) hrelative,
      body_eq_parts hsegments, hcwd, hp, List.append_assoc]
  have hroot :
      cleanParts (.root :: above ++ List.replicate (above.length + more) .up) = [.root] := by
    have habove' := cleanParts_append_names habove [.root]
    rw [cleanParts, List.reverse_eq_iff, List.reverse_append] at habove'
    rw [cleanParts, List.foldl_append, ← List.singleton_append, habove',
      show (cleanParts [Part.root]).reverse = [Part.root] from rfl,
      foldl_cleanStep_names_ups habove, foldl_cleanStep_root_ups, List.reverse_singleton]
  have hclean : (cwd.join p).clean.parts = .root :: names := by
    rw [parts_clean, hjoin, cleanParts_append_names hnames, hroot]
    rfl
  rw [cleanFrom, hrelative, if_neg Bool.false_ne_true, ← (cwd.join p).isCanonical_clean, hclean]

/-! ## Reported spellings -/

theorem text_ofParts_up {ps : List Part} (hne : ps ≠ []) (h : ∀ part ∈ ps, part.IsSegment) :
    (ofParts (.up :: ps)).text = '.' :: '.' :: '/' :: (ofParts ps).text := by
  induction ps using List.reverseRecOn with
  | nil => exact absurd rfl hne
  | append_singleton ps part ih =>
    have hpart := h part (List.mem_append_right _ List.mem_cons_self)
    have hrelative := isAbsolute_of_isSegment hpart
    rw [← List.cons_append, ofParts_append_singleton, ofParts_append_singleton]
    by_cases hnil : ps = []
    · rw [hnil, ofParts_singleton, show ofParts [] = ⟨[]⟩ from rfl, join_nil, Path.join, hrelative]
      rfl
    · have hrest := ih hnil fun q hq => h q (List.mem_append_left _ hq)
      have hsegments : ∀ q ∈ ps, q.IsSegment := fun q hq => h q (List.mem_append_left _ hq)
      have htext : (ofParts ps).text ≠ [] := text_ne_nil_of_parts (by
        rw [parts_ofParts (spelled_of_isSegment hsegments)]
        exact hnil)
      have hlast : ('.' :: '.' :: '/' :: (ofParts ps).text).getLast? =
          (ofParts ps).text.getLast? := by
        cases htail : (ofParts ps).text with
        | nil => exact absurd htail htext
        | cons c t => simp
      rw [Path.join, Path.join, hrelative, hrest, hlast]
      simp only [htext, Bool.false_eq_true, if_false, reduceCtorEq, decide_false, Bool.false_or]
      split <;> rfl

/-- Turning backslashes keeps every `..` at the front of a path. -/
theorem exists_body_forwardSlashes (count : Nat) {names : List Part}
    (h : ∀ part ∈ names, part.IsName) :
    ∃ rest, body ((ofParts (List.replicate count .up ++ names)).forwardSlashes).text =
      List.replicate count .up ++ rest := by
  induction count with
  | zero => exact ⟨_, rfl⟩
  | succ count ih =>
    obtain ⟨rest, hrest⟩ := ih
    by_cases hnil : List.replicate count Part.up ++ names = []
    · refine ⟨[], ?_⟩
      rw [List.replicate_succ, List.cons_append, hnil]
      simp only [List.append_eq_nil_iff, List.replicate_eq_nil_iff] at hnil
      rw [hnil.1]
      rfl
    · refine ⟨rest, ?_⟩
      rw [List.replicate_succ, List.cons_append, List.cons_append, ← hrest, forwardSlashes,
        text_ofParts_up hnil (Part.isSegment_of_mem_ups h)]
      exact body_append_slash ['.', '.'] _

/-- The reported spelling of a path climbs as far as the path, or further. -/
theorem climb_le_asDependency {p : Path} (hp : p.IsTidy) : p.climb ≤ p.asDependency.climb := by
  obtain ⟨stem, names, hparts, hstem, hnames⟩ := hp.parts
  cases hstem with
  | root => rw [climb, hparts]; exact Nat.zero_le _
  | here => rw [climb, hparts]; exact Nat.zero_le _
  | ups count =>
    rw [climb_ups hparts hnames]
    obtain _ | count := count
    · exact Nat.zero_le _
    obtain ⟨rest, hbody⟩ := exists_body_forwardSlashes (count + 1) hnames
    rw [← hparts, hp.canonical] at hbody
    have htext : ∃ t, p.text = '.' :: '.' :: t := by
      rw [← hp.canonical, hparts, List.replicate_succ, List.cons_append]
      by_cases hnil : List.replicate count Part.up ++ names = []
      · rw [hnil]
        exact ⟨[], rfl⟩
      · exact ⟨_, text_ofParts_up hnil (Part.isSegment_of_mem_ups hnames)⟩
    obtain ⟨t, ht⟩ := htext
    have hslashed : p.forwardSlashes.text =
        '.' :: '.' :: t.map fun c => if c = '\\' then '/' else c := by
      rw [forwardSlashes, ht]
      rfl
    have hdependency : p.asDependency = p.forwardSlashes := by
      have hmark : verbatimMark.isPrefixOf? p.forwardSlashes.text = none := by
        rw [hslashed]
        rfl
      rw [asDependency, hmark]
      rfl
    have hhead : headParts (cutHead p.forwardSlashes.text).1 = [] := by
      rw [hslashed]
      rfl
    rw [hdependency, climb, parts_eq, hhead, hbody, List.nil_append,
      List.takeWhile_append_of_pos (by simp)]
    simp

end StyleImports.Path
