import StyleImports.Proofs.Path.Clean

/-!
# Paths seen from a working directory

`Path.cleanFrom` cleans a path from a working directory. The names at the end of a path are still
there after it (`exists_stem_cleanFrom`), whatever the working directory makes of a `..` before
them. From an absolute directory every path is the root and names (`exists_names_cleanFrom`), and
going on to an entry adds its name (`parts_cleanFrom_of_append`). However a path is spelled, it is
seen as the same (`cleanFrom_congr`).
-/

set_option autoImplicit false

namespace StyleImports.Path

/-! ## Stems and names -/

/-- What stands before the names of a clean path. -/
inductive IsStem : List Part → Prop where
  | root : IsStem [.root]
  | here : IsStem [.here]
  | ups (count : Nat) : IsStem (List.replicate count .up)

theorem exists_stem (p : Path) :
    ∃ stem names, p.clean.parts = stem ++ names ∧ IsStem stem ∧ ∀ part ∈ names, part.IsName := by
  rcases p.clean_eq_or_cleaned with hdot | hcleaned
  · exact ⟨[.here], [], by rw [hdot]; rfl, .here, fun _ h => nomatch h⟩
  · obtain ⟨stem, names, hparts, hnames, hstem⟩ := hcleaned.exists_names
    rw [List.reverse_reverse] at hparts
    refine ⟨stem, names, hparts, ?_, hnames⟩
    rcases hstem with rfl | ⟨count, rfl⟩
    · exact .root
    · exact .ups count

/-- The segments of a path whose parts are a stem and names: some `..` and the names. -/
theorem exists_body {p : Path} {stem names : List Part} (h : p.parts = stem ++ names)
    (hstem : IsStem stem) (hnames : ∀ part ∈ names, part.IsName) :
    ∃ count, body p.text = List.replicate count .up ++ names := by
  have hsegment : ∀ part ∈ body p.text, part.IsSegment := fun part => isSegment_of_mem_body
  rw [parts_eq] at h
  cases hstem with
  | root =>
    refine ⟨0, ?_⟩
    unfold headParts at h
    split at h
    · exact (List.cons.inj h).2
    · cases (List.cons.inj h).1
    · rw [List.nil_append] at h
      exact (hsegment .root (h ▸ List.mem_cons_self)).elim
  | here =>
    refine ⟨0, ?_⟩
    unfold headParts at h
    split at h
    · cases (List.cons.inj h).1
    · exact (List.cons.inj h).2
    · rw [List.nil_append] at h
      exact (hsegment .here (h ▸ List.mem_cons_self)).elim
  | ups count =>
    rw [← parts_eq] at h
    exact ⟨count, by rw [body_eq_parts (h ▸ Part.isSegment_of_mem_ups hnames), h]⟩

/-- Cleaning keeps the names at the end of a path. -/
theorem exists_stem_clean {p : Path} {stem names : List Part} (h : p.parts = stem ++ names)
    (hnames : ∀ part ∈ names, part.IsName) : ∃ stem', p.clean.parts = stem' ++ names := by
  rw [parts_clean, h, cleanParts_append_names hnames]
  split
  case isTrue hnil => exact ⟨[.here], by rw [(List.append_eq_nil_iff.1 hnil).2, List.append_nil]⟩
  case isFalse => exact ⟨_, rfl⟩

/-- The names of a path are still there when it is seen from a working directory. -/
theorem exists_stem_cleanFrom {p : Path} {stem names : List Part} (h : p.parts = stem ++ names)
    (hstem : IsStem stem) (hnames : ∀ part ∈ names, part.IsName) (cwd : Path) :
    ∃ stem', (cleanFrom cwd p).parts = stem' ++ names := by
  rw [cleanFrom]
  split
  case isTrue => exact exists_stem_clean h hnames
  case isFalse habsolute =>
    by_cases hempty : cwd.text = []
    · have hcwd : cwd = ⟨[]⟩ := congrArg Path.mk hempty
      rw [hcwd, join_nil]
      exact exists_stem_clean h hnames
    · obtain ⟨count, hbody⟩ := exists_body h hstem hnames
      have hparts : (cwd.join p).parts = (cwd.parts ++ List.replicate count .up) ++ names := by
        rw [parts_join hempty (by simpa using habsolute), hbody, List.append_assoc]
      exact exists_stem_clean hparts hnames

/-! ## Absolute paths -/

theorem isAbsolute_iff_parts {p : Path} : p.isAbsolute = true ↔ Part.root ∈ p.parts := by
  have hbody : Part.root ∉ body p.text := fun h => isSegment_of_mem_body h
  rw [parts_eq, List.mem_append, or_iff_left hbody, isAbsolute_iff]
  unfold cutHead
  split
  case h_1 t ht => simp [headParts, ht]
  case h_2 ht => simp [headParts, ht]
  case h_3 ht => simp [headParts, ht]
  case h_4 hslash _ _ => simpa [headParts] using hslash

theorem root_mem_foldl_cleanStep {ps done : List Part} (h : Part.root ∈ done) :
    Part.root ∈ ps.foldl cleanStep done := by
  induction ps generalizing done with
  | nil => exact h
  | cons part ps ih =>
    refine ih ?_
    unfold cleanStep
    split
    · exact h
    · exact h
    · exact (List.mem_cons.1 h).resolve_left nofun
    · exact List.mem_cons_of_mem _ h

theorem exists_names_clean {p : Path} (h : p.isAbsolute = true) :
    ∃ names, p.clean.parts = .root :: names ∧ ∀ part ∈ names, part.IsName := by
  have hroot : Part.root ∈ p.clean.parts := by
    have hparts := isAbsolute_iff_parts.1 h
    have hcleaned : Part.root ∈ cleanParts p.parts := by
      obtain ⟨t, ht⟩ := isAbsolute_iff.1 h
      have hfold : Part.root ∈ (body ('/' :: t)).foldl cleanStep [.root] :=
        root_mem_foldl_cleanStep List.mem_cons_self
      rw [parts_eq, ht, cleanParts, List.mem_reverse]
      exact hfold
    rw [parts_clean, if_neg (List.ne_nil_of_mem hcleaned)]
    exact hcleaned
  obtain ⟨stem, names, hparts, hstem, hnames⟩ := p.exists_stem
  rw [hparts, List.mem_append] at hroot
  have hstemRoot : Part.root ∈ stem := hroot.resolve_right fun hmem => hnames _ hmem
  cases hstem with
  | root => exact ⟨names, hparts, hnames⟩
  | here => simp at hstemRoot
  | ups count => cases List.eq_of_mem_replicate hstemRoot

theorem isAbsolute_clean {p : Path} (h : p.isAbsolute = true) : p.clean.isAbsolute = true := by
  obtain ⟨names, hparts, _⟩ := exists_names_clean h
  exact isAbsolute_iff_parts.2 (hparts ▸ List.mem_cons_self)

theorem isAbsolute_join {base : Path} (h : base.isAbsolute = true) (p : Path) :
    (base.join p).isAbsolute = true := by
  obtain ⟨t, ht⟩ := isAbsolute_iff.1 h
  rw [join]
  split
  · assumption
  · split <;> simp [isAbsolute, ht]

theorem cleanFrom_eq_clean (cwd p : Path) : ∃ q : Path, cleanFrom cwd p = q.clean := by
  rw [cleanFrom]
  split
  · exact ⟨p, rfl⟩
  · exact ⟨cwd.join p, rfl⟩

/-- From an absolute directory every path is the root and names. -/
theorem exists_names_cleanFrom {cwd : Path} (h : cwd.isAbsolute = true) (p : Path) :
    ∃ names, (cleanFrom cwd p).parts = .root :: names ∧ ∀ part ∈ names, part.IsName := by
  rw [cleanFrom]
  split
  case isTrue hp => exact exists_names_clean hp
  case isFalse => exact exists_names_clean (isAbsolute_join h p)

theorem isAbsolute_cleanFrom {cwd : Path} (h : cwd.isAbsolute = true) (p : Path) :
    (cleanFrom cwd p).isAbsolute = true := by
  obtain ⟨names, hparts, _⟩ := exists_names_cleanFrom h p
  exact isAbsolute_iff_parts.2 (hparts ▸ List.mem_cons_self)

/-- A clean absolute path without backslashes stays as it is from everywhere. -/
theorem absoluteFrom_clean {q : Path} (habsolute : q.clean.isAbsolute = true)
    (hplain : q.clean.IsPlain) (cwd : Path) : cwd.absoluteFrom q.clean = q.clean := by
  rw [absoluteFrom, q.isCanonical_clean.asDependency_eq hplain, cleanFrom, if_pos habsolute,
    clean_clean]

/-- From an absolute directory without backslashes an absolute path stays as it is. -/
theorem absoluteFrom_absoluteFrom {cwd : Path} (habsolute : cwd.isAbsolute = true)
    (hplain : cwd.IsPlain) (p : Path) :
    cwd.absoluteFrom (cwd.absoluteFrom p) = cwd.absoluteFrom p := by
  obtain ⟨q, hq⟩ := cleanFrom_eq_clean cwd p.asDependency
  have hreported : (cleanFrom cwd p.asDependency).IsPlain := by
    rw [cleanFrom]
    split
    · exact p.isPlain_asDependency.clean
    · exact (hplain.join p.isPlain_asDependency).clean
  have hrooted : (cleanFrom cwd p.asDependency).isAbsolute = true :=
    isAbsolute_cleanFrom habsolute p.asDependency
  have heq : cwd.absoluteFrom p = q.clean := hq
  rw [hq] at hreported hrooted
  rw [heq, absoluteFrom_clean hrooted hreported]

/-- A path that is given as an absolute one stays as it is once it is brought to its spelling. -/
theorem absoluteFrom_of_isAbsolute {p : Path} (h : p.asDependency.isAbsolute = true) (cwd : Path) :
    cwd.absoluteFrom (cwd.absoluteFrom p) = cwd.absoluteFrom p := by
  have heq : cwd.absoluteFrom p = p.asDependency.clean := by rw [absoluteFrom, cleanFrom, if_pos h]
  rw [heq, absoluteFrom_clean (isAbsolute_clean h) p.isPlain_asDependency.clean]

/-! ## Spellings -/

section
variable {p q : Path}

theorem body_eq_dropWhile (p : Path) :
    body p.text = p.parts.dropWhile fun part => part = .root || part = .here := by
  have hbody : (body p.text).dropWhile (fun part => part = .root || part = .here) =
      body p.text := by
    cases hsegments : body p.text with
    | nil => rfl
    | cons first rest =>
      have hfirst : first.IsSegment := isSegment_of_mem_body (hsegments ▸ List.mem_cons_self)
      refine List.dropWhile_cons_of_neg ?_
      cases first <;> simp_all [Part.IsSegment]
  rw [parts_eq, headParts.eq_def]
  split
  · exact hbody.symm
  · exact hbody.symm
  · exact hbody.symm

theorem isAbsolute_congr (h : p.same q = true) : p.isAbsolute = q.isAbsolute := by
  rw [Bool.eq_iff_iff, isAbsolute_iff_parts, isAbsolute_iff_parts, same_iff.1 h]

theorem clean_congr (h : p.same q = true) : p.clean = q.clean := by
  rw [clean, clean, same_iff.1 h]

/-- A path is seen by its parts, from whichever directory. -/
theorem cleanFrom_congr (cwd : Path) (h : p.same q = true) : cleanFrom cwd p = cleanFrom cwd q := by
  rw [cleanFrom, cleanFrom, isAbsolute_congr h]
  split
  case isTrue => exact clean_congr h
  case isFalse hq =>
    by_cases hcwd : cwd = ⟨[]⟩
    · rw [hcwd, join_nil, join_nil]
      exact clean_congr h
    · have htext : cwd.text ≠ [] := fun hnil => hcwd (congrArg Path.mk hnil)
      have hq : q.isAbsolute = false := by simpa using hq
      refine clean_congr (same_iff.2 ?_)
      rw [parts_join htext ((isAbsolute_congr h).trans hq), parts_join htext hq,
        body_eq_dropWhile, body_eq_dropWhile, same_iff.1 h]

theorem join_congr (h : p.same q = true) (r : Path) : (p.join r).same (q.join r) = true := by
  by_cases hr : r.isAbsolute = true
  · rw [join, join, if_pos hr, if_pos hr]
    exact same_self r
  · have hparts := same_iff.1 h
    have hrelative : r.isAbsolute = false := by simpa using hr
    by_cases hnil : p.text = []
    · have hother : q.text = [] := parts_eq_nil_iff.1 (hparts ▸ parts_eq_nil_iff.2 hnil)
      rw [show p = q from congrArg Path.mk (hnil.trans hother.symm)]
      exact same_self _
    · have hother : q.text ≠ [] := fun hother =>
        hnil (parts_eq_nil_iff.1 (hparts ▸ parts_eq_nil_iff.2 hother))
      rw [same_iff, parts_join hnil hrelative, parts_join hother hrelative, hparts]

end

/-! ## Entries -/

theorem isAbsolute_of_isName {n : Text} (h : (Part.name n).IsName) :
    (⟨n⟩ : Path).isAbsolute = false :=
  isAbsolute_of_isSegment h.isSegment

theorem parts_clean_of_append {p q : Path} {n : Text} (hp : p.isAbsolute = true)
    (hn : (Part.name n).IsName) (h : q.parts = p.parts ++ [.name n]) :
    q.clean.parts = p.clean.parts ++ [.name n] := by
  have hne : cleanParts p.parts ≠ [] := by
    obtain ⟨names, hparts, _⟩ := exists_names_clean hp
    rw [parts_clean] at hparts
    intro hnil
    rw [if_pos hnil] at hparts
    cases hparts
  rw [parts_clean, parts_clean, h,
    cleanParts_append_names (fun part hpart => List.mem_singleton.1 hpart ▸ hn), if_neg hne,
    if_neg (by simp)]

theorem parts_cleanFrom_of_append {cwd p q : Path} {n : Text} (hcwd : cwd.isAbsolute = true)
    (hn : (Part.name n).IsName) (h : q.parts = p.parts ++ [.name n]) :
    (cleanFrom cwd q).parts = (cleanFrom cwd p).parts ++ [.name n] := by
  have habsolute : q.isAbsolute = p.isAbsolute := by
    rw [Bool.eq_iff_iff, isAbsolute_iff_parts, isAbsolute_iff_parts, h]
    simp
  simp only [cleanFrom, habsolute]
  split
  case isTrue hp => exact parts_clean_of_append hp hn h
  case isFalse hp =>
    have hrelative : p.isAbsolute = false := by simpa using hp
    have hcwdText : cwd.text ≠ [] := by
      obtain ⟨t, ht⟩ := isAbsolute_iff.1 hcwd
      rw [ht]
      simp
    refine parts_clean_of_append (isAbsolute_join hcwd p) hn ?_
    rw [parts_join hcwdText hrelative, parts_join hcwdText (habsolute.trans hrelative),
      List.append_assoc, body_eq_dropWhile, body_eq_dropWhile, h, List.dropWhile_append]
    split <;> simp_all

end StyleImports.Path
