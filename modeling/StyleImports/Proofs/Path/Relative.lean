import StyleImports.Proofs.Path.Below

/-!
# The way from a directory to a path

`Path.relative` climbs from a directory to where it parts from the path, and goes down from there
(`relative_eq`). From an absolute directory it leads to the path (`clean_join_relative`); a path
that is itself relative is reached as it is seen from the root.
-/

set_option autoImplicit false

namespace StyleImports.Path

variable {base p : Path} {above : List Part}

/-! ## What two paths share -/

/-- What two lists of parts share at their start; there they part. -/
theorem exists_common (xs ys : List Part) :
    ∃ shared left right, xs = shared ++ left ∧ ys = shared ++ right ∧
      ((xs.zip ys).takeWhile fun pair => pair.1 = pair.2).length = shared.length ∧
      ∀ part, left.head? = some part → right.head? ≠ some part := by
  induction xs generalizing ys with
  | nil => exact ⟨[], [], ys, rfl, rfl, rfl, nofun⟩
  | cons x xs ih =>
    cases ys with
    | nil => exact ⟨[], x :: xs, [], rfl, rfl, rfl, fun _ _ => nofun⟩
    | cons y ys =>
      by_cases h : x = y
      · obtain ⟨shared, left, right, rfl, rfl, hlength, hpart⟩ := ih ys
        refine ⟨x :: shared, left, right, rfl, by rw [h]; rfl, ?_, hpart⟩
        rw [List.zip_cons_cons, List.takeWhile_cons, if_pos (by simpa using h), List.length_cons,
          hlength]
        rfl
      · refine ⟨[], x :: xs, y :: ys, rfl, rfl, ?_, ?_⟩
        · rw [List.zip_cons_cons, List.takeWhile_cons, if_neg (by simpa using h)]
          rfl
        · rintro part ⟨⟩ hy
          exact h (Option.some.inj hy).symm

/-- The way to a path: out of what is left of the directory, into what is left of the path. -/
theorem relative_eq (base p : Path) :
    ∃ shared left right, base.parts = shared ++ left ∧ p.parts = shared ++ right ∧
      relative base p = ofParts (List.replicate left.length .up ++ right) ∧
      ∀ part, left.head? = some part → right.head? ≠ some part := by
  obtain ⟨shared, left, right, hbase, hp, hlength, hpart⟩ := exists_common base.parts p.parts
  refine ⟨shared, left, right, hbase, hp, ?_, hpart⟩
  rw [relative, hlength, hp, List.drop_left, hbase, List.length_append, Nat.add_sub_cancel_left]

theorem IsPlain.relative (h : p.IsPlain) (base : Path) : (relative base p).IsPlain := by
  obtain ⟨shared, left, right, -, hp, hway, -⟩ := relative_eq base p
  rw [hway]
  refine not_mem_ofParts (by decide) (by decide) fun n hn => h.of_mem_parts ?_
  rcases List.mem_append.1 hn with hn | hn
  · cases List.eq_of_mem_replicate hn
  · rw [hp]
    exact List.mem_append_right _ hn

/-! ## Going the way -/

theorem isAbsolute_of_segments (h : ∀ part ∈ p.parts, part.IsSegment) : p.isAbsolute = false :=
  Bool.eq_false_iff.2 fun habsolute => h .root (isAbsolute_iff_parts.1 habsolute)

theorem cleanParts_names_ups {names : List Part} (h : ∀ part ∈ names, part.IsName)
    (ps : List Part) :
    cleanParts (ps ++ names ++ List.replicate names.length .up) = cleanParts ps := by
  have hnames := cleanParts_append_names h ps
  rw [cleanParts, List.reverse_eq_iff, List.reverse_append] at hnames
  rw [cleanParts, List.foldl_append, hnames]
  have hups := foldl_cleanStep_names_ups h (cleanParts ps).reverse 0
  rw [Nat.add_zero] at hups
  rw [hups, List.replicate_zero, List.foldl_nil, List.reverse_reverse]

theorem parts_join_ofParts {ps : List Part} (hbase : base.parts ≠ [])
    (hps : ∀ part ∈ ps, part.IsSegment) : (base.join (ofParts ps)).parts = base.parts ++ ps := by
  have hparts : (ofParts ps).parts = ps := parts_ofParts (spelled_of_isSegment hps)
  have hsegments : ∀ part ∈ (ofParts ps).parts, part.IsSegment := by rwa [hparts]
  rw [parts_join (text_ne_nil_of_parts hbase) (isAbsolute_of_segments hsegments),
    body_eq_parts hsegments, hparts]

theorem clean_join_of_shared {shared left right : List Part} (hbase : base.parts = shared ++ left)
    (hp : p.parts = shared ++ right) (hne : shared ≠ []) (hleft : ∀ part ∈ left, part.IsName)
    (hright : ∀ part ∈ right, part.IsName) :
    (base.join (ofParts (List.replicate left.length .up ++ right))).clean = p.clean := by
  refine clean_of_cleanParts ?_
  rw [parts_join_ofParts (by simp [hbase, hne]) (Part.isSegment_of_mem_ups hright),
    ← List.append_assoc, cleanParts_append_names hright, hbase, cleanParts_names_ups hleft, hp,
    cleanParts_append_names hright]

theorem clean_join_past {way : Path} (hbase : base.parts = .root :: above)
    (habove : ∀ part ∈ above, part.IsName) {names : List Part} {count : Nat}
    (hway : way.parts = List.replicate (base.parts.length + count) .up ++ names)
    (hnames : ∀ part ∈ names, part.IsName) :
    (base.join way).clean = ofParts (.root :: names) := by
  have hlength : base.parts.length + count = above.length + (count + 1) := by
    rw [hbase, List.length_cons]
    omega
  have hrelative := isAbsolute_of_segments (hway ▸ Part.isSegment_of_mem_ups hnames)
  have hseen := cleanFrom_of_ups hbase habove (hway.trans (by rw [hlength])) hnames
  rwa [cleanFrom, hrelative, if_neg Bool.false_ne_true] at hseen

/-- A clean relative path is some `..` and names; behind more `..` it climbs further, and seen from
the root it is the names. -/
theorem exists_ups_of_relative (hp : p.clean = p) (hrelative : p.isAbsolute = false) :
    ∃ count names, (∀ part ∈ names, part.IsName) ∧
      (∀ more, 0 < more → (ofParts (List.replicate more .up ++ p.parts)).parts =
        List.replicate (more + count) .up ++ names) ∧
      cleanFrom ⟨['/']⟩ p = ofParts (.root :: names) := by
  rcases p.clean_eq_or_cleaned with hdot | hcleaned
  · rw [hp] at hdot
    refine ⟨0, [], fun _ h => (nomatch h), fun more hmore => ?_, by rw [hdot]; rfl⟩
    -- A `.` behind a slash is no part.
    have hspelled : Spelled (List.replicate more Part.up) :=
      spelled_of_isSegment fun part hmem => by
        rw [List.eq_of_mem_replicate hmem]
        exact True.intro
    have htext : (ofParts (List.replicate more .up)).text ≠ [] :=
      text_ne_nil_of_parts (by rw [parts_ofParts hspelled]; simp; omega)
    rw [hdot, show (⟨['.']⟩ : Path).parts = [.here] from rfl, ofParts_append_singleton,
      parts_join htext rfl, parts_ofParts hspelled]
    rfl
  · obtain ⟨stem, names, hparts, hnames, hstem⟩ := hcleaned.exists_names
    rw [hp, List.reverse_reverse] at hparts
    rcases hstem with rfl | ⟨count, rfl⟩
    · rw [isAbsolute_iff_parts.2 (by rw [hparts]; exact List.mem_cons_self)] at hrelative
      cases hrelative
    · refine ⟨count, names, hnames, fun more _ => ?_, ?_⟩
      · rw [hparts, ← List.append_assoc, List.replicate_append_replicate]
        exact parts_ofParts (spelled_of_isSegment (Part.isSegment_of_mem_ups hnames))
      · have hroot : (⟨['/']⟩ : Path).parts = [.root] := rfl
        exact cleanFrom_of_ups hroot nofun
          (hparts.trans (by rw [List.length_nil, Nat.zero_add])) hnames

/-- The way from an absolute directory to a clean path leads there; a relative path is reached as it
is seen from the root. -/
theorem clean_join_relative (hbase : base.parts = .root :: above)
    (habove : ∀ part ∈ above, part.IsName) (hp : p.clean = p) :
    (base.join (relative base p)).clean = cleanFrom ⟨['/']⟩ p := by
  obtain ⟨shared, left, right, hshared, hright, hway, hpart⟩ := relative_eq base p
  rw [hway]
  cases shared with
  | cons first more =>
    -- What is shared starts at the root, so the path is absolute too.
    rw [hbase, List.cons_append, List.cons.injEq] at hshared
    obtain ⟨rfl, rfl⟩ := hshared
    have habsolute : p.isAbsolute = true :=
      isAbsolute_iff_parts.2 (by rw [hright]; exact List.mem_cons_self)
    obtain ⟨names, hparts, hnames⟩ := exists_names_clean habsolute
    rw [hp, hright, List.cons_append, List.cons.injEq] at hparts
    rw [cleanFrom, if_pos habsolute]
    refine clean_join_of_shared hbase hright (List.cons_ne_nil _ _) ?_ ?_
    · exact fun part hmem => habove part (List.mem_append_right _ hmem)
    · exact fun part hmem => hnames part (hparts.2 ▸ List.mem_append_right _ hmem)
  | nil =>
    rw [List.nil_append] at hshared hright
    have hrelative : p.isAbsolute = false := by
      rw [Bool.eq_false_iff]
      intro habsolute
      obtain ⟨names, hparts, -⟩ := exists_names_clean habsolute
      rw [hp, hright] at hparts
      exact hpart .root (by rw [← hshared, hbase]; rfl) (by rw [hparts]; rfl)
    obtain ⟨count, names, hnames, hups, hseen⟩ := exists_ups_of_relative hp hrelative
    rw [← hshared, ← hright, hseen]
    exact clean_join_past hbase habove (hups _ (by rw [hbase]; simp)) hnames

end StyleImports.Path
