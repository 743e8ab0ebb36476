import StyleImports.Render.Inline

/-!
# What an import stands for

With an index, an import stands for the paths of its record (`targets_of_record`), unless it is a
URL request or has no record that leads anywhere; then it stands for what a lookup finds, as it does
without an index (`targets_of_defers`).
-/

set_option autoImplicit false

namespace StyleImports

namespace Index

/-- An index leaves an import to the lookup: it is a URL request, or no record of it leads
anywhere. -/
def Defers (index : Index) (file : Path) (position : Position) (specifier : Text) : Prop :=
  Specifier.isUrl specifier = true ∨
    ∀ d, index.lookup file position specifier = some d → d.target.isFailed = true

theorem decision_of_record {index : Index} {file : Path} {position : Position} {specifier : Text}
    {d : Dependency} (hurl : Specifier.isUrl specifier = false)
    (hd : index.lookup file position specifier = some d) (htarget : d.target.isFailed = false) :
    index.decision file position specifier = .substitute d.target.paths := by
  obtain ⟨place, asked, target⟩ := d
  rw [decision, hurl, hd]
  cases target with
  | failed message => cases htarget
  | single path => rfl
  | many paths => rfl

theorem decision_of_defers {index : Index} {file : Path} {position : Position} {specifier : Text}
    (h : index.Defers file position specifier) :
    ∃ detail, index.decision file position specifier = .defer detail := by
  rw [decision]
  split
  case isTrue => exact ⟨none, rfl⟩
  case isFalse hurl =>
    cases hd : index.lookup file position specifier with
    | none => exact ⟨none, rfl⟩
    | some d =>
      have htarget := h.resolve_left hurl d hd
      obtain ⟨place, asked, target⟩ := d
      cases target with
      | failed message => exact ⟨some message, rfl⟩
      | single path => cases htarget
      | many paths => cases htarget

theorem defers_or_record (index : Index) (file : Path) (position : Position) (specifier : Text) :
    index.Defers file position specifier ∨
      Specifier.isUrl specifier = false ∧
        ∃ d, index.lookup file position specifier = some d ∧ d.target.isFailed = false := by
  cases hurl : Specifier.isUrl specifier with
  | true => exact .inl (.inl hurl)
  | false =>
    cases hd : index.lookup file position specifier with
    | none => exact .inl (.inr fun d hsome => by rw [hd] at hsome; cases hsome)
    | some d =>
      cases htarget : d.target.isFailed with
      | true => exact .inl (.inr fun e hsome => by rw [hd] at hsome; cases hsome; exact htarget)
      | false => exact .inr ⟨rfl, d, rfl, htarget⟩

end Index

namespace Renderer

variable {r : Renderer} {index : Index} {file : Path} {kind : ImportKind} {position : Position}
  {specifier : Text} {found : List Path}

theorem targets_of_record (hindex : r.index = some index)
    (hurl : Specifier.isUrl specifier = false) {d : Dependency}
    (hd : index.lookup file position specifier = some d) (htarget : d.target.isFailed = false) :
    r.targets file kind position specifier = .ok d.target.paths := by
  simp only [targets, hindex, Index.decision_of_record hurl hd htarget]

theorem targets_of_defers (hindex : r.index = some index)
    (h : index.Defers file position specifier) :
    r.targets file kind position specifier = .ok found ↔
      Lookup.resolve ⟨r.fs, r.paths⟩ specifier file = some found := by
  obtain ⟨detail, hdetail⟩ := Index.decision_of_defers h
  simp only [targets, hindex, hdetail]
  cases Lookup.resolve ⟨r.fs, r.paths⟩ specifier file <;> simp

/-- Targets are missing for an import that the index leaves to the lookup and the lookup does not
find. -/
theorem notFound_of_targets (hindex : r.index = some index) {e : RenderError}
    (h : r.targets file kind position specifier = .error e) :
    index.Defers file position specifier ∧
      Lookup.resolve ⟨r.fs, r.paths⟩ specifier file = none ∧
      ∃ detail, e = .notFound kind specifier file position detail := by
  rcases index.defers_or_record file position specifier with hdefers | ⟨hurl, d, hd, htarget⟩
  · obtain ⟨detail, hdetail⟩ := Index.decision_of_defers hdefers
    simp only [targets, hindex, hdetail] at h
    cases hfound : Lookup.resolve ⟨r.fs, r.paths⟩ specifier file with
    | some found =>
      rw [hfound] at h
      cases h
    | none =>
      rw [hfound] at h
      cases h
      exact ⟨hdefers, rfl, detail, rfl⟩
  · rw [targets_of_record hindex hurl hd htarget] at h
    cases h

theorem targets_of_no_index (hindex : r.index = none) :
    r.targets file kind position specifier = .ok found ↔
      Lookup.resolve ⟨r.fs, r.paths⟩ specifier file = some found := by
  simp only [targets, hindex]
  cases Lookup.resolve ⟨r.fs, r.paths⟩ specifier file <;> simp

end Renderer

end StyleImports
