import Mathlib.Data.List.Perm.Subperm
import StyleImports.Proofs.Lookup.Twins
import StyleImports.Proofs.Render.Ending
import StyleImports.Proofs.Render.Targets

/-!
# Every render ends

Over files in memory, a call for an import is made for a path that the index speaks of, or for a
stored file that was looked up. Two calls for one stored file under different paths, neither of them
known to the index, look their imports up in the same directories, so that the later one repeats the
earlier one (`repeats_of_place`). A trail without repetitions holds a call for the entry, for each
path of the index and for each stored file at most once (`length_le_span`), and no render is too
deep (`render_ne_tooDeep`).
-/

set_option autoImplicit false

namespace StyleImports

theorem Path.length_le_of_isAmong {paths others : List Path}
    (hdistinct : paths.Pairwise fun p q => p.same q = false)
    (h : ∀ p ∈ paths, p.isAmong others = true) : paths.length ≤ others.length := by
  have hnodup : (paths.map Path.parts).Nodup :=
    List.pairwise_map.2 (hdistinct.imp fun hpq hparts => by
      rw [Path.same_iff.2 hparts] at hpq
      cases hpq)
  have hsubset : paths.map Path.parts ⊆ others.map Path.parts := by
    intro parts hparts
    obtain ⟨p, hp, rfl⟩ := List.mem_map.1 hparts
    obtain ⟨q, hq, hsame⟩ := Path.isAmong_iff.1 (h p hp)
    exact List.mem_map.2 ⟨q, hq, Path.same_iff.1 hsame⟩
  have hlength := (hnodup.subperm hsubset).length_le
  rwa [List.length_map, List.length_map] at hlength

namespace Renderer

/-- The paths that the index of a renderer speaks of. -/
def indexed (r : Renderer) : List Path :=
  match r.index with
  | some index => index.keys ++ Index.targets index
  | none => []

theorem span_eq (r : Renderer) : r.span = r.fs.size + r.indexed.length + 1 := by
  unfold span indexed
  cases r.index with
  | none => rfl
  | some index => simp [PathTable.keys, PathTable.size]

variable {r : Renderer} {m : Memory} {urls : Option UrlRebaser} {file p : Path} {kind : ImportKind}
  {position : Position} {specifier : Text} {found : List Path}

theorem targets_of_not_indexed (h : file.isAmong r.indexed = false) :
    r.targets file kind position specifier = .ok found ↔
      Lookup.resolve ⟨r.fs, r.paths⟩ specifier file = some found := by
  cases hindex : r.index with
  | none => exact targets_of_no_index hindex
  | some index =>
    have hmissing : index.get? file = none := by
      have hkeys : file.isAmong index.keys = false := by
        simp only [indexed, hindex, Path.isAmong_append, Bool.or_eq_false_iff] at h
        exact h.1
      have hcontains : index.contains file = file.isAmong index.keys := by
        simp only [PathTable.contains, PathTable.keys, Path.isAmong, List.any_map]
        rfl
      rw [← Option.isNone_iff_eq_none, ← Option.not_isSome, ← index.contains_eq_isSome_get?,
        hcontains, hkeys]
      rfl
    refine targets_of_defers hindex (.inr fun d hd => ?_)
    rw [Index.lookup, hmissing] at hd
    cases hd

/-- What an import stands for is in the index, or is found among the files. -/
theorem indexed_or_finds (hfs : r.fs = m.fileSystem) (hplaced : m.IsPlaced)
    (hcwd : m.cwd.isAbsolute = true) (h : r.targets file kind position specifier = .ok found)
    (hp : p ∈ found) : p ∈ r.indexed ∨ m.Finds p := by
  have hlookup : Lookup.resolve ⟨r.fs, r.paths⟩ specifier file = some found → m.Finds p := by
    intro hfound
    have horigin := Lookup.mem_resolve hfound hp
    rw [hfs] at horigin
    exact horigin.finds hplaced hcwd
  cases hindex : r.index with
  | none => exact .inr (hlookup ((targets_of_no_index hindex).1 h))
  | some index =>
    rcases index.defers_or_record file position specifier with hdefers | ⟨hurl, d, hd, htarget⟩
    · exact .inr (hlookup ((targets_of_defers hindex hdefers).1 h))
    · rw [targets_of_record hindex hurl hd htarget] at h
      cases h
      refine .inl ?_
      simp only [indexed, hindex]
      refine List.mem_append_right _ ?_
      rw [Index.lookup] at hd
      split at hd
      · cases hd
      case h_2 dependencies hget =>
        obtain ⟨key, hkey, -⟩ := PathTable.exists_of_get? hget
        exact List.mem_flatMap.2 ⟨_, hkey, List.mem_flatMap.2 ⟨d, List.mem_of_find?_eq_some hd, hp⟩⟩

namespace Call

variable {first c c' : Call} {above : List Call}

/-- A call for a target of an import, with the text of the file. -/
structure IsMade (r : Renderer) (c : Call) : Prop where
  target : ∃ file kind position specifier found,
    r.targets file kind position specifier = .ok found ∧ c.file ∈ found
  reads : r.fs.readText c.file = .ok c.text

/-- Every call of a trail but the first one is made for an import, each for another file. -/
theorem Trail.exists_made (h : Trail r urls first above c) :
    ∃ made, c :: above = made ++ [first] ∧ (∀ d ∈ made, d.IsMade r ∧ d.file ∈ c.file :: c.chain) ∧
      made.Pairwise fun later earlier => later.file.same earlier.file = false := by
  induction h with
  | start => exact ⟨[], rfl, by simp, .nil⟩
  | @call above c c' _ hcalls ih =>
    obtain ⟨made, hsplit, hmade, hdistinct⟩ := ih
    cases hcalls with
    | @below i indent budget target out text hcomes hloop _ hread _ =>
      obtain ⟨_, before, after, _, htargets, _⟩ := hcomes
      refine ⟨_ :: made, by rw [hsplit, List.cons_append], fun d hd => ?_,
        List.pairwise_cons.2 ⟨fun d hd => ?_, hdistinct⟩⟩
      · rcases List.mem_cons.1 hd with rfl | hd
        · exact ⟨⟨⟨_, _, _, _, _, htargets, by simp⟩, hread⟩, List.mem_cons_self⟩
        · exact ⟨(hmade d hd).1, List.mem_cons_of_mem _ (hmade d hd).2⟩
      · rw [← Bool.not_eq_true]
        intro hsame
        rw [Path.isAmong_iff.2 ⟨d.file, (hmade d hd).2, (Path.same_comm _ _).trans hsame⟩] at hloop
        cases hloop

section
variable (hfs : r.fs = m.fileSystem) (hplaced : m.IsPlaced) (hcwd : m.cwd.isAbsolute = true)
include hfs hplaced hcwd

/-- A call for a path that the index does not speak of is made for a file that was looked up. -/
theorem finds_of_made (hc : c.IsMade r) (hindexed : c.file.isAmong r.indexed = false) :
    m.Finds c.file := by
  obtain ⟨_, _, _, _, _, htargets, hmem⟩ := hc.target
  refine (indexed_or_finds hfs hplaced hcwd htargets hmem).resolve_left fun hin => ?_
  rw [Path.isAmong_of_mem hin] at hindexed
  cases hindexed

/-- Calls for one stored file repeat each other, if the index does not speak of their paths. -/
theorem repeats_of_place (hc : c.IsMade r) (hc' : c'.IsMade r)
    (hindexed : c.file.isAmong r.indexed = false) (hindexed' : c'.file.isAmong r.indexed = false)
    (hdistinct : c'.file.same c.file = false) (hsame : m.place c'.file = m.place c.file) :
    c.Repeats r c' := by
  have hfinds := finds_of_made hfs hplaced hcwd hc hindexed
  have hfinds' := finds_of_made hfs hplaced hcwd hc' hindexed'
  have hdirectories := (hfinds'.directories_eq hcwd hfinds hsame).resolve_left (by simp [hdistinct])
  constructor
  · have hread := hc.reads
    have hread' := hc'.reads
    rw [hfs] at hread hread'
    have hcopy := Memory.readText_congr hsame hread'
    exact Except.ok.inj (hcopy.symm.trans hread)
  · intro i found hfound
    have hfound := (targets_of_not_indexed hindexed).1 hfound
    refine (targets_of_not_indexed hindexed').2 ?_
    rw [hfs] at hfound ⊢
    rw [Lookup.resolve_of_directories (hdirectories r.paths)]
    exact hfound

/-- Calls for stored files are no more than these, if no call repeats another one. -/
theorem length_le_size {calls : List Call} (hmade : ∀ d ∈ calls, d.IsMade r)
    (hoff : ∀ d ∈ calls, d.file.isAmong r.indexed = false) (hvaried : Varied r calls)
    (hdistinct : calls.Pairwise fun later earlier => later.file.same earlier.file = false) :
    calls.length ≤ r.fs.size := by
  have hplaces : calls.Pairwise fun later earlier =>
      (m.place later.file).same (m.place earlier.file) = false := by
    refine (hvaried.and hdistinct).imp_of_mem fun hlater hearlier hpair => ?_
    rw [← Bool.not_eq_true]
    intro hsame
    exact hpair.1 (repeats_of_place hfs hplaced hcwd (hmade _ hearlier) (hmade _ hlater)
      (hoff _ hearlier) (hoff _ hlater) hpair.2 (m.place_eq_of_same hsame))
  have hkeys : ∀ p ∈ calls.map fun d => m.place d.file, p.isAmong m.files.keys = true := by
    intro p hp
    obtain ⟨d, hd, rfl⟩ := List.mem_map.1 hp
    have hfinds := finds_of_made hfs hplaced hcwd (hmade d hd) (hoff d hd)
    obtain ⟨key, hkey, hparts⟩ := Memory.exists_key_of_isFile hfinds.file
    exact Path.isAmong_iff.2 ⟨key, hkey, Path.same_iff.2 hparts⟩
  have hle := Path.length_le_of_isAmong (List.pairwise_map.2 hplaces) hkeys
  rw [List.length_map] at hle
  rw [hfs]
  simpa [Memory.fileSystem, PathTable.keys, PathTable.size] using hle

/-- A trail on which no call repeats another one is no longer than the span. -/
theorem length_le_span (htrail : Trail r urls first above c) (hvaried : Varied r (c :: above)) :
    above.length + 1 ≤ r.span := by
  obtain ⟨made, hsplit, hmade, hdistinct⟩ := htrail.exists_made
  rw [hsplit] at hvaried
  have hvaried := (List.pairwise_append.1 hvaried).1
  have hlength : above.length + 1 = made.length + 1 := by
    simpa using congrArg List.length hsplit
  -- Some of the calls are for paths of the index, and the others are for stored files.
  let isIndexed : Call → Bool := fun d => d.file.isAmong r.indexed
  have hindexed : (made.filter isIndexed).length ≤ r.indexed.length := by
    have hamong : ∀ p ∈ (made.filter isIndexed).map Call.file, p.isAmong r.indexed = true := by
      intro p hp
      obtain ⟨d, hd, rfl⟩ := List.mem_map.1 hp
      exact (List.mem_filter.1 hd).2
    have hle := Path.length_le_of_isAmong (List.pairwise_map.2 (hdistinct.filter _)) hamong
    rwa [List.length_map] at hle
  have hstored : (made.filter (!isIndexed ·)).length ≤ r.fs.size := by
    refine length_le_size hfs hplaced hcwd (fun d hd => ?_) (fun d hd => ?_) (hvaried.filter _)
      (hdistinct.filter _)
    · exact (hmade d (List.mem_of_mem_filter hd)).1
    · simpa [isIndexed] using (List.mem_filter.1 hd).2
  have hsum := List.length_eq_length_filter_add (l := made) isIndexed
  rw [span_eq]
  omega

end

end Call

/-- No render over files in memory is too deep. -/
theorem render_ne_tooDeep (hfs : r.fs = m.fileSystem) (hplaced : m.IsPlaced)
    (hcwd : m.cwd.isAbsolute = true) (file : Path) (text : Text) :
    r.render file text ≠ .error .tooDeep := by
  rw [Call.render_eq]
  refine Call.run_ne_tooDeep (fun above c htrail hvaried =>
    Call.length_le_span hfs hplaced hcwd htrail hvaried) .start .nil ?_
  show 2 * r.span ≤ r.budget - 1 + 0 + 1
  rw [budget]
  omega

end Renderer

end StyleImports
