import StyleImports.Proofs.Lookup.Alike
import StyleImports.Proofs.Walk.Cached

/-!
# The files that a walk depends on

A walk reads the files that it lists, and no others: the list only grows (`Collects`), every target
of a record is put on it (`listed_of_lookup`), and from files that look alike and hold the same
texts at the listed paths a walk comes to the same result (`fromSource_alike`).
-/

set_option autoImplicit false

namespace StyleImports

theorem WalkState.files_takeAll (st : WalkState) (file : Path) (notes : List Note) :
    (st.takeAll file notes).files = st.files := by
  induction notes generalizing st with
  | nil => rfl
  | cons n notes ih =>
    refine (ih (st.take file n)).trans ?_
    cases n <;> rfl

namespace Walk

variable {s : Setting} {file : Path} {text : Text} {budget : Nat} {st st' : WalkState}

theorem files_resolveImports (s : Setting) (file : Path) (source : Text)
    (imports : List Sheet.Import) (st : WalkState) :
    (resolveImports s file source imports st).2.files = st.files := by
  rw [(frame_resolveImports s file source imports st).2]
  exact st.files_takeAll file (notesOf s file imports)

/-! ## Listed files -/

/-- What becomes of the list of files when files are visited: it grows, and the targets of new
records are put on it. -/
structure Collects (st st' : WalkState) : Prop where
  kept : ∀ p, st.files.contains p = true → st'.files.contains p = true
  listed : ∀ p dependencies, st'.index.get? p = some dependencies →
    st.index.get? p = some dependencies ∨
      ∀ d ∈ dependencies, ∀ t ∈ d.target.paths, st'.files.contains t = true

theorem Collects.refl (st : WalkState) : Collects st st := ⟨fun _ hp => hp, fun _ _ => .inl⟩

theorem Collects.trans {st₁ : WalkState} (h : Collects st st₁) (h' : Collects st₁ st') :
    Collects st st' where
  kept p hp := h'.kept p (h.kept p hp)
  listed p dependencies hget := by
    rcases h'.listed p dependencies hget with hget | hlisted
    · exact (h.listed p dependencies hget).imp_right
        fun hlisted d hd t ht => h'.kept t (hlisted d hd t ht)
    · exact .inr hlisted

theorem Collects.commit {dependencies : List Dependency}
    (h : ∀ d ∈ dependencies, ∀ t ∈ d.target.paths, st.files.contains t = true) :
    Collects st (st.commit file dependencies) where
  kept _ hp := hp
  listed p others hget := by
    rw [WalkState.commit, PathTable.get?_insert] at hget
    split at hget
    · cases hget
      exact .inr h
    · exact .inl hget

theorem Collects.fail (st : WalkState) (file : Path) (finding : Finding) :
    Collects st (st.fail file finding) := by
  have hreport : Collects st (st.report file finding) := ⟨fun _ hp => hp, fun _ _ => .inl⟩
  exact hreport.trans (.commit fun d hd => nomatch hd)

theorem Collects.claim {paths : List Path} {outcome : List Path × WalkState}
    (hclaimed : st.Claimed paths outcome) :
    Collects st outcome.2 ∧ ∀ p ∈ paths, outcome.2.files.contains p = true := by
  refine ⟨⟨fun p hp => ?_, fun p dependencies hget => .inl (hclaimed.index ▸ hget)⟩, fun p hp => ?_⟩
  · rw [hclaimed.files, PathSet.contains_foldl_add]
    exact .inr hp
  · rw [hclaimed.files, PathSet.contains_foldl_add]
    exact .inl (Path.isAmong_of_mem hp)

theorem collects_of_visit (h : visit s budget file text st = some st') : Collects st st' := by
  refine visit_induction (T := fun _ _ => True) (P := fun _ => Collects) (fun _ _ _ => trivial)
    Collects.refl (fun _ _ _ _ _ => Collects.trans) (fun st file _ _ => .fail st file _)
    (fun st file _ _ _ _ => .fail st file _) ?_ trivial h
  intro st file text nodes recorded claimed st₂ _ _ hrecorded hclaim hbelow
  obtain ⟨_, _, hindex⟩ := recorded_resolveImports s file text (Sheet.importsOf nodes) st
  have hfiles := files_resolveImports s file text (Sheet.importsOf nodes) st
  rw [← hrecorded] at hindex hfiles
  have hclaimed := recorded.2.claimed_claim (recorded.1.flatMap fun d => d.target.paths)
  rw [← hclaim] at hclaimed
  have hresolved : Collects st recorded.2 :=
    ⟨fun p hp => hfiles ▸ hp, fun p dependencies hget => .inl (hindex ▸ hget)⟩
  obtain ⟨hclaims, hlisted⟩ := Collects.claim hclaimed
  refine hresolved.trans (hclaims.trans (hbelow.trans (.commit fun d hd t ht => ?_)))
  exact hbelow.kept t (hlisted t (List.mem_flatMap.2 ⟨d, hd, ht⟩))

theorem collects_of_children {children : List Path}
    (h : children.foldlM (visitRead s budget) st = some st') : Collects st st' :=
  children_induction (P := fun _ => Collects) Collects.refl (fun _ _ _ _ _ => Collects.trans)
    (fun st file _ _ => .fail st file _) (fun _ _ _ _ _ => collects_of_visit) h

/-- The targets of the records of a walk are listed. -/
theorem listed_of_lookup {cache cache' : Option Cache} {entry : Path} {source : Text} {w : Walk}
    (h : fromSource s budget cache entry source = some (w, cache')) {position : Position}
    {specifier : Text} {d : Dependency} (hd : w.index.lookup file position specifier = some d) :
    ∀ t ∈ d.target.paths, w.files.contains t = true := by
  obtain ⟨st, hst, hw⟩ := Option.map_eq_some_iff.1 h
  cases hw
  simp only [ofState, Index.lookup] at hd ⊢
  cases hget : st.index.get? file with
  | none =>
    rw [hget] at hd
    cases hd
  | some dependencies =>
    rw [hget] at hd
    have hlisted := ((collects_of_visit hst).listed file dependencies hget).resolve_left
      (Option.some_ne_none _).symm
    exact hlisted d (List.mem_of_find?_eq_some hd)

/-! ## Files that look alike -/

variable {fs' : FileSystem}

theorem resolveImports_alike (h : s.fs.Alike fs') (file : Path) (source : Text)
    (imports : List Sheet.Import) (st : WalkState) :
    resolveImports (s.withFiles fs') file source imports st =
      resolveImports s file source imports st := by
  have hfresh : resolveFresh (s.withFiles fs') file imports = resolveFresh s file imports := by
    funext st
    rw [resolveFresh, resolveFresh, funext (Setting.resolve_alike h file)]
  have hfiles : (s.withFiles fs').fs.isFile = s.fs.isFile := funext h.isFile
  have hoptions : (s.withFiles fs').options = s.options := rfl
  simp only [resolveImports, hfresh, hfiles, hoptions]

/-- The listed files are read alike. -/
def ListsAlike (fs fs' : FileSystem) (st : WalkState) : Prop :=
  ∀ p, st.files.contains p = true → fs'.readText p = fs.readText p

theorem ListsAlike.mono (h : ListsAlike s.fs fs' st') (hcollects : Collects st st') :
    ListsAlike s.fs fs' st := fun p hp => h p (hcollects.kept p hp)

theorem children_alike
    (hvisit : ∀ {file text st st'}, visit s budget file text st = some st' →
      ListsAlike s.fs fs' st' → visit (s.withFiles fs') budget file text st = some st')
    {children : List Path} (hchildren : ∀ child ∈ children, st.files.contains child = true)
    (hlists : ListsAlike s.fs fs' st') (h : children.foldlM (visitRead s budget) st = some st') :
    children.foldlM (visitRead (s.withFiles fs') budget) st = some st' := by
  induction children generalizing st with
  | nil =>
    rw [List.foldlM_nil] at h ⊢
    exact h
  | cons child children ih =>
    have hcollects := collects_of_children h
    rw [List.foldlM_cons] at h ⊢
    obtain ⟨st₁, hchild, hrest⟩ := Option.bind_eq_some_iff.1 h
    have hcollects₁ := collects_of_children hrest
    have hsingle : [child].foldlM (visitRead s budget) st = some st₁ := by
      rw [List.foldlM_cons, hchild]
      rfl
    refine Option.bind_eq_some_iff.2 ⟨st₁, ?_, ih (fun other hother => ?_) hrest⟩
    · have hread := hlists.mono hcollects child (hchildren child List.mem_cons_self)
      rw [visitRead] at hchild ⊢
      rw [show (s.withFiles fs').fs.readText child = s.fs.readText child from hread]
      cases htext : s.fs.readText child with
      | error e =>
        rw [htext] at hchild
        exact hchild
      | ok text =>
        rw [htext] at hchild
        exact hvisit hchild (hlists.mono hcollects₁)
    · exact (collects_of_children hsingle).kept other
        (hchildren other (List.mem_cons_of_mem _ hother))

/-- A visit comes to the same result from files that look alike, if those that it lists are read
alike. -/
theorem visit_alike (h : s.fs.Alike fs') (hvisit : visit s budget file text st = some st')
    (hlists : ListsAlike s.fs fs' st') :
    visit (s.withFiles fs') budget file text st = some st' := by
  induction budget generalizing file text st st' with
  | zero => cases hvisit
  | succ budget ih =>
    cases hparse : Sheet.parse text with
    | error e =>
      simp only [visit, hparse] at hvisit ⊢
      exact hvisit
    | ok nodes =>
      rw [visit_of_parse hparse] at hvisit ⊢
      rw [resolveImports_alike h]
      dsimp only at hvisit ⊢
      obtain ⟨visited, hvisited, rfl⟩ := Option.map_eq_some_iff.1 hvisit
      refine Option.map_eq_some_iff.2 ⟨visited, ?_, rfl⟩
      have hclaimed := (resolveImports s file text (Sheet.importsOf nodes) st).2.claimed_claim
        ((resolveImports s file text (Sheet.importsOf nodes) st).1.flatMap fun d => d.target.paths)
      refine children_alike (fun hvisit hlists => ih hvisit hlists) (fun child hchild => ?_) hlists
        hvisited
      exact (Collects.claim hclaimed).2 child (hclaimed.fresh child hchild).1

/-- A walk comes to the same result from files that look alike, if those that it lists are read
alike. -/
theorem fromSource_alike (h : s.fs.Alike fs') {cache cache' : Option Cache} {entry : Path}
    {source : Text} {w : Walk} (hwalk : fromSource s budget cache entry source = some (w, cache'))
    (hlists : ∀ p, w.files.contains p = true → fs'.readText p = s.fs.readText p) :
    fromSource (s.withFiles fs') budget cache entry source = some (w, cache') := by
  obtain ⟨st, hst, hw⟩ := Option.map_eq_some_iff.1 hwalk
  cases hw
  have hcwd : (s.withFiles fs').fs.cwd = s.fs.cwd := h.cwd
  rw [fromSource, hcwd]
  exact Option.map_eq_some_iff.2 ⟨st, visit_alike h hst hlists, rfl⟩

end Walk

end StyleImports
