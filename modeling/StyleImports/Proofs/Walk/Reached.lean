import StyleImports.Proofs.Graph.Reach
import StyleImports.Proofs.Walk.Records

/-!
# How a walk spreads

What a visit enters into the graph is reached from the visited file, and nothing is entered twice
(`Walk.Spreads`). So each file of a graph is reached from the entry (`reaches_of_fromSource`), and
the cycles that a walk reports are those of the edges that close one (`exists_cycle_iff`).
-/

set_option autoImplicit false

namespace StyleImports

/-! ## Graphs that grow -/

namespace Index

variable {index more : Index} {p q : Path}

/-- A graph stands within another one: the other has all its files, with the same imports. -/
def Within (index more : Index) : Prop :=
  ∀ p dependencies, index.get? p = some dependencies → more.get? p = some dependencies

theorem Within.trans {most : Index} (h : index.Within more) (h' : more.Within most) :
    index.Within most := fun p dependencies hget => h' p dependencies (h p dependencies hget)

theorem Within.insert {file : Path} (dependencies : List Dependency)
    (h : index.contains file = false) : index.Within (index.insert file dependencies) := by
  intro p others hget
  have hother : p.same file = false := by
    rw [← Bool.not_eq_true]
    intro hsame
    rw [PathTable.contains_eq_isSome_get?, ← PathTable.get?_congr hsame, hget] at h
    cases h
  rw [PathTable.get?_insert, hother]
  exact hget

theorem Within.edgesFrom (h : index.Within more) (hp : index.contains p = true) :
    more.edgesFrom p = index.edgesFrom p := by
  rw [PathTable.contains_eq_isSome_get?] at hp
  obtain ⟨dependencies, hget⟩ := Option.isSome_iff_exists.1 hp
  rw [Index.edgesFrom, Index.edgesFrom, hget, h p dependencies hget]

theorem Within.leads (h : index.Within more) (hl : index.Leads p q) : more.Leads p q := by
  obtain ⟨e, he, htarget⟩ := hl
  refine ⟨e, ?_, htarget⟩
  rw [h.edgesFrom (contains_of_mem_edgesFrom he)]
  exact he

theorem Within.reaches (h : index.Within more) (hreaches : index.Reaches p q) :
    more.Reaches p q :=
  hreaches.imp_right (Relation.TransGen.mono (fun _ _ => h.leads) _ _)

theorem leads_of_mem {dependencies : List Dependency} (hget : index.get? p = some dependencies)
    {d : Dependency} (hd : d ∈ dependencies) (hq : q ∈ d.target.paths) : index.Leads p q := by
  refine ⟨⟨p, d.position, q⟩, ?_, Path.same_self q⟩
  rw [edgesFrom, hget]
  exact List.mem_flatMap.2 ⟨d, hd, List.mem_map_of_mem hq⟩

end Index

namespace Walk

variable {s : Setting} {file : Path} {text : Text} {budget : Nat} {st st' : WalkState}

/-! ## What is reached -/

/-- A finding that an edge closes a cycle. -/
def IsCycle : Finding → Bool
  | .cycle _ _ => true
  | _ => false

/-- What becomes of a state when files in line are visited: what was entered stays, what is entered
is reached from these files, and no cycle is reported. -/
structure Spreads (files : List Path) (st st' : WalkState) : Prop where
  kept : st.index.Within st'.index
  reached : ∀ p : Path, st'.index.contains p = true →
    st.index.contains p = true ∨ ∃ f ∈ files, st'.index.Reaches f p
  quiet : ∀ d ∈ st'.diagnostics, d ∈ st.diagnostics ∨ IsCycle d.finding = false

theorem Spreads.append {files more : List Path} {st₁ st₂ : WalkState} (h : Spreads files st st₁)
    (h' : Spreads more st₁ st₂) : Spreads (files ++ more) st st₂ where
  kept := h.kept.trans h'.kept
  reached p hp := by
    rcases h'.reached p hp with hp | ⟨f, hf, hreaches⟩
    · rcases h.reached p hp with hp | ⟨f, hf, hreaches⟩
      · exact .inl hp
      · exact .inr ⟨f, List.mem_append_left _ hf, h'.kept.reaches hreaches⟩
    · exact .inr ⟨f, List.mem_append_right _ hf, hreaches⟩
  quiet d hd := (h'.quiet d hd).elim (h.quiet d) .inr

theorem Spreads.fail {finding : Finding} (hnew : st.index.contains file = false)
    (hquiet : IsCycle finding = false) : Spreads [file] st (st.fail file finding) where
  kept := Index.Within.insert _ hnew
  reached p hp := by
    rcases (contains_commit (st.report file finding) file [] p).1 hp with hp | hp
    · obtain ⟨f, hf, hsame⟩ := Path.isAmong_iff.1 hp
      exact .inr ⟨f, hf, .inl hsame⟩
    · exact .inl hp
  quiet d hd := by
    rcases List.mem_append.1 hd with hd | hd
    · exact .inl hd
    · rw [List.mem_singleton.1 hd]
      exact .inr hquiet

/-- A file leads to what is claimed for it, and so to all that is reached from there. -/
theorem Spreads.commit {dependencies : List Dependency} {fresh : List Path} {st₁ st₂ : WalkState}
    (hclaimed : st.Claimed (dependencies.flatMap fun d => d.target.paths) (fresh, st₁))
    (hnew : st₂.index.contains file = false) (h : Spreads fresh st₁ st₂) :
    Spreads [file] st (st₂.commit file dependencies) := by
  have hkept : st₂.index.Within (st₂.commit file dependencies).index := .insert _ hnew
  refine ⟨?kept, ?reached, ?quiet⟩
  case kept =>
    rw [← hclaimed.index]
    exact h.kept.trans hkept
  case reached =>
    intro p hp
    rcases (contains_commit st₂ file dependencies p).1 hp with hp | hp
    · obtain ⟨f, hf, hsame⟩ := Path.isAmong_iff.1 hp
      exact .inr ⟨f, hf, .inl hsame⟩
    · rcases h.reached p hp with hp | ⟨f, hf, hreaches⟩
      · rw [hclaimed.index] at hp
        exact .inl hp
      · obtain ⟨d, hd, htarget⟩ := List.mem_flatMap.1 (hclaimed.fresh f hf).1
        have hget : (st₂.commit file dependencies).index.get? file = some dependencies :=
          PathTable.get?_insert_self (Path.same_self file)
        refine .inr ⟨file, List.mem_cons_self, ?_⟩
        exact (Index.leads_of_mem hget hd htarget).reaches.trans (hkept.reaches hreaches)
  case quiet =>
    intro d hd
    have hquiet := h.quiet d hd
    rw [hclaimed.diagnostics] at hquiet
    exact hquiet

theorem quiet_takeAll (s : Setting) (imports : List Sheet.Import) (st : WalkState) :
    ∀ d ∈ (st.takeAll file ((imports.map (s.resolve file)).flatMap Resolution.notes)).diagnostics,
      d ∈ st.diagnostics ∨ IsCycle d.finding = false := by
  have hnotes : ∀ n ∈ (imports.map (s.resolve file)).flatMap Resolution.notes,
      ∀ finding, n = .finding finding → IsCycle finding = false := by
    rintro n hn finding rfl
    obtain ⟨r, _, hr⟩ := List.mem_flatMap.1 hn
    simp only [Resolution.notes, List.mem_append, List.mem_map, reduceCtorEq, and_false,
      exists_false, Option.toList_map, Note.finding.injEq, false_or] at hr
    obtain ⟨e, _, rfl⟩ := hr
    rfl
  generalize (imports.map (s.resolve file)).flatMap Resolution.notes = notes at hnotes
  intro d hd
  induction notes generalizing st with
  | nil => exact .inl hd
  | cons n notes ih =>
    rcases ih (st.take file n) (fun m hm => hnotes m (List.mem_cons_of_mem _ hm)) hd with hd | hd
    · cases n with
      | context dir => exact .inl hd
      | finding finding =>
        rcases List.mem_append.1 hd with hd | hd
        · exact .inl hd
        · rw [List.mem_singleton.1 hd]
          exact .inr (hnotes _ List.mem_cons_self finding rfl)
    · exact .inr hd

theorem quiet_resolveImports (s : Setting) (file : Path) (source : Text)
    (imports : List Sheet.Import) (st : WalkState) :
    ∀ d ∈ (resolveImports s file source imports st).2.diagnostics,
      d ∈ st.diagnostics ∨ IsCycle d.finding = false := by
  intro d hd
  rw [resolveImports] at hd
  split at hd
  · rw [resolveFresh_eq] at hd
    exact quiet_takeAll s imports st d hd
  · dsimp only at hd
    split at hd
    · exact .inl hd
    case h_2 cache' _ =>
      simp only [resolveFresh_eq] at hd
      split at hd <;> exact quiet_takeAll s imports { st with cache := some cache' } d hd

theorem Spreads.congr {files : List Path} {st₁ : WalkState} (h : Spreads files st₁ st')
    (hindex : st₁.index = st.index)
    (hquiet : ∀ d ∈ st₁.diagnostics, d ∈ st.diagnostics ∨ IsCycle d.finding = false) :
    Spreads files st st' where
  kept := hindex ▸ h.kept
  reached p hp := by
    rw [← hindex]
    exact h.reached p hp
  quiet d hd := (h.quiet d hd).elim (hquiet d) .inr

theorem spreads_of_visit (hawaits : Awaits [file] st)
    (h : visit s budget file text st = some st') : Spreads [file] st st' := by
  -- A file is in line while those before it are visited, which the growth of the state tells.
  refine (visit_induction (s := s) (T := fun _ _ => True)
    (P := fun files st st' => Grows files st st' ∧ (Awaits files st → Spreads files st st'))
    (fun _ _ _ => trivial) ?nil ?append ?unread ?unparsed ?commit trivial h).2 hawaits
  case nil =>
    intro st
    exact ⟨.nil st, fun _ => ⟨fun _ _ hget => hget, fun _ hp => .inl hp, fun _ hd => .inl hd⟩⟩
  case append =>
    intro files more st st₁ st₂ ⟨hgrows, hspreads⟩ ⟨hgrows', hspreads'⟩
    refine ⟨hgrows.append hgrows', fun hawaits => ?_⟩
    obtain ⟨hfirst, hrest⟩ := hawaits.append hgrows
    exact (hspreads hfirst).append (hspreads' hrest)
  case unread =>
    intro st file e _
    exact ⟨.fail st file _, fun hawaits => .fail (hawaits.fresh file List.mem_cons_self) rfl⟩
  case unparsed =>
    intro st file text e _ _
    exact ⟨.fail st file _, fun hawaits => .fail (hawaits.fresh file List.mem_cons_self) rfl⟩
  case commit =>
    intro st file text nodes recorded claimed st₂ _ _ hrecorded hclaim ⟨hgrows, hspreads⟩
    have hframe := (recorded_resolveImports s file text (Sheet.importsOf nodes) st).2
    have hquiet := quiet_resolveImports s file text (Sheet.importsOf nodes) st
    rw [← hrecorded] at hframe hquiet
    obtain ⟨hseen, hindex⟩ := hframe
    have hclaimed := recorded.2.claimed_claim (recorded.1.flatMap fun d => d.target.paths)
    rw [← hclaim] at hclaimed
    refine ⟨(Grows.commit hclaimed hgrows).congr hseen hindex, fun hawaits => ?_⟩
    have hwaiting : Awaits [file] recorded.2 :=
      ⟨hindex ▸ hseen ▸ hawaits.claimed, hseen ▸ hawaits.seen, hindex ▸ hawaits.fresh,
        hawaits.distinct⟩
    have hnew := hwaiting.fresh_of_grows hclaimed hgrows
    exact (Spreads.commit hclaimed hnew (hspreads (hwaiting.claim hclaimed))).congr hindex hquiet

/-! ## Walks -/

variable {cache cache' : Option Cache} {entry : Path} {source : Text} {w : Walk}

/-- Every file of a graph is reached from the entry. -/
theorem reaches_of_fromSource (h : fromSource s budget cache entry source = some (w, cache'))
    {p : Path} (hp : w.index.contains p = true) :
    w.index.Reaches (s.fs.cwd.absoluteFrom entry) p := by
  obtain ⟨st, hst, hw⟩ := Option.map_eq_some_iff.1 h
  cases hw
  rcases (spreads_of_visit (awaits_start _ cache) hst).reached p hp with hstart | ⟨f, hf, hreaches⟩
  · cases hstart
  · rw [← List.mem_singleton.1 hf]
    exact hreaches

/-- A walk reports a cycle exactly if an edge of its graph closes one. -/
theorem exists_cycle_iff (h : fromSource s budget cache entry source = some (w, cache')) :
    (∃ d ∈ w.diagnostics, IsCycle d.finding = true) ↔
      w.index.backEdges (s.fs.cwd.absoluteFrom entry) ≠ [] := by
  obtain ⟨st, hst, hw⟩ := Option.map_eq_some_iff.1 h
  cases hw
  have hquiet := (spreads_of_visit (awaits_start _ cache) hst).quiet
  have hmem : ∀ d, d ∈ (ofState (s.fs.cwd.absoluteFrom entry) st).diagnostics ↔
      d ∈ st.diagnostics ∨ d ∈ cycles st.index (s.fs.cwd.absoluteFrom entry) := fun d => by
    rw [ofState, Diagnostic.sort, List.mem_mergeSort, List.mem_append]
  constructor
  · rintro ⟨d, hd, hcycle⟩ hnil
    rcases (hmem d).1 hd with hd | hd
    · rcases hquiet d hd with hstart | hnot
      · cases hstart
      · rw [hnot] at hcycle
        cases hcycle
    · rw [cycles, show st.index.backEdges (s.fs.cwd.absoluteFrom entry) = [] from hnil] at hd
      cases hd
  · intro hback
    obtain ⟨e, he⟩ := List.exists_mem_of_ne_nil _ hback
    exact ⟨⟨e.file, .cycle e.position e.target⟩,
      (hmem _).2 (.inr (List.mem_map.2 ⟨e, he, rfl⟩)), rfl⟩

end Walk

end StyleImports
