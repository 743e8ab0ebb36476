import Mathlib.Data.List.Perm.Subperm
import StyleImports.Proofs.Walk.Invariant

/-!
# What every interleaving accounts for

`Noted`: the notes of each claimed file are made or pending, each once. `Counted`: each claimed file
is read at most once and visited at most once. Both hold at the start and are kept by every step
(`Noted.step`, `Counted.step`).
-/

set_option autoImplicit false

namespace StyleImports.Walk

variable {s : Setting} {entry : Path} {source : Text} {c c' : Progress}

/-! ## Notes -/

/-- The diagnostics that notes about a file make. -/
def diagnosticsOf (file : Path) (notes : List Note) : List Diagnostic :=
  (notes.filterMap Note.finding?).map (Diagnostic.mk file)

/-- The notes that a branch has still to make. -/
def Branch.pending (s : Setting) (entry : Path) (source : Text) (b : Branch) : List Note :=
  match b.stage with
  | .claimed => (s.readingOf entry source b.file).notes
  | .opened _ => (s.readingOf entry source b.file).notes
  | .resolving _ notes => notes
  | .waiting _ => []

/-- What an interleaving keeps about notes: those of each claimed file are made or pending, each
once. -/
structure Noted (s : Setting) (entry : Path) (source : Text) (c : Progress) : Prop where
  diagnostics :
    (c.state.diagnostics ++
      c.branches.flatMap fun b => diagnosticsOf b.file (b.pending s entry source)).Perm
    (c.state.seen.flatMap fun f => diagnosticsOf f (s.readingOf entry source f).notes)
  sound : ∀ d ∈ c.state.contexts.toList,
    ∃ f ∈ c.state.seen, d ∈ (s.readingOf entry source f).contexts
  complete : ∀ f ∈ c.state.seen, ∀ d ∈ (s.readingOf entry source f).contexts,
    c.state.contexts.contains d = true ∨
      ∃ b ∈ c.branches, b.file = f ∧ d ∈ (b.pending s entry source).filterMap Note.context?

theorem noted_start (s : Setting) (entry : Path) (source : Text) :
    Noted s entry source (.start entry source) where
  diagnostics := .refl _
  sound d hd := nomatch hd
  complete f hf d hd := by
    rw [List.mem_singleton.1 hf] at hd
    exact .inr ⟨_, List.mem_cons_self, (List.mem_singleton.1 hf).symm, hd⟩

/-- A branch that goes on with the same notes pending changes nothing about them. -/
theorem Noted.replace {st : WalkState} {before after : List Branch} {log log' : List Event}
    {b b' : Branch} (h : Noted s entry source ⟨st, before ++ b :: after, log⟩)
    (hfile : b'.file = b.file) (hpending : b'.pending s entry source = b.pending s entry source) :
    Noted s entry source ⟨st, before ++ ([b'] ++ after), log'⟩ where
  diagnostics := by simpa [hfile, hpending] using h.diagnostics
  sound := h.sound
  complete f hf d hd := by
    refine (h.complete f hf d hd).imp_right fun ⟨x, hx, hxf, hxd⟩ => ?_
    simp only [List.mem_append, List.mem_cons] at hx
    rcases hx with hx | rfl | hx
    · exact ⟨x, by simp [hx], hxf, hxd⟩
    · exact ⟨b', by simp, hfile.trans hxf, hpending ▸ hxd⟩
    · exact ⟨x, by simp [hx], hxf, hxd⟩

theorem diagnosticsOf_append (file : Path) (notes more : List Note) :
    diagnosticsOf file (notes ++ more) = diagnosticsOf file notes ++ diagnosticsOf file more := by
  simp only [diagnosticsOf, List.filterMap_append, List.map_append]

theorem diagnostics_take (st : WalkState) (file : Path) (n : Note) :
    (st.take file n).diagnostics = st.diagnostics ++ diagnosticsOf file [n] := by
  cases n <;> simp [WalkState.take, WalkState.report, diagnosticsOf, Note.finding?]

theorem seen_take (st : WalkState) (file : Path) (n : Note) : (st.take file n).seen = st.seen := by
  cases n <;> rfl

theorem contains_contexts_take {st : WalkState} {file d : Path} {n : Note} :
    (st.take file n).contexts.contains d = true ↔
      (∃ dir, n = .context dir ∧ dir.same d = true) ∨ st.contexts.contains d = true := by
  cases n with
  | context dir => simp [WalkState.take, PathSet.contains_add]
  | finding f => simp [WalkState.take, WalkState.report]

theorem mem_contexts_take {st : WalkState} {file d : Path} {n : Note}
    (h : d ∈ (st.take file n).contexts.toList) : n = .context d ∨ d ∈ st.contexts.toList := by
  cases n with
  | context dir => exact (PathTable.mem_keys_insert h).imp_left fun heq => by rw [heq]
  | finding f => exact .inr h

theorem context_or_mem_of_mem {first rest : List Note} {n : Note} {d : Path}
    (h : d ∈ (first ++ n :: rest).filterMap Note.context?) :
    n = .context d ∨ d ∈ (first ++ rest).filterMap Note.context? := by
  obtain ⟨x, hx, hxd⟩ := List.mem_filterMap.1 h
  rcases List.mem_append.1 hx with hx | hx
  · exact .inr (List.mem_filterMap.2 ⟨x, List.mem_append_left _ hx, hxd⟩)
  · rcases List.mem_cons.1 hx with rfl | hx
    · cases x with
      | context dir => exact .inl (congrArg Note.context (Option.some.inj hxd))
      | finding f => cases hxd
    · exact .inr (List.mem_filterMap.2 ⟨x, List.mem_append_right _ hx, hxd⟩)

theorem Noted.note {st : WalkState} {before after : List Branch} {log log' : List Event}
    {file : Path} {dependencies : List Dependency} {first rest : List Note} {n : Note}
    (hfile : file ∈ st.seen) (hn : ∀ d, n = .context d →
      d ∈ (s.readingOf entry source file).contexts)
    (h : Noted s entry source
      ⟨st, before ++ ⟨file, .resolving dependencies (first ++ n :: rest)⟩ :: after, log⟩) :
    Noted s entry source
      ⟨st.take file n, before ++ ([⟨file, .resolving dependencies (first ++ rest)⟩] ++ after),
        log'⟩ := by
  refine ⟨?diagnostics, ?sound, ?complete⟩
  case diagnostics =>
    have hsplit : first ++ n :: rest = first ++ ([n] ++ rest) := rfl
    have hperm := h.diagnostics
    rw [hsplit] at hperm
    simp only [diagnostics_take, seen_take, Branch.pending, List.flatMap_append, List.flatMap_cons,
      List.flatMap_nil, List.append_nil, diagnosticsOf_append] at hperm ⊢
    rw [List.perm_iff_count] at hperm ⊢
    intro d
    have hd := hperm d
    simp only [List.count_append] at hd ⊢
    omega
  case sound =>
    intro d hd
    rw [seen_take]
    rcases mem_contexts_take hd with heq | hd
    · exact ⟨file, hfile, hn d heq⟩
    · exact h.sound d hd
  case complete =>
    intro f hf d hd
    rw [seen_take] at hf
    rcases h.complete f hf d hd with hc | ⟨b, hb, hbf, hbd⟩
    · exact .inl (contains_contexts_take.2 (.inr hc))
    · simp only [List.mem_append, List.mem_cons] at hb
      rcases hb with hb | rfl | hb
      · exact .inr ⟨b, by simp [hb], hbf, hbd⟩
      · rcases context_or_mem_of_mem hbd with heq | hbd
        · exact .inl (contains_contexts_take.2 (.inl ⟨d, heq, Path.same_self d⟩))
        · exact .inr ⟨⟨file, .resolving dependencies (first ++ rest)⟩, by simp, hbf, hbd⟩
      · exact .inr ⟨b, by simp [hb], hbf, hbd⟩

theorem Noted.claim {st : WalkState} {before after : List Branch} {log log' : List Event}
    {file : Path} {dependencies : List Dependency}
    (h : Noted s entry source
      ⟨st, before ++ ⟨file, .resolving dependencies []⟩ :: after, log⟩) :
    Noted s entry source
      ⟨(st.claim (dependencies.flatMap fun d => d.target.paths)).2,
        before ++ ((⟨file, .waiting dependencies⟩ ::
          (st.claim (dependencies.flatMap fun d => d.target.paths)).1.map fun child =>
            ⟨child, .claimed⟩) ++ after), log'⟩ := by
  have hclaimed := WalkState.claimed_claim st (dependencies.flatMap fun d => d.target.paths)
  generalize st.claim (dependencies.flatMap fun d => d.target.paths) = outcome at hclaimed ⊢
  refine ⟨?diagnostics, ?sound, ?complete⟩
  case diagnostics =>
    have hperm := h.diagnostics
    -- Fresh files are listed the other way round than they are visited.
    have hfresh : (outcome.1.reverse.flatMap fun f =>
        diagnosticsOf f (s.readingOf entry source f).notes).Perm
        (outcome.1.flatMap fun f => diagnosticsOf f (s.readingOf entry source f).notes) :=
      (List.reverse_perm _).flatMap_right _
    have hnone : diagnosticsOf file [] = [] := rfl
    simp only [hclaimed.seen, hclaimed.diagnostics, List.flatMap_append, List.flatMap_cons,
      List.flatMap_map, Branch.pending, hnone, List.nil_append] at hperm ⊢
    rw [List.perm_iff_count] at hperm hfresh ⊢
    intro d
    have h₁ := hperm d
    have h₂ := hfresh d
    simp only [List.count_append] at h₁ h₂ ⊢
    omega
  case sound =>
    intro d hd
    rw [hclaimed.contexts] at hd
    obtain ⟨f, hf, hmem⟩ := h.sound d hd
    refine ⟨f, ?_, hmem⟩
    rw [hclaimed.seen]
    exact List.mem_append_right _ hf
  case complete =>
    intro f hf d hd
    rw [hclaimed.seen, List.mem_append, List.mem_reverse] at hf
    rw [hclaimed.contexts]
    rcases hf with hf | hf
    · exact .inr ⟨⟨f, .claimed⟩, by simp [hf], rfl, hd⟩
    · refine (h.complete f hf d hd).imp_right fun ⟨b, hb, hbf, hbd⟩ => ?_
      simp only [List.mem_append, List.mem_cons] at hb
      rcases hb with hb | rfl | hb
      · exact ⟨b, by simp [hb], hbf, hbd⟩
      · simp [Branch.pending] at hbd
      · exact ⟨b, by simp [hb], hbf, hbd⟩

theorem Noted.commit {st : WalkState} {before after : List Branch} {log log' : List Event}
    {file : Path} {dependencies : List Dependency}
    (h : Noted s entry source ⟨st, before ++ ⟨file, .waiting dependencies⟩ :: after, log⟩) :
    Noted s entry source ⟨st.commit file dependencies, before ++ ([] ++ after), log'⟩ where
  diagnostics := by
    have hnone : diagnosticsOf file [] = [] := rfl
    simpa [Branch.pending, hnone, WalkState.commit] using h.diagnostics
  sound := h.sound
  complete f hf d hd := by
    refine (h.complete f hf d hd).imp_right ?_
    rintro ⟨b, hb, hbf, hbd⟩
    simp only [List.mem_append, List.mem_cons] at hb
    rcases hb with hb | rfl | hb
    · exact ⟨b, by simp [hb], hbf, hbd⟩
    · simp [Branch.pending] at hbd
    · exact ⟨b, by simp [hb], hbf, hbd⟩

theorem Noted.step (h : Noted s entry source c) (hinv : Inv s entry source c)
    (hstep : Step s c c') : Noted s entry source c' := by
  cases hstep with
  | advance before after log hadvance =>
    cases hadvance with
    | read file => exact h.replace rfl rfl
    | visit file content =>
      have hcontent : content = s.contentOf entry source file :=
        hinv.faithful ⟨file, .opened content⟩ (by simp)
      exact h.replace rfl (by simp [Branch.pending, Setting.readingOf, hcontent])
    | note file dependencies first rest n =>
      have hfile := hinv.seen.mem_iff.2 (List.mem_append_left _
        (List.mem_map_of_mem (List.mem_append_right _ List.mem_cons_self)))
      have hfaithful :=
        hinv.faithful ⟨file, .resolving dependencies (first ++ n :: rest)⟩ (by simp)
      refine h.note hfile fun d hd => ?_
      exact List.mem_filterMap.2 ⟨n, hfaithful.2 n (by simp), by rw [hd]; rfl⟩
    | claim file dependencies => exact h.claim
    | commit file dependencies => exact h.commit

theorem Noted.of_reachable (h : Reachable s entry source c) :
    Noted s (s.fs.cwd.absoluteFrom entry) source c := by
  induction h with
  | refl => exact noted_start ..
  | tail hsteps hstep ih => exact ih.step (Inv.of_reachable hsteps) hstep

/-- A file that has claimed its targets has made its notes. -/
theorem Noted.contains_of_settled (h : Noted s entry source c) (hinv : Inv s entry source c)
    {f d : Path} (hf : f ∈ c.settled) (hd : d ∈ (s.readingOf entry source f).contexts) :
    c.state.contexts.contains d = true := by
  refine (h.complete f (hinv.mem_seen_of_settled hf) d hd).resolve_right ?_
  rintro ⟨b, hb, rfl, hpending⟩
  obtain ⟨dependencies, hstage⟩ := hinv.waiting_of_settled hb hf
  simp [Branch.pending, hstage] at hpending

/-! ## Reads and visits -/

namespace Branch

/-- The file of a branch that has still to read it. -/
def unread? (b : Branch) : Option Path :=
  match b.stage with
  | .claimed => some b.file
  | _ => none

/-- The file of a branch that has still to visit it. -/
def unvisited? (b : Branch) : Option Path :=
  match b.stage with
  | .claimed => some b.file
  | .opened _ => some b.file
  | _ => none

end Branch

/-- What an interleaving keeps about what it does: a claimed file is read at most once and visited
at most once, and not again after it was. -/
structure Counted (c : Progress) : Prop where
  reads : (c.reads ++ c.branches.filterMap Branch.unread?).Subperm c.state.seen
  visits : (c.visits ++ c.branches.filterMap Branch.unvisited?).Subperm c.state.seen

theorem counted_start (entry : Path) (source : Text) : Counted (.start entry source) where
  reads := List.nil_subperm
  visits := .refl _

/-- A step that claims nothing and leaves no more to be read and visited than there was. -/
theorem Counted.keep {st st' : WalkState} {before after branches : List Branch}
    {log events : List Event} {b : Branch} (h : Counted ⟨st, before ++ b :: after, log⟩)
    (hseen : st'.seen = st.seen)
    (hreads : (events.filterMap Event.read? ++ branches.filterMap Branch.unread?).Subperm
      b.unread?.toList)
    (hvisits : (events.filterMap Event.visit? ++ branches.filterMap Branch.unvisited?).Subperm
      b.unvisited?.toList) :
    Counted ⟨st', before ++ (branches ++ after), log ++ events⟩ := by
  obtain ⟨hr, hv⟩ := h
  have hcons : ∀ f : Branch → Option Path,
      (b :: after).filterMap f = (f b).toList ++ after.filterMap f := fun f => by
    rw [List.filterMap_cons]
    cases f b <;> rfl
  simp only [Progress.reads, Progress.visits, List.filterMap_append, hcons] at hr hv
  refine ⟨?_, ?_⟩ <;>
    simp only [Progress.reads, Progress.visits, List.filterMap_append, hseen]
  · rw [List.subperm_iff_count] at hr hreads ⊢
    intro p
    have h₁ := hr p
    have h₂ := hreads p
    simp only [List.count_append] at h₁ h₂ ⊢
    omega
  · rw [List.subperm_iff_count] at hv hvisits ⊢
    intro p
    have h₁ := hv p
    have h₂ := hvisits p
    simp only [List.count_append] at h₁ h₂ ⊢
    omega

theorem Counted.claim {st : WalkState} {before after : List Branch} {log : List Event}
    {file : Path} {dependencies : List Dependency}
    (h : Counted ⟨st, before ++ ⟨file, .resolving dependencies []⟩ :: after, log⟩) :
    Counted
      ⟨(st.claim (dependencies.flatMap fun d => d.target.paths)).2,
        before ++ ((⟨file, .waiting dependencies⟩ ::
          (st.claim (dependencies.flatMap fun d => d.target.paths)).1.map fun child =>
            ⟨child, .claimed⟩) ++ after), log ++ []⟩ := by
  have hclaimed := WalkState.claimed_claim st (dependencies.flatMap fun d => d.target.paths)
  generalize st.claim (dependencies.flatMap fun d => d.target.paths) = outcome at hclaimed ⊢
  obtain ⟨hr, hv⟩ := h
  refine ⟨?_, ?_⟩
  · simp only [Progress.reads, List.filterMap_append, List.filterMap_cons, List.filterMap_map,
      Function.comp_def, Branch.unread?, List.filterMap_some, List.append_nil, hclaimed.seen]
      at hr ⊢
    rw [List.subperm_iff_count] at hr ⊢
    intro p
    have := hr p
    simp only [List.count_append, List.count_reverse] at this ⊢
    omega
  · simp only [Progress.visits, List.filterMap_append, List.filterMap_cons, List.filterMap_map,
      Function.comp_def, Branch.unvisited?, List.filterMap_some, List.append_nil, hclaimed.seen]
      at hv ⊢
    rw [List.subperm_iff_count] at hv ⊢
    intro p
    have := hv p
    simp only [List.count_append, List.count_reverse] at this ⊢
    omega

/-- Every step keeps the reads and visits accounted for. -/
theorem Counted.step (h : Counted c) (hstep : Step s c c') : Counted c' := by
  cases hstep with
  | advance before after log hadvance =>
    cases hadvance with
    | read file => exact h.keep rfl (.refl _) (.refl _)
    | visit file content =>
      refine h.keep rfl ?_ ?_ <;> cases content <;>
        simp [Event.ofContent, Event.read?, Event.visit?, Branch.unread?, Branch.unvisited?]
    | note file dependencies first rest n =>
      cases n <;> exact h.keep rfl (.refl _) (.refl _)
    | claim file dependencies => exact h.claim
    | commit file dependencies => exact h.keep rfl (.refl _) (.refl _)

theorem Counted.of_reachable (h : Reachable s entry source c) : Counted c := by
  induction h with
  | refl => exact counted_start ..
  | tail _ hstep ih => exact ih.step hstep

theorem pairwise_of_subperm {part whole : List Path} (h : part.Subperm whole)
    (hwhole : whole.Pairwise fun p q => p.same q = false) :
    part.Pairwise fun p q => p.same q = false := by
  obtain ⟨perm, hperm, hsub⟩ := h
  exact (hperm.pairwise_iff fun hpq => by rw [Path.same_comm]; exact hpq).1 (hwhole.sublist hsub)

end StyleImports.Walk
