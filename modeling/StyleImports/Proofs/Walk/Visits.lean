import StyleImports.Proofs.Walk.Cached

/-!
# Visits of claimed files

A walk visits a file once it is claimed, and enters it once: files in line for a visit are claimed,
no two of them are the same, and none is entered (`Awaits`). So each visit enters a new file with
what its content comes to. What holds of each of these moves (`Moves`) holds of every walk, with any
cache (`Moves.of_fromSource`).
-/

set_option autoImplicit false

namespace StyleImports.Walk

open Setting (importsIn)

variable {s : Setting} {entry file : Path} {source text : Text} {budget : Nat}
  {st st' : WalkState}

/-! ## Files in line -/

/-- Files in line for a visit: they are claimed, no two are the same, and none is entered; all that
is entered is claimed. -/
structure Awaits (files : List Path) (st : WalkState) : Prop where
  claimed : ∀ p : Path, st.index.contains p = true → p.isAmong st.seen = true
  seen : ∀ p ∈ files, p.isAmong st.seen = true
  fresh : ∀ p ∈ files, st.index.contains p = false
  distinct : files.Pairwise fun p q => p.same q = false

/-- Files in line are visited after those before them, and stay in line until then. -/
theorem Awaits.append {files more : List Path} (h : Awaits (files ++ more) st)
    (hgrows : Grows files st st') : Awaits files st ∧ Awaits more st' := by
  obtain ⟨hfiles, hmore, hapart⟩ := List.pairwise_append.1 h.distinct
  refine ⟨⟨h.claimed, fun p hp => h.seen p (List.mem_append_left _ hp),
    fun p hp => h.fresh p (List.mem_append_left _ hp), hfiles⟩, ?claimed, ?seen, ?fresh, hmore⟩
  case claimed =>
    intro p hp
    rcases (hgrows.entered p).1 hp with hp | hp | hp
    · exact hgrows.seen p (h.claimed p hp)
    · obtain ⟨q, hq, hsame⟩ := Path.isAmong_iff.1 hp
      rw [← Path.isAmong_congr hsame]
      exact hgrows.seen q (h.seen q (List.mem_append_left _ hq))
    · exact hp.2
  case seen => exact fun p hp => hgrows.seen p (h.seen p (List.mem_append_right _ hp))
  case fresh =>
    intro p hp
    have hseen := h.seen p (List.mem_append_right _ hp)
    have hfresh := h.fresh p (List.mem_append_right _ hp)
    have hother : p.isAmong files = false := by
      rw [← Bool.not_eq_true, Path.isAmong_iff]
      rintro ⟨q, hq, hsame⟩
      rw [hapart q hq p hp] at hsame
      cases hsame
    rw [← Bool.not_eq_true, hgrows.entered p]
    simp [hseen, hfresh, hother]

theorem Awaits.claim {paths fresh : List Path} {st₁ : WalkState} (h : Awaits [file] st)
    (hclaimed : st.Claimed paths (fresh, st₁)) : Awaits fresh st₁ where
  claimed p hp := by
    rw [hclaimed.index] at hp
    rw [hclaimed.seen, Path.isAmong_append, h.claimed p hp, Bool.or_true]
  seen p hp := by
    rw [hclaimed.seen, Path.isAmong_append, Path.isAmong_of_mem (List.mem_reverse.2 hp),
      Bool.true_or]
  fresh p hp := by
    rw [hclaimed.index, ← Bool.not_eq_true]
    intro hentered
    have hseen := h.claimed p hentered
    rw [(hclaimed.fresh p hp).2] at hseen
    cases hseen
  distinct := hclaimed.distinct

/-- A file is not entered while the files claimed for it are visited. -/
theorem Awaits.fresh_of_grows {paths fresh : List Path} {st₁ st₂ : WalkState}
    (h : Awaits [file] st) (hclaimed : st.Claimed paths (fresh, st₁))
    (hgrows : Grows fresh st₁ st₂) : st₂.index.contains file = false := by
  have hfile := h.seen file List.mem_cons_self
  have hnot : file.isAmong fresh = false := hclaimed.isAmong_fresh hfile
  have hseen : file.isAmong st₁.seen = true := by
    rw [hclaimed.seen, Path.isAmong_append, hfile, Bool.or_true]
  rw [← Bool.not_eq_true, hgrows.entered file, hclaimed.index]
  simp [h.fresh file List.mem_cons_self, hnot, hseen]

theorem Awaits.congr {files : List Path} {st₁ : WalkState} (h : Awaits files st)
    (hseen : st₁.seen = st.seen) (hindex : st₁.index = st.index) : Awaits files st₁ where
  claimed := by rw [hseen, hindex]; exact h.claimed
  seen := by rw [hseen]; exact h.seen
  fresh := by rw [hindex]; exact h.fresh
  distinct := h.distinct

theorem awaits_start (entry : Path) (cache : Option Cache) :
    Awaits [entry] (.start entry cache) :=
  ⟨nofun, by simp [WalkState.start, Path.isAmong], by simp [WalkState.start]; rfl,
    List.pairwise_singleton ..⟩

/-! ## Moves -/

/-- What holds of the moves of a walk: no file is visited, files are visited one after another, a
file cannot be read or parsed, or the records of a file are found, what they lead to is claimed and
visited, and the file is entered. -/
structure Moves (s : Setting) (entry : Path) (source : Text)
    (P : List Path → WalkState → WalkState → Prop) : Prop where
  nil : ∀ st, P [] st st
  append : ∀ files more st st₁ st₂, Awaits (files ++ more) st → Grows files st st₁ →
    P files st st₁ → P more st₁ st₂ → P (files ++ more) st st₂
  unread : ∀ st file e, Awaits [file] st → s.contentOf entry source file = .error e →
    P [file] st (st.fail file (.unread e))
  unparsed : ∀ st file text e, Awaits [file] st → s.contentOf entry source file = .ok text →
    Sheet.parse text = .error e → P [file] st (st.fail file (.unparsed e))
  commit : ∀ st file text nodes recorded fresh st₁ st₂, Awaits [file] st →
    s.contentOf entry source file = .ok text → Sheet.parse text = .ok nodes →
    resolveImports s file text (importsIn (.ok text)) st = recorded →
    recorded.2.Claimed (recorded.1.flatMap fun d => d.target.paths) (fresh, st₁) →
    st₂.index.contains file = false → P fresh st₁ st₂ →
    P [file] st (st₂.commit file recorded.1)

section
variable {P : List Path → WalkState → WalkState → Prop} (h : Moves s entry source P)
include h

theorem Moves.of_children {children : List Path}
    (hvisit : ∀ {file text st st'}, visit s budget file text st = some st' →
      s.contentOf entry source file = .ok text → entry.isAmong st.seen = true →
      Awaits [file] st → P [file] st st')
    (hchildren : ∀ child ∈ children, child.same entry = false)
    (hentry : entry.isAmong st.seen = true) (hawaits : Awaits children st)
    (hvisited : children.foldlM (visitRead s budget) st = some st') : P children st st' := by
  induction children generalizing st with
  | nil =>
    cases hvisited
    exact h.nil _
  | cons child children ih =>
    rw [List.foldlM_cons] at hvisited
    obtain ⟨st₁, hchild, hrest⟩ := Option.bind_eq_some_iff.1 hvisited
    have hcontent : s.contentOf entry source child = s.fs.readText child := by
      rw [Setting.contentOf, hchildren child List.mem_cons_self]
      rfl
    have hline : Awaits ([child] ++ children) st := hawaits
    have hgrows : Grows [child] st st₁ :=
      grows_of_children (by rw [List.foldlM_cons, hchild]; rfl)
    obtain ⟨hfirst, hlater⟩ := hline.append hgrows
    refine h.append [child] children st st₁ st' hline hgrows ?_ ?_
    · rw [visitRead] at hchild
      cases hread : s.fs.readText child with
      | error e =>
        rw [hread] at hchild
        cases hchild
        exact h.unread st child e hfirst (hcontent.trans hread)
      | ok text =>
        rw [hread] at hchild
        exact hvisit hchild (hcontent.trans hread) hentry hfirst
    · exact ih (fun p hp => hchildren p (List.mem_cons_of_mem _ hp)) (hgrows.seen entry hentry)
        hlater hrest

theorem Moves.of_visit (hvisit : visit s budget file text st = some st')
    (htext : s.contentOf entry source file = .ok text) (hentry : entry.isAmong st.seen = true)
    (hawaits : Awaits [file] st) : P [file] st st' := by
  induction budget generalizing file text st st' with
  | zero => cases hvisit
  | succ budget ih =>
    cases hparse : Sheet.parse text with
    | error e =>
      simp only [visit, hparse, Option.some.injEq] at hvisit
      rw [← hvisit]
      exact h.unparsed st file text e hawaits htext hparse
    | ok nodes =>
      have himports : Sheet.importsOf nodes = importsIn (.ok text) := by
        simp [importsIn, hparse]
      rw [visit_of_parse hparse, himports] at hvisit
      obtain ⟨-, hseen, hindex⟩ := recorded_resolveImports s file text (importsIn (.ok text)) st
      generalize hrecorded : resolveImports s file text (importsIn (.ok text)) st = recorded
        at hvisit hseen hindex
      have hwaiting : Awaits [file] recorded.2 := hawaits.congr hseen hindex
      have hclaimed := recorded.2.claimed_claim (recorded.1.flatMap fun d => d.target.paths)
      obtain ⟨visited, hvisited, rfl⟩ := Option.map_eq_some_iff.1 hvisit
      generalize recorded.2.claim (recorded.1.flatMap fun d => d.target.paths) = claimed
        at hclaimed hvisited
      rw [← hseen] at hentry
      -- No child is the entry, which is claimed from the start.
      have hchildren : ∀ child ∈ claimed.1, child.same entry = false := by
        intro child hchild
        rw [Path.same_comm]
        exact Path.same_eq_false_of_mem (hclaimed.isAmong_fresh hentry) hchild
      have hclaims : entry.isAmong claimed.2.seen = true := by
        rw [hclaimed.seen, Path.isAmong_append, hentry, Bool.or_true]
      refine h.commit st file text nodes recorded claimed.1 claimed.2 visited hawaits htext hparse
        hrecorded hclaimed ?_ ?_
      · exact hwaiting.fresh_of_grows hclaimed (grows_of_children hvisited)
      · exact h.of_children ih hchildren hclaims (hwaiting.claim hclaimed) hvisited

end

/-- A walk that ends makes its moves from its start, and returns what they lead to. -/
theorem Moves.of_fromSource {P : List Path → WalkState → WalkState → Prop}
    (h : Moves s (s.fs.cwd.absoluteFrom entry) source P) {cache cache' : Option Cache} {w : Walk}
    (hwalk : fromSource s budget cache entry source = some (w, cache')) :
    ∃ st, P [s.fs.cwd.absoluteFrom entry] (.start (s.fs.cwd.absoluteFrom entry) cache) st ∧
      w = ofState (s.fs.cwd.absoluteFrom entry) st ∧ cache' = st.cache := by
  obtain ⟨st, hst, heq⟩ := Option.map_eq_some_iff.1 hwalk
  cases heq
  refine ⟨st, h.of_visit hst ?_ ?_ (awaits_start _ cache), rfl, rfl⟩
  · simp [Setting.contentOf]
  · simp [WalkState.start, Path.isAmong]

end StyleImports.Walk
