import StyleImports.Proofs.Walk.Claim
import StyleImports.Proofs.Walk.Interleaving

/-!
# The walk as an interleaving

`Walk.visit` without a cache goes through the steps of a branch one after the other, and through
those of the files that it has claimed before it commits. So what it returns is where an
interleaving leads (`leaves_of_visit`, `reachable_of_fromSource`).
-/

set_option autoImplicit false

namespace StyleImports

/-! ## Notes -/

namespace WalkState

def takeAll (st : WalkState) (file : Path) (notes : List Note) : WalkState :=
  notes.foldl (fun st n => st.take file n) st

/-- Makes the notes of a file and claims its targets; the fresh ones are returned in order. -/
def settle (st : WalkState) (file : Path) (r : Reading) : List Path × WalkState :=
  (st.takeAll file r.notes).claim r.targets

theorem takeAll_append (st : WalkState) (file : Path) (notes more : List Note) :
    st.takeAll file (notes ++ more) = (st.takeAll file notes).takeAll file more :=
  List.foldl_append

theorem takeAll_contexts (st : WalkState) (file : Path) (dirs : List Path) :
    st.takeAll file (dirs.map .context) =
      { st with contexts := dirs.foldl PathSet.add st.contexts } := by
  induction dirs generalizing st with
  | nil => rfl
  | cons dir dirs ih => exact ih _

theorem note_eq_takeAll (file : Path) (st : WalkState) (r : Resolution) :
    WalkState.note file st r = st.takeAll file r.notes := by
  rw [Resolution.notes, takeAll_append, takeAll_contexts]
  cases hfailure : r.failure <;> simp [WalkState.note, hfailure, takeAll, take]

theorem takeAll_flatMap (st : WalkState) (file : Path) (resolutions : List Resolution) :
    resolutions.foldl (WalkState.note file) st =
      st.takeAll file (resolutions.flatMap Resolution.notes) := by
  induction resolutions generalizing st with
  | nil => rfl
  | cons r resolutions ih =>
    rw [List.foldl_cons, ih, note_eq_takeAll, List.flatMap_cons, takeAll_append]

theorem cache_takeAll (st : WalkState) (file : Path) (notes : List Note) :
    (st.takeAll file notes).cache = st.cache := by
  induction notes generalizing st with
  | nil => rfl
  | cons n notes ih =>
    refine (ih (st.take file n)).trans ?_
    cases n <;> rfl

end WalkState

namespace Walk

variable {s : Setting}

/-! ## Visits -/

/-- Visits a claimed file after reading it. -/
def visitRead (s : Setting) (budget : Nat) (st : WalkState) (file : Path) : Option WalkState :=
  match s.fs.readText file with
  | .error e => some (st.fail file (.unread e))
  | .ok text => visit s budget file text st

/-- Without a cache, a visit settles the file, visits what it has claimed and commits. -/
theorem visit_succ {st : WalkState} (hcache : st.cache = none) (budget : Nat) (file : Path)
    (text : Text) :
    visit s (budget + 1) file text st =
      ((st.settle file (s.reading file (.ok text))).1.foldlM (visitRead s budget)
        (st.settle file (s.reading file (.ok text))).2).map
          fun st => st.commit file (s.reading file (.ok text)).dependencies := by
  simp only [visit, Setting.reading]
  cases Sheet.parse text with
  | error e => rfl
  | ok nodes =>
    simp only [resolveImports, hcache, Option.filter_none, resolveFresh, WalkState.takeAll_flatMap]
    rfl

theorem foldlM_eq_some_of_imp {α β : Type} {f g : β → α → Option β}
    (hfg : ∀ b a c, f b a = some c → g b a = some c) {xs : List α} {b c : β}
    (h : xs.foldlM f b = some c) : xs.foldlM g b = some c := by
  induction xs generalizing b with
  | nil => exact h
  | cons x xs ih =>
    rw [List.foldlM_cons] at h ⊢
    obtain ⟨d, hd, hrest⟩ := Option.bind_eq_some_iff.1 h
    exact Option.bind_eq_some_iff.2 ⟨d, hfg b x d hd, ih hrest⟩

/-- A larger budget changes nothing about a visit that ends. -/
theorem visit_mono {budget more : Nat} {file : Path} {text : Text} {st st' : WalkState}
    (hle : budget ≤ more) (h : visit s budget file text st = some st') :
    visit s more file text st = some st' := by
  induction budget generalizing more file text st st' with
  | zero => cases h
  | succ budget ih =>
    obtain _ | more := more
    · omega
    simp only [visit] at h ⊢
    cases hparse : Sheet.parse text with
    | error e =>
      rw [hparse] at h
      exact h
    | ok nodes =>
      rw [hparse] at h
      obtain ⟨visited, hvisited, hcommit⟩ := Option.map_eq_some_iff.1 h
      refine Option.map_eq_some_iff.2 ⟨visited, foldlM_eq_some_of_imp (fun b child c hc => ?_)
        hvisited, hcommit⟩
      cases hread : s.fs.readText child with
      | error e =>
        rw [hread] at hc
        exact hc
      | ok text =>
        rw [hread] at hc
        exact ih (by omega) hc

theorem visitRead_mono {budget more : Nat} {file : Path} {st st' : WalkState}
    (hle : budget ≤ more) (h : visitRead s budget st file = some st') :
    visitRead s more st file = some st' := by
  rw [visitRead] at h ⊢
  cases hread : s.fs.readText file with
  | error e =>
    rw [hread] at h
    exact h
  | ok text =>
    rw [hread] at h
    exact visit_mono hle h

/-! ## Steps of one branch -/

theorem Step.of_advance {st st' : WalkState} {b : Branch} {branches : List Branch}
    {events : List Event} (h : Advance s st b st' branches events) (before after : List Branch)
    (log : List Event) :
    Steps s ⟨st, before ++ b :: after, log⟩
      ⟨st', before ++ (branches ++ after), log ++ events⟩ :=
  .single (.advance before after log h)

theorem steps_takeAll (st : WalkState) (before after : List Branch) (log : List Event)
    (file : Path) (dependencies : List Dependency) (notes : List Note) :
    Steps s ⟨st, before ++ ⟨file, .resolving dependencies notes⟩ :: after, log⟩
      ⟨st.takeAll file notes, before ++ ⟨file, .resolving dependencies []⟩ :: after, log⟩ := by
  induction notes generalizing st with
  | nil => exact .refl
  | cons n notes ih =>
    have hstep := Step.of_advance (s := s) (.note st file dependencies [] notes n) before after log
    rw [List.append_nil] at hstep
    exact hstep.trans (ih (st.take file n))

/-- A branch with the content of its file goes on until its targets are claimed. -/
theorem steps_settle (st : WalkState) (before after : List Branch) (log : List Event)
    (file : Path) (content : Except FileError Text) :
    Steps s ⟨st, before ++ ⟨file, .opened content⟩ :: after, log⟩
      ⟨(st.settle file (s.reading file content)).2,
        before ++ (⟨file, .waiting (s.reading file content).dependencies⟩ ::
          (st.settle file (s.reading file content)).1.map fun child => ⟨child, .claimed⟩) ++ after,
        log ++ Event.ofContent file content⟩ := by
  refine (Step.of_advance (.visit st file content) before after log).trans ?_
  refine (steps_takeAll ..).trans ?_
  have hstep := Step.of_advance (s := s) (.claim (st.takeAll file (s.reading file content).notes)
    file (s.reading file content).dependencies) before after (log ++ Event.ofContent file content)
  rw [List.append_nil, ← List.append_assoc] at hstep
  exact hstep

theorem steps_fail (st : WalkState) (before after : List Branch) (log : List Event) (file : Path)
    (e : FileError) :
    Steps s ⟨st, before ++ ⟨file, .opened (.error e)⟩ :: after, log⟩
      ⟨st.fail file (.unread e), before ++ after, log⟩ := by
  have hnone : Event.ofContent file (.error e) = [] := rfl
  have hsettle := steps_settle (s := s) st before after log file (.error e)
  have hcommit := Step.of_advance (s := s) (.commit (st.report file (.unread e)) file []) before
    after log
  rw [hnone, List.append_nil, List.append_assoc] at hsettle
  rw [List.append_nil, List.nil_append] at hcommit
  exact hsettle.trans hcommit

/-! ## Steps of a visit -/

/-- A walk without a cache from a state to another one takes some branches out. -/
def Leaves (s : Setting) (st : WalkState) (branches : List Branch) (st' : WalkState) : Prop :=
  st.cache = none → st'.cache = none ∧ ∀ before after log, ∃ log',
    Steps s ⟨st, before ++ branches ++ after, log⟩ ⟨st', before ++ after, log'⟩

theorem cache_settle (st : WalkState) (file : Path) (r : Reading) :
    (st.settle file r).2.cache = st.cache :=
  (WalkState.claimed_claim ..).cache.trans (st.cache_takeAll file r.notes)

theorem Leaves.refl (s : Setting) (st : WalkState) : Leaves s st [] st := fun hcache =>
  ⟨hcache, fun before after log => ⟨log, by simpa using Relation.ReflTransGen.refl⟩⟩

theorem Leaves.append {st st₁ st₂ : WalkState} {branches more : List Branch}
    (h : Leaves s st branches st₁) (hmore : Leaves s st₁ more st₂) :
    Leaves s st (branches ++ more) st₂ := by
  intro hcache
  obtain ⟨hcache₁, hsteps⟩ := h hcache
  obtain ⟨hcache₂, hrest⟩ := hmore hcache₁
  refine ⟨hcache₂, fun before after log => ?_⟩
  obtain ⟨log₁, hlog₁⟩ := hsteps before (more ++ after) log
  obtain ⟨log₂, hlog₂⟩ := hrest before after log₁
  refine ⟨log₂, ?_⟩
  rw [List.append_assoc] at hlog₁ hlog₂ ⊢
  rw [List.append_assoc]
  exact hlog₁.trans hlog₂

theorem leaves_of_read {budget : Nat} {child : Path} {st st' : WalkState}
    (hvisit : ∀ file text st st', visit s budget file text st = some st' →
      Leaves s st [⟨file, .opened (.ok text)⟩] st')
    (h : visitRead s budget st child = some st') : Leaves s st [⟨child, .claimed⟩] st' := by
  have hopened : Leaves s st [⟨child, .opened (s.fs.readText child)⟩] st' := by
    rw [visitRead] at h
    cases hread : s.fs.readText child with
    | error e =>
      simp only [hread, Option.some.injEq] at h
      intro hcache
      rw [← h]
      exact ⟨hcache, fun before after log => ⟨log, by simpa using steps_fail ..⟩⟩
    | ok text =>
      simp only [hread] at h
      exact hvisit child text st st' h
  intro hcache
  obtain ⟨hcache', hsteps⟩ := hopened hcache
  refine ⟨hcache', fun before after log => ?_⟩
  obtain ⟨log', hlog'⟩ := hsteps before after (log ++ [.read child])
  have hread := Step.of_advance (s := s) (.read st child) before after log
  rw [List.append_assoc] at hlog' ⊢
  exact ⟨log', hread.trans hlog'⟩

theorem leaves_of_children {budget : Nat} {children : List Path} {st st' : WalkState}
    (hvisit : ∀ file text st st', visit s budget file text st = some st' →
      Leaves s st [⟨file, .opened (.ok text)⟩] st')
    (h : children.foldlM (visitRead s budget) st = some st') :
    Leaves s st (children.map fun child => ⟨child, .claimed⟩) st' := by
  induction children generalizing st with
  | nil =>
    cases h
    exact .refl s _
  | cons child children ih =>
    rw [List.foldlM_cons] at h
    obtain ⟨st₁, hchild, hrest⟩ := Option.bind_eq_some_iff.1 h
    exact (leaves_of_read hvisit hchild).append (ih hrest)

/-- A visit is a run of steps that takes its branch out. -/
theorem leaves_of_visit {budget : Nat} {file : Path} {text : Text} {st st' : WalkState}
    (h : visit s budget file text st = some st') :
    Leaves s st [⟨file, .opened (.ok text)⟩] st' := by
  induction budget generalizing file text st st' with
  | zero => cases h
  | succ budget ih =>
    intro hcache
    rw [visit_succ hcache] at h
    obtain ⟨visited, hvisited, rfl⟩ := Option.map_eq_some_iff.1 h
    obtain ⟨hcache', hsteps⟩ :=
      leaves_of_children (fun _ _ _ _ => ih) hvisited ((cache_settle ..).trans hcache)
    refine ⟨hcache', fun before after log => ?_⟩
    have hsettle := steps_settle (s := s) st before after log file (.ok text)
    generalize s.reading file (.ok text) = r at *
    obtain ⟨log', hlog'⟩ := hsteps (before ++ [⟨file, .waiting r.dependencies⟩]) after
      (log ++ Event.ofContent file (.ok text))
    have hcommit := Step.of_advance (s := s) (.commit visited file r.dependencies) before after log'
    refine ⟨log' ++ [], ?_⟩
    simp only [List.append_assoc, List.cons_append, List.nil_append] at hsettle hlog' hcommit ⊢
    exact hsettle.trans (hlog'.trans hcommit)

theorem leaves_of_visitRead {budget : Nat} {file : Path} {st st' : WalkState}
    (h : visitRead s budget st file = some st') : Leaves s st [⟨file, .claimed⟩] st' :=
  leaves_of_read (fun _ _ _ _ => leaves_of_visit) h

/-- What a walk without a cache returns is where a complete interleaving leads. -/
theorem reachable_of_fromSource {budget : Nat} {entry : Path} {source : Text} {w : Walk}
    {cache : Option Cache} (h : fromSource s budget none entry source = some (w, cache)) :
    ∃ c, Reachable s entry source c ∧ c.branches = [] ∧
      w = ofState (s.fs.cwd.absoluteFrom entry) c.state := by
  obtain ⟨st, hst, hw⟩ := Option.map_eq_some_iff.1 h
  obtain ⟨_, hsteps⟩ := leaves_of_visit hst rfl
  obtain ⟨log, hlog⟩ := hsteps [] [] []
  exact ⟨⟨st, [], log⟩, hlog, rfl, (Prod.mk.inj hw).1.symm⟩

end Walk

end StyleImports
