import StyleImports.Proofs.Render.Termination
import StyleImports.Proofs.Session.Changes

/-!
# The stack of files being rendered

A render can be carried out on one state, in which a file is pushed onto a stack before its steps
and popped after them, whereas an error leaves the stack as it is (`renderOn`). It comes to what the
render below a chain comes to, with the chain as the stack (`follows_renderOn`): it gives a stack
back when it succeeds, and a file is pushed only if it is not on the stack. Since no render over
files in memory is too deep, every one of them ends, with a result or an error, and no stack on the
way holds a path twice (`render_ends`).
-/

set_option autoImplicit false

namespace StyleImports.Renderer

/-- A render under way: what is rendered, and the stacks of the files being rendered that there
were, the present one first. -/
structure Stacked where
  out : Rendered
  history : List (List Path)

namespace Stacked

/-- Before a render the stack is empty. -/
def start : Stacked := ⟨.empty, [[]]⟩

/-- The files being rendered, the last one first. -/
def stack (st : Stacked) : List Path := st.history.headD []

def write (f : Rendered → Rendered) (st : Stacked) : Stacked := { st with out := f st.out }

def push (file : Path) (st : Stacked) : Stacked :=
  { st with history := (file :: st.stack) :: st.history }

def pop (st : Stacked) : Stacked := { st with history := st.stack.tail :: st.history }

end Stacked

/-- Changes a render under way, or stops it where it is. -/
abbrev Action := EStateM RenderStop Stacked Unit

/-- Puts a file in for an import of the file on top of the stack, unless it is on the stack. -/
def putOn (r : Renderer) (render : Path → Text → Action) (file : Path) (i : Sheet.Import)
    (target : Path) : Action := do
  let st ← get
  if target.isAmong st.stack then
    throw (.failed (.loop i.specifier file i.position target))
  else if i.kind = .once && st.out.holds target then pure ()
  else
    match r.fs.readText target with
    | .error e => throw (.failed (.unread target e))
    | .ok text => do
      modify (.write (·.use target))
      render target text

/-- Renders a step of the file on top of the stack. -/
def stepOn (r : Renderer) (urls : Option UrlRebaser) (render : Path → Text → Nat → Action)
    (file : Path) (base : Nat) : Sheet.Step → Action
  | .line indent text => modify (.write (·.emit (base + indent) (source urls file text)))
  | .request kind position indent path =>
    match r.place file kind position path with
    | .error e => throw (.failed e)
    | .ok (.literal text) => modify (.write (·.emit (base + indent) text))
    | .ok (.files paths) =>
      paths.forM (r.putOn (render · · (base + indent)) file ⟨specifierOf path, position, kind⟩)

/-- Renders a file on top of the stack, at an indentation. -/
def renderOn (r : Renderer) (urls : Option UrlRebaser) : Nat → Path → Text → Nat → Action
  | 0, _, _, _ => throw .tooDeep
  | budget + 1, file, text, base =>
    match Sheet.parse text with
    | .error e => throw (.failed (.unparsed file e))
    | .ok nodes => do
      modify (.push file)
      (Sheet.stepsOf .empty nodes).forM (r.stepOn urls (renderOn r urls budget) file base)
      modify .pop

/-- Renders an entry from an empty stack. -/
def renderStacked (r : Renderer) (file : Path) (text : Text) :
    EStateM.Result RenderStop Stacked Unit :=
  (renderOn r (r.rebaser file) r.budget file text 0).run .start

/-! ## Actions and what they come to -/

/-- No two files of a stack are one path. -/
def Distinct (stack : List Path) : Prop := stack.Pairwise fun p q => p.same q = false

/-- No stack that there was holds a path twice. -/
def Stacked.IsSound (st : Stacked) : Prop := ∀ stack ∈ st.history, Distinct stack

/-- What an action comes to from a state whose stack is a chain. If it succeeds, the stack is the
chain again; the stacks stay sound if the condition holds. -/
inductive Ends (safe : Prop) (chain : List Path) (before : Stacked) :
    Except RenderStop Rendered → EStateM.Result RenderStop Stacked Unit → Prop where
  | ok {after : Stacked} : after.stack = chain → (safe → before.IsSound → after.IsSound) →
      Ends safe chain before (.ok after.out) (.ok () after)
  | error {e : RenderStop} {after : Stacked} : (safe → before.IsSound → after.IsSound) →
      Ends safe chain before (.error e) (.error e after)

theorem Ends.of_ok {safe : Prop} {chain : List Path} {before : Stacked} {out : Rendered}
    {outcome : EStateM.Result RenderStop Stacked Unit}
    (h : Ends safe chain before (.ok out) outcome) :
    ∃ after, outcome = .ok () after ∧ after.out = out ∧ after.stack = chain := by
  generalize hresult : Except.ok out = result at h
  cases h with
  | ok hstack _ => exact ⟨_, rfl, (Except.ok.inj hresult).symm, hstack⟩
  | error _ => cases hresult

theorem Ends.of_error {safe : Prop} {chain : List Path} {before : Stacked} {e : RenderStop}
    {outcome : EStateM.Result RenderStop Stacked Unit}
    (h : Ends safe chain before (.error e) outcome) : ∃ after, outcome = .error e after := by
  cases h with
  | error _ => exact ⟨_, rfl⟩

/-- An action does with a chain as the stack what a function does to what is rendered. -/
def Follows (safe : Prop) (chain : List Path) (a : Action)
    (f : Rendered → Except RenderStop Rendered) : Prop :=
  ∀ st : Stacked, st.stack = chain → Ends safe chain st (f st.out) (a.run st)

section
variable {safe : Prop} {chain : List Path} {a b : Action}
  {f g : Rendered → Except RenderStop Rendered}

theorem follows_throw (e : RenderStop) : Follows safe chain (throw e) fun _ => .error e :=
  fun _ _ => .error fun _ h => h

theorem follows_pure : Follows safe chain (pure ()) .ok := fun _ hst => .ok hst fun _ h => h

theorem follows_write (f : Rendered → Rendered) :
    Follows safe chain (modify (.write f)) fun out => .ok (f out) :=
  fun st hst => Ends.ok (show (st.write f).stack = chain from hst) fun _ h => h

theorem Follows.bind (ha : Follows safe chain a f) (hb : Follows safe chain b g) :
    Follows safe chain (a >>= fun _ => b) fun out => (f out).bind g := by
  intro st hst
  have hfirst := ha st hst
  show Ends safe chain st ((f st.out).bind g) ((a >>= fun _ => b).run st)
  rw [EStateM.run_bind]
  generalize a.run st = outcome at hfirst ⊢
  generalize f st.out = result at hfirst ⊢
  cases hfirst with
  | error hsound => exact .error hsound
  | @ok after hstack hsound =>
    have hnext := hb after hstack
    show Ends safe chain st (g after.out) (b.run after)
    generalize b.run after = outcome at hnext ⊢
    generalize g after.out = result at hnext ⊢
    cases hnext with
    | error hsound' => exact .error fun hsafe h => hsound' hsafe (hsound hsafe h)
    | ok hstack' hsound' => exact .ok hstack' fun hsafe h => hsound' hsafe (hsound hsafe h)

theorem Follows.weaken {stronger : Prop} (h : Follows safe chain a f) (himp : stronger → safe) :
    Follows stronger chain a f := by
  intro st hst
  have hends := h st hst
  generalize a.run st = outcome at hends ⊢
  generalize f st.out = result at hends ⊢
  cases hends with
  | error hsound => exact .error fun hstronger => hsound (himp hstronger)
  | ok hstack hsound => exact .ok hstack fun hstronger => hsound (himp hstronger)

theorem follows_forM {α : Type} {a : α → Action} {f : Rendered → α → Except RenderStop Rendered}
    {xs : List α} (h : ∀ x, Follows safe chain (a x) (f · x)) :
    Follows safe chain (xs.forM a) (xs.foldlM f) := by
  induction xs with
  | nil => exact follows_pure
  | cons x xs ih => exact (h x).bind ih

end

/-! ## Renders on a stack -/

variable {r : Renderer} {urls : Option UrlRebaser}

/-- A file is pushed onto the stack, and popped from it if its steps succeed. -/
theorem follows_enter {chain : List Path} {file : Path} {a : Action}
    {f : Rendered → Except RenderStop Rendered}
    (h : Follows (Distinct (file :: chain)) (file :: chain) a f) :
    Follows (Distinct (file :: chain)) chain (do modify (.push file); a; modify .pop) f := by
  intro st hst
  have hpush : (st.push file).stack = file :: chain := by rw [← hst]; rfl
  have hentered : Distinct (file :: chain) → st.IsSound → (st.push file).IsSound :=
    fun hsafe hsound => List.forall_mem_cons.2 ⟨hst ▸ hsafe, hsound⟩
  have hsteps := h (st.push file) hpush
  show Ends _ chain st (f st.out) ((a >>= fun _ => modify .pop).run (st.push file))
  rw [EStateM.run_bind]
  change Ends _ _ _ (f st.out) _ at hsteps
  generalize a.run (st.push file) = outcome at hsteps ⊢
  generalize f st.out = result at hsteps ⊢
  cases hsteps with
  | error hsound => exact .error fun hsafe h => hsound hsafe (hentered hsafe h)
  | @ok after hstack hsound =>
    have hpop : after.pop.stack = chain := by
      show after.stack.tail = chain
      rw [hstack]
      rfl
    refine .ok hpop fun hsafe h => List.forall_mem_cons.2 ⟨?_, ?_⟩
    · rw [hstack]
      exact hsafe.tail
    · exact hsound hsafe (hentered hsafe h)

section
variable {c : Call} {render : Path → Text → Nat → Action}
  (hrender : ∀ target text base, Follows (Distinct (target :: c.file :: c.chain))
    (c.file :: c.chain) (render target text base)
    (renderFile r urls c.budget (c.file :: c.chain) target text base))
include hrender

/-- A file that is put in is not on the stack, so that the stack stays distinct with it. -/
theorem follows_putOn (i : Sheet.Import) (indent : Nat) (target : Path) :
    Follows (Distinct (c.file :: c.chain)) (c.file :: c.chain)
      (r.putOn (render · · (c.base + indent)) c.file i target)
      fun out => c.put r urls i indent out target := by
  intro st hst
  show Ends _ _ st (c.put r urls i indent st.out target)
    (EStateM.run (if target.isAmong st.stack then _ else _) st)
  rw [Call.put, hst]
  by_cases hloop : target.isAmong (c.file :: c.chain) = true
  · rw [if_pos hloop, if_pos hloop]
    exact follows_throw _ st hst
  · rw [if_neg hloop, if_neg hloop]
    by_cases hheld : (i.kind = .once && st.out.holds target) = true
    · rw [if_pos hheld, if_pos hheld]
      exact follows_pure st hst
    · rw [if_neg hheld, if_neg hheld]
      cases r.fs.readText target with
      | error e => exact follows_throw _ st hst
      | ok text =>
        have hfresh : Distinct (c.file :: c.chain) → Distinct (target :: c.file :: c.chain) := by
          refine fun hsafe => List.pairwise_cons.2 ⟨fun p hp => ?_, hsafe⟩
          rw [← Bool.not_eq_true, Path.same_comm]
          exact fun hsame => hloop (Path.isAmong_iff.2 ⟨p, hp, hsame⟩)
        have hbelow := (hrender target text (c.base + indent)).weaken hfresh
        exact (follows_write (·.use target)).bind hbelow st hst

theorem follows_stepOn (step : Sheet.Step) :
    Follows (Distinct (c.file :: c.chain)) (c.file :: c.chain)
      (r.stepOn urls render c.file c.base step) fun out => c.step r urls out step := by
  cases step with
  | line indent text => exact follows_write _
  | request kind position indent path =>
    simp only [stepOn, Call.step]
    cases r.place c.file kind position path with
    | error e => exact follows_throw _
    | ok placement =>
      cases placement with
      | literal text => exact follows_write _
      | files paths => exact follows_forM fun target => follows_putOn hrender _ _ target

end

/-- A render on a stack comes to what the render below it as a chain comes to. -/
theorem follows_renderOn (budget : Nat) (chain : List Path) (file : Path) (text : Text)
    (base : Nat) :
    Follows (Distinct (file :: chain)) chain (renderOn r urls budget file text base)
      (renderFile r urls budget chain file text base) := by
  induction budget generalizing chain file text base with
  | zero => exact follows_throw _
  | succ budget ih =>
    cases hparse : Sheet.parse text with
    | error e =>
      simp only [renderOn, renderFile, hparse]
      exact follows_throw _
    | ok nodes =>
      simp only [renderOn, renderFile, hparse]
      exact follows_enter (follows_forM fun step =>
        follows_stepOn (c := ⟨budget, chain, file, text, base, .empty⟩) (ih (file :: chain)) step)

/-- After a file was rendered the stack is the one before it. -/
theorem stack_of_renderOn {budget base : Nat} {file : Path} {text : Text} {before after : Stacked}
    (h : (renderOn r urls budget file text base).run before = .ok () after) :
    after.stack = before.stack := by
  have hends := @follows_renderOn r urls budget before.stack file text base before rfl
  rw [h] at hends
  generalize renderFile r urls budget before.stack file text base before.out = result at hends
  cases hends with
  | ok hstack _ => exact hstack

/-- Every render over files in memory ends with a result or an error, on a stack as below a chain.
No stack on the way holds a path twice, and rendering a file gives the stack back. -/
theorem render_ends {m : Memory} (hfs : r.fs = m.fileSystem) (hplaced : m.IsPlaced)
    (hcwd : m.cwd.isAbsolute = true) (file : Path) (text : Text) :
    ∃ (result : Except RenderError Rendered) (last : Stacked),
      r.render file text = result.mapError .failed ∧
      r.renderStacked file text =
        (match result with
        | .ok _ => .ok () last
        | .error e => .error (.failed e) last) ∧
      (∀ out, result = .ok out → last.out = out ∧ last.stack = []) ∧
      (∀ stack ∈ last.history, stack.Pairwise fun p q => p.same q = false) ∧
      ∀ urls budget file text base before after,
        (r.renderOn urls budget file text base).run before = .ok () after →
          after.stack = before.stack := by
  have hdeep := render_ne_tooDeep hfs hplaced hcwd file text
  have hends := @follows_renderOn r (r.rebaser file) r.budget [] file text 0 .start rfl
  have hstart : Stacked.start.IsSound := fun stack hstack => by
    rw [List.mem_singleton.1 hstack]
    exact .nil
  have hsafe : Distinct [file] := List.pairwise_singleton _ _
  change Ends _ _ _ (r.render file text) (r.renderStacked file text) at hends
  generalize r.render file text = outcome at hdeep hends ⊢
  generalize r.renderStacked file text = final at hends ⊢
  cases hends with
  | @ok last hstack hsound =>
    exact ⟨.ok last.out, last, rfl, rfl, fun out hout => ⟨Except.ok.inj hout, hstack⟩,
      hsound hsafe hstart, fun _ _ _ _ _ _ _ => stack_of_renderOn⟩
  | @error stop last hsound =>
    cases stop with
    | tooDeep => exact absurd rfl hdeep
    | failed e =>
      exact ⟨.error e, last, rfl, rfl, nofun, hsound hsafe hstart,
        fun _ _ _ _ _ _ _ => stack_of_renderOn⟩

/-! ## A file that imports itself under other paths -/

def respelledFiles : Memory := .ofTexts "/p" [("/p/C:/a.styl", "@import 'C:/../../p/C:/a'\n")]

def respelled : Renderer := ⟨respelledFiles.fileSystem, [], false, none, none⟩

def respelledEntry : Path := ⟨"/p/main.styl".toList⟩

/-- The file is rendered under two paths before an import of one of them stops the render. -/
def respelledStack : List Path :=
  ["../p/C:/a.styl", "C:/a.styl", "/p/main.styl"].map fun t => ⟨t.toList⟩

theorem render_ends_respelled : ∃ (error : RenderError) (last : Stacked),
    respelled.render respelledEntry "@import 'C:/a'".toList = .error (.failed error) ∧
    respelled.renderStacked respelledEntry "@import 'C:/a'".toList = .error (.failed error) last ∧
    last.stack = respelledStack ∧
    ∀ stack ∈ last.history, stack.Pairwise fun p q => p.same q = false := by
  obtain ⟨result, last, hrender, hstacked, -, hsound, -⟩ :=
    render_ends (r := respelled) (m := respelledFiles) rfl ((Memory.isPlaced_empty _).add _ _)
      (by decide) respelledEntry "@import 'C:/a'".toList
  have hstops : (match respelled.renderStacked respelledEntry "@import 'C:/a'".toList with
      | .ok _ _ => none
      | .error _ last => some last.stack) = some respelledStack := by
    decide +kernel
  cases result with
  | ok out =>
    rw [hstacked] at hstops
    exact nomatch hstops
  | error error =>
    rw [hstacked] at hstops
    exact ⟨error, last, hrender, hstacked, Option.some.inj hstops, hsound⟩

end StyleImports.Renderer
