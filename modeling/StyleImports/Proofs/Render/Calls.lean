import Mathlib.Data.List.Basic
import Mathlib.Logic.Relation
import StyleImports.Render.Inline

/-!
# Renders file by file

A render is a tree of calls, one for each time that a file is put in. A call goes through the steps
of its stylesheet and makes a call for every target that it puts in (`Call.run_eq`, `Call.put`);
`Call.Reaches` relates a call to those below it at whatever depth.

What comes out of a call is told by the calls that it reaches: an error is one that some call stops
with (`exists_stops_of_run`), and a file that is put in is a target of an import that some call
executes (`mem_imports_of_run`).
-/

set_option autoImplicit false

namespace StyleImports

/-! ## Folds that may fail -/

section
variable {α β ε : Type} {f g : β → α → Except ε β} {xs : List α} {b b' : β} {e : ε}

theorem exists_of_foldlM_eq_error (h : xs.foldlM f b = .error e) :
    ∃ before x after b₁, xs = before ++ x :: after ∧ before.foldlM f b = .ok b₁ ∧
      f b₁ x = .error e := by
  induction xs generalizing b with
  | nil => cases h
  | cons x xs ih =>
    rw [List.foldlM_cons] at h
    cases hx : f b x with
    | error fault =>
      rw [hx] at h
      cases h
      exact ⟨[], x, xs, b, rfl, rfl, hx⟩
    | ok b₂ =>
      rw [hx] at h
      obtain ⟨before, y, after, b₁, rfl, hbefore, hy⟩ := ih h
      refine ⟨x :: before, y, after, b₁, rfl, ?_, hy⟩
      rw [List.foldlM_cons, hx]
      exact hbefore

/-- What every element of a fold keeps, given what came before it, the fold keeps. It may speak of
the elements so far. -/
theorem of_foldlM_append_eq_ok {P : List α → β → Prop} (h : xs.foldlM f b = .ok b') (hb : P [] b)
    (hkeep : ∀ before x after b₁ b₂, xs = before ++ x :: after → before.foldlM f b = .ok b₁ →
      f b₁ x = .ok b₂ → P before b₁ → P (before ++ [x]) b₂) : P xs b' := by
  induction xs generalizing b P with
  | nil =>
    cases h
    exact hb
  | cons x xs ih =>
    rw [List.foldlM_cons] at h
    cases hx : f b x with
    | error fault =>
      rw [hx] at h
      cases h
    | ok b₂ =>
      rw [hx] at h
      refine @ih b₂ (fun before => P (x :: before)) h (hkeep [] x xs b b₂ rfl rfl hx hb) ?_
      rintro before y after b₃ b₄ rfl hbefore hy hb₃
      refine hkeep (x :: before) y after b₃ b₄ rfl ?_ hy hb₃
      rw [List.foldlM_cons, hx]
      exact hbefore

theorem of_foldlM_eq_ok {P : β → Prop} (h : xs.foldlM f b = .ok b') (hb : P b)
    (hkeep : ∀ before x after b₁ b₂, xs = before ++ x :: after → before.foldlM f b = .ok b₁ →
      f b₁ x = .ok b₂ → P b₁ → P b₂) : P b' :=
  @of_foldlM_append_eq_ok _ _ _ _ _ _ _ (fun _ => P) h hb hkeep

/-- A fold has the result of another one that succeeds if its steps have, wherever that one comes
to. -/
theorem foldlM_eq_ok_of_prefix (h : xs.foldlM f b = .ok b')
    (hstep : ∀ before x after b₁ b₂, xs = before ++ x :: after → before.foldlM f b = .ok b₁ →
      f b₁ x = .ok b₂ → g b₁ x = .ok b₂) : xs.foldlM g b = .ok b' := by
  refine of_foldlM_append_eq_ok (P := fun before b₁ => before.foldlM g b = .ok b₁) h rfl ?_
  intro before x after b₁ b₂ hsplit hbefore hx hsame
  rw [List.foldlM_append, hsame]
  show [x].foldlM g b₁ = .ok b₂
  rw [List.foldlM_cons, hstep before x after b₁ b₂ hsplit hbefore hx]
  rfl

/-- Two folds have the same result if their steps have, as far as what comes after a step keeps a
condition; it then holds from the start. -/
theorem foldlM_eq_ok_of_steps {Q : β → Prop} (h : xs.foldlM f b = .ok b') (hQ : Q b')
    (hstep : ∀ b a c, f b a = .ok c → Q c → Q b ∧ g b a = .ok c) :
    Q b ∧ xs.foldlM g b = .ok b' := by
  induction xs generalizing b with
  | nil =>
    cases h
    exact ⟨hQ, rfl⟩
  | cons x xs ih =>
    rw [List.foldlM_cons] at h ⊢
    cases hx : f b x with
    | error fault =>
      rw [hx] at h
      cases h
    | ok b₂ =>
      rw [hx] at h
      obtain ⟨hQ₂, hrest⟩ := ih h
      obtain ⟨hQ₁, hfirst⟩ := hstep b x b₂ hx hQ₂
      rw [hfirst]
      exact ⟨hQ₁, hrest⟩

end

theorem Path.isAmong_mono {p : Path} {files more : List Path} (h : ∀ q ∈ files, q ∈ more)
    (hp : p.isAmong files = true) : p.isAmong more = true := by
  obtain ⟨q, hq, hsame⟩ := Path.isAmong_iff.1 hp
  exact Path.isAmong_iff.2 ⟨q, h q hq, hsame⟩

theorem Rendered.mem_imports_use {out : Rendered} {p q : Path} (h : p ∈ (out.use q).imports) :
    p ∈ out.imports ∨ p = q := by
  simp only [use, Path.addNew] at h
  split at h
  · exact .inl h
  · simpa using h

namespace Renderer

/-! ## Calls -/

/-- The render of a file: the budget for the files below it, the files on the way to it, its path
and text, its indentation, and what was rendered before it. -/
structure Call where
  budget : Nat
  chain : List Path
  file : Path
  text : Text
  base : Nat
  out : Rendered

/-- The call of an entry. -/
def start (r : Renderer) (file : Path) (text : Text) : Call :=
  ⟨r.budget - 1, [], file, text, 0, .empty⟩

/-- What rebases the URLs below an entry. -/
def rebaser (r : Renderer) (file : Path) : Option UrlRebaser :=
  r.urls.map fun urls => UrlRebaser.ofOptions r.fs file urls r.paths

namespace Call

variable {r : Renderer} {urls : Option UrlRebaser} {c c' : Call} {out out' : Rendered}
  {i : Sheet.Import} {indent : Nat} {e : RenderError}

def run (r : Renderer) (urls : Option UrlRebaser) (c : Call) : Except RenderStop Rendered :=
  renderFile r urls (c.budget + 1) c.chain c.file c.text c.base c.out

/-- Puts a file in for an import with the given specifier. -/
def put (r : Renderer) (urls : Option UrlRebaser) (c : Call) (i : Sheet.Import) (indent : Nat)
    (out : Rendered) (target : Path) : Except RenderStop Rendered :=
  if target.isAmong (c.file :: c.chain) then
    .error (.failed (.loop i.specifier c.file i.position target))
  else if i.kind = .once && out.holds target then .ok out
  else
    match r.fs.readText target with
    | .error e => .error (.failed (.unread target e))
    | .ok text =>
      renderFile r urls c.budget (c.file :: c.chain) target text (c.base + indent)
        (out.use target)

/-- Renders a step of the stylesheet of a call. -/
def step (r : Renderer) (urls : Option UrlRebaser) (c : Call) (out : Rendered) :
    Sheet.Step → Except RenderStop Rendered
  | .line indent text => .ok (out.emit (c.base + indent) (source urls c.file text))
  | .request kind position indent path =>
    match r.place c.file kind position path with
    | .error e => .error (.failed e)
    | .ok (.literal text) => .ok (out.emit (c.base + indent) text)
    | .ok (.files paths) =>
      paths.foldlM (c.put r urls ⟨specifierOf path, position, kind⟩ indent) out

theorem run_eq (r : Renderer) (urls : Option UrlRebaser) (c : Call) :
    c.run r urls =
      match Sheet.parse c.text with
      | .error e => .error (.failed (.unparsed c.file e))
      | .ok nodes => (Sheet.stepsOf .empty nodes).foldlM (c.step r urls) c.out := by
  rw [run, renderFile]
  cases Sheet.parse c.text with
  | error e => rfl
  | ok nodes => rfl

theorem render_eq (r : Renderer) (file : Path) (text : Text) :
    r.render file text = (r.start file text).run r (r.rebaser file) := rfl

/-! ## Calls below a call -/

/-- A call comes to a step of its stylesheet, with what is rendered up to there. -/
def ComesTo (r : Renderer) (urls : Option UrlRebaser) (c : Call) (step : Sheet.Step)
    (out : Rendered) : Prop :=
  ∃ nodes before after, Sheet.parse c.text = .ok nodes ∧
    Sheet.stepsOf .empty nodes = before ++ step :: after ∧
    before.foldlM (c.step r urls) c.out = .ok out

/-- A call executes an import that does not stay as a line. -/
structure Executes (r : Renderer) (urls : Option UrlRebaser) (c : Call) (i : Sheet.Import)
    (indent : Nat) (out : Rendered) : Prop where
  comesTo : c.ComesTo r urls (.request i.kind i.position indent (some (.str i.specifier))) out
  named : i.specifier ≠ []
  notLiteral : r.isLiteral i.specifier = false

/-- The files that a call puts in for an import. -/
def targets (r : Renderer) (c : Call) (i : Sheet.Import) : Except RenderError (List Path) :=
  Renderer.targets r c.file i.kind i.position i.specifier

/-- A call comes to a target of an import, with what is rendered up to there. -/
def ComesToTarget (r : Renderer) (urls : Option UrlRebaser) (c : Call) (i : Sheet.Import)
    (indent : Nat) (target : Path) (out : Rendered) : Prop :=
  ∃ out₀ before after, c.Executes r urls i indent out₀ ∧
    c.targets r i = .ok (before ++ target :: after) ∧
    before.foldlM (c.put r urls i indent) out₀ = .ok out

/-- A call makes another one for a target. -/
inductive Calls (r : Renderer) (urls : Option UrlRebaser) : Call → Call → Prop where
  | below {c : Call} {i : Sheet.Import} {indent budget : Nat} {target : Path} {out : Rendered}
      {text : Text} :
      c.ComesToTarget r urls i indent target out →
      target.isAmong (c.file :: c.chain) = false →
      (i.kind = .once && out.holds target) = false →
      r.fs.readText target = .ok text →
      c.budget = budget + 1 →
      Calls r urls c
        ⟨budget, c.file :: c.chain, target, text, c.base + indent, out.use target⟩

abbrev Reaches (r : Renderer) (urls : Option UrlRebaser) : Call → Call → Prop :=
  Relation.ReflTransGen (Calls r urls)

/-- Why a call stops by itself, not for a call below it. -/
inductive Stops (r : Renderer) (urls : Option UrlRebaser) (c : Call) : RenderError → Prop where
  | unparsed {e : ParseError} : Sheet.parse c.text = .error e →
      Stops r urls c (.unparsed c.file e)
  | emptyPath {kind : ImportKind} {position : Position} {indent : Nat}
      {path : Option Sheet.Value} {out : Rendered} :
      c.ComesTo r urls (.request kind position indent path) out →
      path = none ∨ path = some (.str []) → Stops r urls c (.emptyPath c.file position)
  | notFound {i : Sheet.Import} {indent : Nat} {out : Rendered} {e : RenderError} :
      c.Executes r urls i indent out → c.targets r i = .error e → Stops r urls c e
  | loop {i : Sheet.Import} {indent : Nat} {target : Path} {out : Rendered} :
      c.ComesToTarget r urls i indent target out →
      target.isAmong (c.file :: c.chain) = true →
      Stops r urls c (.loop i.specifier c.file i.position target)
  | unread {i : Sheet.Import} {indent : Nat} {target : Path} {out : Rendered} {e : FileError} :
      c.ComesToTarget r urls i indent target out → r.fs.readText target = .error e →
      Stops r urls c (.unread target e)

/-- A stylesheet starts with an import that does not stay as a line. -/
def Opens (r : Renderer) (text : Text) (i : Sheet.Import) : Prop :=
  ((Sheet.parse text).map fun nodes => (Sheet.stepsOf .empty nodes).head?) =
      .ok (some (.request i.kind i.position 0 (some (.str i.specifier)))) ∧
    i.specifier ≠ [] ∧ r.isLiteral i.specifier = false

instance (r : Renderer) (text : Text) (i : Sheet.Import) : Decidable (Opens r text i) :=
  inferInstanceAs (Decidable (_ ∧ _))

theorem executes_of_opens (h : Opens r c.text i) : c.Executes r urls i 0 c.out := by
  obtain ⟨hhead, hnamed, hliteral⟩ := h
  cases hparse : Sheet.parse c.text with
  | error e =>
    rw [hparse] at hhead
    cases hhead
  | ok nodes =>
    rw [hparse] at hhead
    obtain ⟨after, hsteps⟩ := List.head?_eq_some_iff.1 (Except.ok.inj hhead)
    exact ⟨⟨nodes, [], after, hparse, hsteps, rfl⟩, hnamed, hliteral⟩

/-- A call is made for the first target of the import that a stylesheet starts with. -/
theorem calls_of_opens (h : Opens r c.text i) {target : Path} {rest : List Path} {text : Text}
    {budget : Nat} (htargets : c.targets r i = .ok (target :: rest))
    (hloop : target.isAmong (c.file :: c.chain) = false) (hheld : c.out.holds target = false)
    (hread : r.fs.readText target = .ok text) (hbudget : c.budget = budget + 1) :
    c.Calls r urls ⟨budget, c.file :: c.chain, target, text, c.base + 0, c.out.use target⟩ :=
  .below ⟨c.out, [], rest, executes_of_opens h, htargets, rfl⟩ hloop (by simp [hheld]) hread hbudget

/-! ## Cases of a step -/

/-- What the path of an import comes to. -/
inductive Placed (r : Renderer) (c : Call) (kind : ImportKind) (position : Position) :
    Option Sheet.Value → Except RenderError Placement → Prop where
  | empty {path : Option Sheet.Value} : path = none ∨ path = some (.str []) →
      Placed r c kind position path (.error (.emptyPath c.file position))
  | literal {path : Option Sheet.Value} {text : Text} :
      Placed r c kind position path (.ok (.literal text))
  | files {specifier : Text} : specifier ≠ [] → r.isLiteral specifier = false →
      Placed r c kind position (some (.str specifier))
        ((c.targets r ⟨specifier, position, kind⟩).map .files)

theorem placed_place (r : Renderer) (c : Call) (kind : ImportKind) (position : Position)
    (path : Option Sheet.Value) :
    Placed r c kind position path (r.place c.file kind position path) := by
  match path with
  | none => exact .empty (.inl rfl)
  | some (.str []) => exact .empty (.inr rfl)
  | some (.url url) => exact .literal
  | some (.str (first :: rest)) =>
    simp only [place]
    split
    case isTrue => exact .literal
    case isFalse hliteral => exact .files (by simp) (by simpa using hliteral)

theorem place_of_named (hnamed : i.specifier ≠ []) (hliteral : r.isLiteral i.specifier = false) :
    r.place c.file i.kind i.position (some (.str i.specifier)) =
      (c.targets r i).map .files := by
  obtain ⟨specifier, position, kind⟩ := i
  cases specifier with
  | nil => exact absurd rfl hnamed
  | cons first rest =>
    simp only [place, hliteral, Bool.false_eq_true, if_false]
    rfl

/-- A call that executes an import puts its targets in, in order. -/
theorem step_of_executes (h : c.Executes r urls i indent out) :
    c.step r urls out (.request i.kind i.position indent (some (.str i.specifier))) =
      match c.targets r i with
      | .error e => .error (.failed e)
      | .ok targets => targets.foldlM (c.put r urls i indent) out := by
  rw [step, place_of_named h.named h.notLiteral]
  cases c.targets r i <;> rfl

/-- What a step comes to. -/
inductive Stepped (r : Renderer) (urls : Option UrlRebaser) (c : Call) (out : Rendered) :
    Except RenderStop Rendered → Prop where
  | emitted {indent : Nat} {text : Text} : Stepped r urls c out (.ok (out.emit indent text))
  | stopped {e : RenderError} : c.Stops r urls e → Stepped r urls c out (.error (.failed e))
  | executed {i : Sheet.Import} {indent : Nat} {targets : List Path}
      {outcome : Except RenderStop Rendered} :
      c.Executes r urls i indent out → c.targets r i = .ok targets →
      targets.foldlM (c.put r urls i indent) out = outcome → Stepped r urls c out outcome

theorem stepped_step {step : Sheet.Step} (h : c.ComesTo r urls step out) :
    Stepped r urls c out (c.step r urls out step) := by
  cases step with
  | line indent text => exact .emitted
  | request kind position indent path =>
    simp only [Call.step]
    have hplaced := placed_place r c kind position path
    generalize r.place c.file kind position path = placement at hplaced
    cases hplaced with
    | empty hempty => exact .stopped (.emptyPath h hempty)
    | literal => exact .emitted
    | @files specifier hnamed hliteral =>
      have hexecutes : c.Executes r urls ⟨specifier, position, kind⟩ indent out :=
        ⟨h, hnamed, hliteral⟩
      cases htargets : c.targets r ⟨specifier, position, kind⟩ with
      | error e => exact .stopped (.notFound hexecutes htargets)
      | ok targets => exact .executed hexecutes htargets rfl

/-- What putting a file in comes to. -/
inductive PutIn (r : Renderer) (urls : Option UrlRebaser) (c : Call) (out : Rendered)
    (target : Path) : Except RenderStop Rendered → Prop where
  | stopped {e : RenderError} : c.Stops r urls e → PutIn r urls c out target (.error (.failed e))
  | held : out.holds target = true → PutIn r urls c out target (.ok out)
  | tooDeep : PutIn r urls c out target (.error .tooDeep)
  | below {c' : Call} {outcome : Except RenderStop Rendered} :
      c.Calls r urls c' → c'.budget < c.budget → c'.out = out.use target →
      c'.run r urls = outcome → PutIn r urls c out target outcome

theorem putIn_put {target : Path} (h : c.ComesToTarget r urls i indent target out) :
    PutIn r urls c out target (c.put r urls i indent out target) := by
  rw [put]
  split
  case isTrue hloop => exact .stopped (.loop h hloop)
  case isFalse hloop =>
    split
    case isTrue hheld =>
      simp only [Bool.and_eq_true] at hheld
      exact .held hheld.2
    case isFalse hheld =>
      cases hread : r.fs.readText target with
      | error e => exact .stopped (.unread h hread)
      | ok text =>
        dsimp only
        cases hbudget : c.budget with
        | zero => exact .tooDeep
        | succ budget =>
          have hcalls := Calls.below h (by simpa using hloop) (by simpa using hheld) hread hbudget
          exact .below hcalls (hbudget ▸ Nat.lt_succ_self budget) rfl rfl

/-- A call below another one is for the text of a file that is not on the way to it. -/
theorem Reaches.eq_or_below (h : c.Reaches r urls c') :
    c' = c ∨ c.file ∈ c'.chain ∧ c'.file.isAmong c'.chain = false ∧
      r.fs.readText c'.file = .ok c'.text := by
  induction h with
  | refl => exact .inl rfl
  | tail _ hcalls ih =>
    cases hcalls with
    | below _ hloop _ hread _ =>
      refine .inr ⟨?_, hloop, hread⟩
      rcases ih with rfl | ⟨hchain, _⟩
      · exact List.mem_cons_self
      · exact List.mem_cons_of_mem _ hchain

/-! ## What comes out of a call -/

/-- A call that fails reaches one that stops with the error. -/
theorem exists_stops_of_run (h : c.run r urls = .error (.failed e)) :
    ∃ c', c.Reaches r urls c' ∧ c'.Stops r urls e := by
  -- The budget falls with every call, so it carries the induction.
  induction hbudget : c.budget using Nat.strongRecOn generalizing c with
  | ind budget ih =>
    rw [run_eq] at h
    cases hparse : Sheet.parse c.text with
    | error fault =>
      rw [hparse] at h
      cases h
      exact ⟨c, .refl, .unparsed hparse⟩
    | ok nodes =>
      rw [hparse] at h
      obtain ⟨before, step, after, out, hsteps, hbefore, hstep⟩ := exists_of_foldlM_eq_error h
      have hstepped := stepped_step ⟨nodes, before, after, hparse, hsteps, hbefore⟩
      rw [hstep] at hstepped
      cases hstepped with
      | stopped hstops => exact ⟨c, .refl, hstops⟩
      | executed hexecutes htargets hfold =>
        obtain ⟨first, target, rest, out', rfl, hfirst, htarget⟩ := exists_of_foldlM_eq_error hfold
        have hput := putIn_put ⟨out, first, rest, hexecutes, htargets, hfirst⟩
        rw [htarget] at hput
        cases hput with
        | stopped hstops => exact ⟨c, .refl, hstops⟩
        | below hcalls hless _ hrun =>
          obtain ⟨c', hreaches, hstops⟩ := ih _ (hbudget ▸ hless) hrun rfl
          exact ⟨c', .head hcalls hreaches, hstops⟩

/-- A file is a target of an import that is executed below a call. -/
def PutsIn (r : Renderer) (urls : Option UrlRebaser) (c : Call) (p : Path) : Prop :=
  ∃ c' i indent out targets, c.Reaches r urls c' ∧ c'.Executes r urls i indent out ∧
    c'.targets r i = .ok targets ∧ p ∈ targets

/-- A file that is put in below a call was there before it, or is a target below it. -/
theorem mem_imports_of_run (h : c.run r urls = .ok out') :
    ∀ p ∈ out'.imports, p ∈ c.out.imports ∨ c.PutsIn r urls p := by
  induction hbudget : c.budget using Nat.strongRecOn generalizing c out' with
  | ind budget ih =>
    rw [run_eq] at h
    cases hparse : Sheet.parse c.text with
    | error fault =>
      rw [hparse] at h
      cases h
    | ok nodes =>
      rw [hparse] at h
      refine of_foldlM_eq_ok (P := fun out => ∀ p ∈ out.imports, p ∈ c.out.imports ∨
        c.PutsIn r urls p) h (fun p hp => .inl hp) ?_
      intro before step after out out₁ hsteps hbefore hstep hout
      have hstepped := stepped_step ⟨nodes, before, after, hparse, hsteps, hbefore⟩
      rw [hstep] at hstepped
      cases hstepped with
      | emitted => exact hout
      | @executed i indent targets _ hexecutes htargets hfold =>
        refine of_foldlM_eq_ok (P := fun out => ∀ p ∈ out.imports, p ∈ c.out.imports ∨
          c.PutsIn r urls p) hfold hout ?_
        rintro first target rest out₂ out₃ rfl hfirst htarget hout₂
        have hput := putIn_put ⟨out, first, rest, hexecutes, htargets, hfirst⟩
        rw [htarget] at hput
        cases hput with
        | held => exact hout₂
        | @below c' _ hcalls hless hstart hrun =>
          intro p hp
          rcases ih _ (hbudget ▸ hless) hrun rfl p hp with hbefore | ⟨c'', hreaches⟩
          · rw [hstart] at hbefore
            rcases Rendered.mem_imports_use hbefore with hmem | rfl
            · exact hout₂ p hmem
            · exact .inr ⟨c, i, indent, out, _, .refl, hexecutes, htargets, by simp⟩
          · obtain ⟨i, indent, out, targets, hbelow, hrest⟩ := hreaches
            exact .inr ⟨c'', i, indent, out, targets, .head hcalls hbelow, hrest⟩

end Call

end Renderer

end StyleImports
