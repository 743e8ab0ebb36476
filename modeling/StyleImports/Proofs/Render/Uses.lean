import StyleImports.Proofs.Render.Indentation

/-!
# Uses of files

A render can be kept as the pieces that it is composed of: its lines, and the uses that its imports
make of files, each with the pieces of the file if it puts the file in (`composeFile`). The lines of
the render are those of the pieces, and what was put in is told by the uses
(`composes_composeFile`): a use puts in a file that is imported every time, and a file that is
required only if no use came before it (`Use.Lawful`). From this follow the counts of a whole
render (`render_uses`).
-/

set_option autoImplicit false

namespace StyleImports

/-! ## Lists without repetitions -/

namespace Path

theorem isAmong_addNew (p q : Path) (paths : List Path) :
    p.isAmong (addNew paths q) = (p.isAmong paths || q.same p) := by
  rw [addNew]
  split
  case isTrue hq =>
    cases hsame : q.same p with
    | false => rw [Bool.or_false]
    | true => rw [Bool.or_true, ← isAmong_congr hsame, hq]
  case isFalse => simp [isAmong]

theorem isAmong_foldl_addNew (p : Path) (more paths : List Path) :
    p.isAmong (more.foldl addNew paths) = p.isAmong (paths ++ more) := by
  induction more generalizing paths with
  | nil => rw [List.foldl_nil, List.append_nil]
  | cons q more ih =>
    rw [List.foldl_cons, ih, isAmong_append, isAmong_addNew, isAmong_append, isAmong_cons,
      Bool.or_assoc]

theorem foldl_addNew_eq (paths : List Path) : paths.foldl addNew [] = paths.eraseDupsBy same := by
  have hloop : ∀ held, List.eraseDupsBy.loop same paths held = paths.foldl addNew held.reverse := by
    induction paths with
    | nil => exact fun _ => rfl
    | cons p rest ih =>
      intro held
      have hany : held.any (same p) = p.isAmong held.reverse := by
        rw [isAmong, List.any_reverse]
        exact congrArg held.any (funext (same_comm p))
      rw [List.eraseDupsBy.loop, hany, List.foldl_cons, addNew]
      cases p.isAmong held.reverse with
      | true => exact ih held
      | false => exact (ih (p :: held)).trans (by rw [List.reverse_cons]; rfl)
  exact (hloop []).symm

theorem pairwise_foldl_addNew (more : List Path) {paths : List Path}
    (h : paths.Pairwise fun p q => p.same q = false) :
    (more.foldl addNew paths).Pairwise fun p q => p.same q = false := by
  induction more generalizing paths with
  | nil => exact h
  | cons q more ih =>
    refine ih ?_
    rw [addNew]
    split
    case isTrue => exact h
    case isFalse hq =>
      refine List.pairwise_append.2 ⟨h, List.pairwise_singleton _ _, fun p hp q' hq' => ?_⟩
      rw [List.mem_singleton.1 hq', same_comm]
      exact same_eq_false_of_mem (by simpa using hq) hp

end Path

/-! ## Uses -/

/-- A use of a file by an import, and whether it puts the file in. -/
structure Use where
  kind : ImportKind
  target : Path
  inlined : Bool
  deriving DecidableEq, Repr

namespace Use

/-- How often uses put a file in. -/
def inlinings (file : Path) (uses : List Use) : Nat :=
  uses.countP fun u => u.inlined && u.target.same file

/-- How often uses are of a file that is imported. -/
def imports (file : Path) (uses : List Use) : Nat :=
  uses.countP fun u => u.kind = .always && u.target.same file

/-- Whether a file is required by the first use of it. -/
def requiredFirst (file : Path) (uses : List Use) : Bool :=
  (uses.find? (·.target.same file)).any (·.kind = .once)

/-- After some files were put in, uses put theirs in as their kinds say. -/
def Lawful : List Path → List Use → Prop
  | _, [] => True
  | held, u :: rest =>
    u.inlined = (u.kind = .always || !u.target.isAmong held) ∧
      Lawful (Path.addNew held u.target) rest

theorem lawful_append {held : List Path} {uses more : List Use} :
    Lawful held (uses ++ more) ↔
      Lawful held uses ∧ Lawful ((uses.map target).foldl Path.addNew held) more := by
  induction uses generalizing held with
  | nil => exact (iff_of_eq (true_and _)).symm
  | cons u rest ih =>
    rw [List.cons_append, Lawful, ih, Lawful, and_assoc]
    rfl

/-- A use puts its file in if the file is imported or was not put in before. -/
theorem Lawful.inlined_eq {held : List Path} {before after : List Use} {u : Use}
    (h : Lawful held (before ++ u :: after)) :
    u.inlined = (u.kind = .always || !u.target.isAmong (held ++ before.map target)) := by
  rw [← Path.isAmong_foldl_addNew]
  exact (lawful_append.1 h).2.1

/-- A file is put in for each time that it is imported, and once more if the first use of it
requires it and it was not put in before. -/
theorem Lawful.inlinings_eq {held : List Path} {uses : List Use} (h : Lawful held uses)
    (file : Path) :
    inlinings file uses =
      imports file uses + (!file.isAmong held && requiredFirst file uses).toNat := by
  induction uses generalizing held with
  | nil => simp [inlinings, imports, requiredFirst]
  | cons u rest ih =>
    obtain ⟨kind, target, inlined⟩ := u
    obtain ⟨hinlined, hrest⟩ := h
    have hcount := ih hrest
    rw [Path.isAmong_addNew] at hcount
    simp only [inlinings, imports, requiredFirst, List.countP_cons, List.find?_cons] at hcount ⊢
    cases hsame : target.same file with
    | false =>
      -- A use of another file counts for nothing.
      rw [hcount, hsame, Bool.or_false]
      simp
    | true =>
      -- After the use the file was put in, so that the use alone decides.
      have hputs : inlined = (kind = .always || !file.isAmong held) := by
        rw [← Path.isAmong_congr hsame]
        exact hinlined
      rw [hcount, hsame]
      simp only [hputs]
      cases kind <;> cases file.isAmong held <;> simp

end Use

/-! ## Pieces -/

/-- A piece of what is rendered: a line, a use of a file that puts nothing in, or a use with the
pieces of the file that it puts in. -/
inductive Piece where
  | line (text : Text)
  | passed (kind : ImportKind) (target : Path)
  | inlined (kind : ImportKind) (target : Path) (pieces : List Piece)

namespace Piece

mutual

def lines : Piece → List Text
  | .line text => [text]
  | .passed _ _ => []
  | .inlined _ _ pieces => linesOf pieces

/-- The lines of some pieces. -/
def linesOf : List Piece → List Text
  | [] => []
  | piece :: rest => piece.lines ++ linesOf rest

end

mutual

def uses : Piece → List Use
  | .line _ => []
  | .passed kind target => [⟨kind, target, false⟩]
  | .inlined kind target pieces => ⟨kind, target, true⟩ :: usesOf pieces

/-- The uses of some pieces, in the order in which they are made. -/
def usesOf : List Piece → List Use
  | [] => []
  | piece :: rest => piece.uses ++ usesOf rest

end

theorem linesOf_concat (pieces : List Piece) (piece : Piece) :
    linesOf (pieces ++ [piece]) = linesOf pieces ++ piece.lines := by
  induction pieces with
  | nil => rw [List.nil_append, linesOf, linesOf, linesOf, List.append_nil, List.nil_append]
  | cons first rest ih => rw [List.cons_append, linesOf, ih, linesOf, List.append_assoc]

theorem usesOf_concat (pieces : List Piece) (piece : Piece) :
    usesOf (pieces ++ [piece]) = usesOf pieces ++ piece.uses := by
  induction pieces with
  | nil => rw [List.nil_append, usesOf, usesOf, usesOf, List.append_nil, List.nil_append]
  | cons first rest ih => rw [List.cons_append, usesOf, ih, usesOf, List.append_assoc]

end Piece

/-- What is rendered, and the pieces that it is composed of. -/
structure Composed where
  out : Rendered
  pieces : List Piece

namespace Composed

def emit (s : Composed) (indent : Nat) (text : Text) : Composed :=
  ⟨s.out.emit indent text, s.pieces ++ [.line (Text.indented indent text)]⟩

/-- A use that puts nothing in. -/
def pass (s : Composed) (kind : ImportKind) (target : Path) : Composed :=
  { s with pieces := s.pieces ++ [.passed kind target] }

/-- A use that puts in what its file is composed of. -/
def putIn (s : Composed) (kind : ImportKind) (target : Path) (inner : Composed) : Composed :=
  ⟨inner.out, s.pieces ++ [.inlined kind target inner.pieces]⟩

end Composed

namespace Renderer

open Piece (linesOf usesOf)

/-- Renders a file at an indentation after what was rendered before it. -/
abbrev Composer := Path → Text → Nat → Rendered → Except RenderStop Composed

/-- Puts a file in for an import. -/
def Call.composePut (r : Renderer) (below : Composer) (c : Call) (i : Sheet.Import) (indent : Nat)
    (s : Composed) (target : Path) : Except RenderStop Composed :=
  if target.isAmong (c.file :: c.chain) then
    .error (.failed (.loop i.specifier c.file i.position target))
  else if i.kind = .once && s.out.holds target then .ok (s.pass i.kind target)
  else
    match r.fs.readText target with
    | .error e => .error (.failed (.unread target e))
    | .ok text =>
      (below target text (c.base + indent) (s.out.use target)).map (s.putIn i.kind target)

/-- Renders a step of the stylesheet of a call. -/
def Call.composeStep (r : Renderer) (urls : Option UrlRebaser) (below : Composer) (c : Call)
    (s : Composed) : Sheet.Step → Except RenderStop Composed
  | .line indent text => .ok (s.emit (c.base + indent) (source urls c.file text))
  | .request kind position indent path =>
    match r.place c.file kind position path with
    | .error e => .error (.failed e)
    | .ok (.literal text) => .ok (s.emit (c.base + indent) text)
    | .ok (.files paths) =>
      paths.foldlM (c.composePut r below ⟨specifierOf path, position, kind⟩ indent) s

/-- Renders a file below a chain of files. -/
def composeFile (r : Renderer) (urls : Option UrlRebaser) : Nat → List Path → Composer
  | 0, _, _, _, _, _ => .error .tooDeep
  | budget + 1, chain, file, text, base, out =>
    match Sheet.parse text with
    | .error e => .error (.failed (.unparsed file e))
    | .ok nodes =>
      (Sheet.stepsOf .empty nodes).foldlM
        (Call.composeStep r urls (composeFile r urls budget (file :: chain))
          ⟨budget, chain, file, text, base, out⟩) ⟨out, []⟩

/-- Renders an entry. -/
def compose (r : Renderer) (file : Path) (text : Text) : Except RenderStop Composed :=
  composeFile r (r.rebaser file) r.budget [] file text 0 .empty

variable {r : Renderer} {urls : Option UrlRebaser} {c : Call} {below : Composer}

/-! ## Pieces of a render -/

theorem foldlM_map {α : Type} {f : Composed → α → Except RenderStop Composed}
    {g : Rendered → α → Except RenderStop Rendered}
    (h : ∀ s x, (f s x).map Composed.out = g s.out x) (xs : List α) (s : Composed) :
    (xs.foldlM f s).map Composed.out = xs.foldlM g s.out := by
  induction xs generalizing s with
  | nil => rfl
  | cons x xs ih =>
    rw [List.foldlM_cons, List.foldlM_cons, ← h s x]
    cases f s x with
    | error e => rfl
    | ok s => exact ih s

section
variable (hbelow : ∀ target text base out, (below target text base out).map Composed.out =
  renderFile r urls c.budget (c.file :: c.chain) target text base out)
include hbelow

theorem composePut_out (i : Sheet.Import) (indent : Nat) (s : Composed) (target : Path) :
    (c.composePut r below i indent s target).map Composed.out =
      c.put r urls i indent s.out target := by
  rw [Call.composePut, Call.put]
  by_cases hloop : target.isAmong (c.file :: c.chain) = true
  · rw [if_pos hloop, if_pos hloop]
    rfl
  · rw [if_neg hloop, if_neg hloop]
    by_cases hheld : (i.kind = .once && s.out.holds target) = true
    · rw [if_pos hheld, if_pos hheld]
      rfl
    · rw [if_neg hheld, if_neg hheld]
      cases r.fs.readText target with
      | error e => rfl
      | ok text =>
        dsimp only
        rw [← hbelow]
        cases below target text (c.base + indent) (s.out.use target) <;> rfl

theorem composeStep_out (s : Composed) (step : Sheet.Step) :
    (c.composeStep r urls below s step).map Composed.out = c.step r urls s.out step := by
  cases step with
  | line indent text => rfl
  | request kind position indent path =>
    rw [Call.composeStep, Call.step]
    cases r.place c.file kind position path with
    | error e => rfl
    | ok placement =>
      cases placement with
      | literal text => rfl
      | files paths => exact foldlM_map (composePut_out hbelow _ _) paths s

end

/-- A render that is kept in pieces comes to what the render comes to. -/
theorem composeFile_out (r : Renderer) (urls : Option UrlRebaser) (budget : Nat)
    (chain : List Path) (file : Path) (text : Text) (base : Nat) (out : Rendered) :
    (composeFile r urls budget chain file text base out).map Composed.out =
      renderFile r urls budget chain file text base out := by
  induction budget generalizing chain file text base out with
  | zero => rfl
  | succ budget ih =>
    show _ = Call.run r urls ⟨budget, chain, file, text, base, out⟩
    rw [composeFile, Call.run_eq]
    cases Sheet.parse text with
    | error e => rfl
    | ok nodes => exact foldlM_map (fun s step => composeStep_out (ih (file :: chain)) s step) _ _

/-! ## What pieces tell -/

/-- The pieces of a render below some files, after what was rendered before it. -/
structure Composes (chain : List Path) (start : Rendered) (s : Composed) : Prop where
  lines : s.out.lines = start.lines ++ linesOf s.pieces
  imports : s.out.imports = ((usesOf s.pieces).map Use.target).foldl Path.addNew start.imports
  lawful : Use.Lawful start.imports (usesOf s.pieces)
  fresh : ∀ u ∈ usesOf s.pieces, u.target.isAmong chain = false

variable {chain : List Path} {start : Rendered} {s : Composed}

theorem composes_start (chain : List Path) (start : Rendered) : Composes chain start ⟨start, []⟩ :=
  ⟨(List.append_nil _).symm, rfl, trivial, nofun⟩

theorem Composes.emit (h : Composes chain start s) (indent : Nat) (text : Text) :
    Composes chain start (s.emit indent text) := by
  have huses : usesOf (s.pieces ++ [.line (Text.indented indent text)]) = usesOf s.pieces := by
    rw [Piece.usesOf_concat, Piece.uses, List.append_nil]
  refine ⟨?_, ?_, ?_, ?_⟩
  · rw [Composed.emit, Piece.linesOf_concat, ← List.append_assoc, ← h.lines]
    rfl
  all_goals rw [Composed.emit, huses]
  exacts [h.imports, h.lawful, h.fresh]

theorem Composes.pass (h : Composes chain start s) {target : Path}
    (hfresh : target.isAmong chain = false) (hheld : s.out.holds target = true) :
    Composes chain start (s.pass .once target) := by
  have huses : usesOf (s.pass .once target).pieces = usesOf s.pieces ++ [⟨.once, target, false⟩] :=
    Piece.usesOf_concat _ _
  rw [Rendered.holds] at hheld
  refine ⟨?_, ?_, ?_, ?_⟩
  · rw [Composed.pass, Piece.linesOf_concat, Piece.lines, List.append_nil]
    exact h.lines
  · rw [huses, List.map_append, List.foldl_append, ← h.imports]
    exact (if_pos hheld).symm
  · rw [huses, Use.lawful_append, ← h.imports]
    exact ⟨h.lawful, by rw [hheld]; rfl, trivial⟩
  · rw [huses]
    exact List.forall_mem_append.2 ⟨h.fresh, List.forall_mem_singleton.2 hfresh⟩

theorem Composes.putIn (h : Composes chain start s) {kind : ImportKind} {target : Path}
    {inner : Composed} (hfresh : target.isAmong chain = false)
    (hnew : (kind = .once && s.out.holds target) = false)
    (hinner : Composes (target :: chain) (s.out.use target) inner) :
    Composes chain start (s.putIn kind target inner) := by
  have huses : usesOf (s.putIn kind target inner).pieces =
      usesOf s.pieces ++ ⟨kind, target, true⟩ :: usesOf inner.pieces :=
    Piece.usesOf_concat _ _
  refine ⟨?_, ?_, ?_, ?_⟩
  · rw [Composed.putIn, Piece.linesOf_concat, Piece.lines, hinner.lines, ← List.append_assoc,
      ← h.lines]
    rfl
  · rw [huses, List.map_append, List.foldl_append, ← h.imports]
    exact hinner.imports
  · rw [huses, Use.lawful_append, ← h.imports]
    refine ⟨h.lawful, ?_, hinner.lawful⟩
    rw [Rendered.holds] at hnew
    cases kind with
    | always => rfl
    | once =>
      have hheld : target.isAmong s.out.imports = false := hnew
      rw [hheld]
      rfl
  · rw [huses]
    refine List.forall_mem_append.2 ⟨h.fresh, List.forall_mem_cons.2 ⟨hfresh, fun u hu => ?_⟩⟩
    have hbelow := hinner.fresh u hu
    rw [Path.isAmong_cons, Bool.or_eq_false_iff] at hbelow
    exact hbelow.2

section
variable (hbelow : ∀ target text base out s, below target text base out = .ok s →
  Composes (target :: c.file :: c.chain) out s)
include hbelow

theorem composes_composePut {i : Sheet.Import} {indent : Nat} {target : Path} {s' : Composed}
    (h : Composes (c.file :: c.chain) start s)
    (hput : c.composePut r below i indent s target = .ok s') :
    Composes (c.file :: c.chain) start s' := by
  rw [Call.composePut] at hput
  split at hput
  case isTrue => cases hput
  case isFalse hloop =>
    have hfresh : target.isAmong (c.file :: c.chain) = false := by simpa using hloop
    split at hput
    case isTrue hheld =>
      rw [Bool.and_eq_true, decide_eq_true_eq] at hheld
      cases hput
      rw [hheld.1]
      exact h.pass hfresh hheld.2
    case isFalse hnew =>
      cases hread : r.fs.readText target with
      | error e =>
        rw [hread] at hput
        cases hput
      | ok text =>
        rw [hread] at hput
        cases hinner : below target text (c.base + indent) (s.out.use target) with
        | error e =>
          simp only [hinner] at hput
          cases hput
        | ok inner =>
          simp only [hinner] at hput
          cases hput
          exact h.putIn hfresh (by simpa using hnew) (hbelow _ _ _ _ _ hinner)

theorem composes_composeStep {step : Sheet.Step} {s' : Composed}
    (h : Composes (c.file :: c.chain) start s)
    (hstep : c.composeStep r urls below s step = .ok s') :
    Composes (c.file :: c.chain) start s' := by
  cases step with
  | line indent text =>
    cases hstep
    exact h.emit _ _
  | request kind position indent path =>
    rw [Call.composeStep] at hstep
    cases hplace : r.place c.file kind position path with
    | error e =>
      rw [hplace] at hstep
      cases hstep
    | ok placement =>
      rw [hplace] at hstep
      cases placement with
      | literal text =>
        cases hstep
        exact h.emit _ _
      | files paths =>
        refine of_foldlM_eq_ok (P := Composes (c.file :: c.chain) start) hstep h ?_
        intro before target after s₁ s₂ _ _ hput h₁
        exact composes_composePut hbelow h₁ hput

end

/-- The pieces of a render tell its lines and what it put in. -/
theorem composes_composeFile {budget : Nat} {chain : List Path} {file : Path} {text : Text}
    {base : Nat} {out : Rendered} {s : Composed}
    (h : composeFile r urls budget chain file text base out = .ok s) :
    Composes (file :: chain) out s := by
  induction budget generalizing chain file text base out s with
  | zero => cases h
  | succ budget ih =>
    rw [composeFile] at h
    cases hparse : Sheet.parse text with
    | error e =>
      rw [hparse] at h
      cases h
    | ok nodes =>
      rw [hparse] at h
      refine of_foldlM_eq_ok (P := Composes (file :: chain) out) h (composes_start _ _) ?_
      intro before step after s₁ s₂ _ _ hstep h₁
      exact composes_composeStep (c := ⟨budget, chain, file, text, base, out⟩)
        (fun target text base out s hs => ih hs) h₁ hstep

/-- A render that succeeds is composed of pieces, and the uses in them are the uses of files that it
makes, in order. A file is put in once for each time that it is imported, and once more if the first
use of it requires it; any other use that requires it emits nothing. The files that were put in are
those of the uses in the order of the first use, without repetitions and without the entry. -/
theorem render_uses {file : Path} {text : Text} {out : Rendered}
    (h : r.render file text = .ok out) :
    ∃ pieces, r.compose file text = .ok ⟨out, pieces⟩ ∧ out.lines = linesOf pieces ∧
      (∀ target, Use.inlinings target (usesOf pieces) =
        Use.imports target (usesOf pieces) +
          (Use.requiredFirst target (usesOf pieces)).toNat) ∧
      (∀ before u after, usesOf pieces = before ++ u :: after →
        u.inlined = (u.kind = .always || !u.target.isAmong (before.map Use.target))) ∧
      out.imports = ((usesOf pieces).map Use.target).eraseDupsBy Path.same ∧
      (out.imports.Pairwise fun p q => p.same q = false) ∧
      ∀ p ∈ out.imports, p.same file = false := by
  have hout := composeFile_out r (r.rebaser file) r.budget [] file text 0 .empty
  change (r.compose file text).map Composed.out = r.render file text at hout
  rw [h] at hout
  cases hcompose : r.compose file text with
  | error e =>
    rw [hcompose] at hout
    cases hout
  | ok s =>
    rw [hcompose] at hout
    cases hout
    -- The pieces of a render that succeeds follow the law of uses.
    obtain ⟨hlines, himports, hlawful, hfresh⟩ := composes_composeFile hcompose
    refine ⟨s.pieces, rfl, hlines, fun target => hlawful.inlinings_eq target, ?_, ?_, ?_, ?_⟩
    · intro before u after huses
      rw [huses] at hlawful
      exact hlawful.inlined_eq
    · exact himports.trans (Path.foldl_addNew_eq _)
    · rw [himports]
      exact Path.pairwise_foldl_addNew _ .nil
    · intro p hp
      have hamong := Path.isAmong_of_mem hp
      rw [himports, Path.isAmong_foldl_addNew] at hamong
      obtain ⟨q, hq, hsame⟩ := Path.isAmong_iff.1 hamong
      obtain ⟨u, hu, rfl⟩ := List.mem_map.1 hq
      have hentry := hfresh u hu
      rw [Path.isAmong_congr hsame] at hentry
      exact Path.same_eq_false_of_mem hentry List.mem_cons_self

/-! ## Files that are imported and required -/

def mixedFiles : Memory := .ofTexts "/p"
  [("/p/a.styl", "@require 'parts/x'\na\n"), ("/p/parts/x.styl", "x\n"),
    ("/p/parts/y.styl", "y\n")]

def mixed : Renderer := ⟨mixedFiles.fileSystem, [], false, none, none⟩

def mixedEntry : Path := ⟨"/p/main.styl".toList⟩

def mixedText : Text := "@require 'a'\n@import 'a'\n@require 'a'\n@require 'parts/*'\n".toList

def mixedUses : List Use :=
  [(.once, "/p/a.styl", true), (.once, "/p/parts/x.styl", true), (.always, "/p/a.styl", true),
    (.once, "/p/parts/x.styl", false), (.once, "/p/a.styl", false),
    (.once, "/p/parts/x.styl", false), (.once, "/p/parts/y.styl", true)].map
  fun (kind, target, inlined) => ⟨kind, ⟨target.toList⟩, inlined⟩

theorem render_uses_mixed : ∃ out pieces, mixed.render mixedEntry mixedText = .ok out ∧
    mixed.compose mixedEntry mixedText = .ok ⟨out, pieces⟩ ∧ usesOf pieces = mixedUses ∧
    linesOf pieces = ["x", "a", "a", "y"].map String.toList ∧
    Use.inlinings ⟨"/p/a.styl".toList⟩ mixedUses =
      Use.imports ⟨"/p/a.styl".toList⟩ mixedUses + 1 ∧
    (mixedUses.map Use.target).eraseDupsBy Path.same =
      ["/p/a.styl", "/p/parts/x.styl", "/p/parts/y.styl"].map (⟨·.toList⟩) := by
  have hrender : mixed.render mixedEntry mixedText =
      .ok ⟨["x", "a", "a", "y"].map String.toList,
        ["/p/a.styl", "/p/parts/x.styl", "/p/parts/y.styl"].map (⟨·.toList⟩)⟩ := by
    decide +kernel
  obtain ⟨pieces, hcompose, hlines, hcounts, -, himports, -, -⟩ := render_uses hrender
  have huses : (mixed.compose mixedEntry mixedText).map (usesOf ·.pieces) = .ok mixedUses := by
    decide +kernel
  rw [hcompose] at huses
  have huses : usesOf pieces = mixedUses := Except.ok.inj huses
  rw [huses] at hcounts himports
  exact ⟨_, pieces, hrender, hcompose, huses, hlines.symm, hcounts _, himports.symm⟩

end Renderer

end StyleImports
