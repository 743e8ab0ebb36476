import StyleImports.Proofs.Render.Stack

/-!
# Rendering further in

Two renders that differ in the indentation alone go the same way: what they have rendered differs by
the spaces before each new line (`Rendered.Deeper`), and nothing that a render asks about its state
depends on its lines. So a file that is put in further in comes to the same lines behind more spaces
and puts in the same files, or fails alike (`deeper_renderFile`), and the lines that an import comes
to are indented at least as far as the import (`growsIndented_of_step`).
-/

set_option autoImplicit false

namespace StyleImports

/-- A line behind a number of spaces. -/
def Text.indented (n : Nat) (line : Text) : Text := List.replicate n ' ' ++ line

theorem Text.indented_indented (n m : Nat) (line : Text) :
    indented n (indented m line) = indented (n + m) line := by
  rw [indented, indented, indented, ← List.append_assoc, List.replicate_append_replicate]

namespace Rendered

variable {n : Nat} {start : List Text} {flat deep : Rendered}

/-- After the same lines, one render has written its lines further in than another one; both have
put in the same files. -/
structure Deeper (n : Nat) (start : List Text) (flat deep : Rendered) : Prop where
  lines : ∃ added, flat.lines = start ++ added ∧ deep.lines = start ++ added.map (Text.indented n)
  imports : deep.imports = flat.imports

theorem Deeper.refl (n : Nat) (out : Rendered) : Deeper n out.lines out out :=
  ⟨⟨[], by simp, by simp⟩, rfl⟩

theorem Deeper.emit (h : Deeper n start flat deep) (indent : Nat) (text : Text) :
    Deeper n start (flat.emit indent text) (deep.emit (n + indent) text) := by
  obtain ⟨added, hflat, hdeep⟩ := h.lines
  refine ⟨⟨added ++ [Text.indented indent text], ?_, ?_⟩, h.imports⟩
  · rw [Rendered.emit, hflat, List.append_assoc]
    rfl
  · rw [List.map_append, ← List.append_assoc, ← hdeep]
    simp only [List.map_cons, List.map_nil, Text.indented_indented]
    rfl

theorem Deeper.use (h : Deeper n start flat deep) (file : Path) :
    Deeper n start (flat.use file) (deep.use file) := by
  refine ⟨h.lines, ?_⟩
  rw [Rendered.use, Rendered.use, h.imports]

theorem Deeper.holds (h : Deeper n start flat deep) (file : Path) :
    deep.holds file = flat.holds file := by
  rw [Rendered.holds, Rendered.holds, h.imports]

end Rendered

namespace Renderer

open Rendered (Deeper)

/-- Two renders end alike: what they come to is related, or they stop for the same reason. -/
inductive EndAlike (R : Rendered → Rendered → Prop) :
    Except RenderStop Rendered → Except RenderStop Rendered → Prop where
  | ok {a b : Rendered} : R a b → EndAlike R (.ok a) (.ok b)
  | error (e : RenderStop) : EndAlike R (.error e) (.error e)

theorem endAlike_foldlM {α : Type} {R : Rendered → Rendered → Prop}
    {f g : Rendered → α → Except RenderStop Rendered}
    (hstep : ∀ a b x, R a b → EndAlike R (f a x) (g b x)) (xs : List α) {a b : Rendered}
    (h : R a b) : EndAlike R (xs.foldlM f a) (xs.foldlM g b) := by
  induction xs generalizing a b with
  | nil => exact .ok h
  | cons x xs ih =>
    rw [List.foldlM_cons, List.foldlM_cons]
    have hfirst := hstep a b x h
    generalize f a x = first at hfirst ⊢
    generalize g b x = first' at hfirst ⊢
    cases hfirst with
    | ok h => exact ih h
    | error e => exact .error e

variable {r : Renderer} {urls : Option UrlRebaser} {n : Nat} {start : List Text}
  {flat deep : Rendered} {c : Call}

/-- A call whose file is indented further. -/
def Call.deeper (n : Nat) (c : Call) : Call := { c with base := n + c.base }

section
variable (hbelow : ∀ target text base flat deep, Deeper n start flat deep →
  EndAlike (Deeper n start)
    (renderFile r urls c.budget (c.file :: c.chain) target text base flat)
    (renderFile r urls c.budget (c.file :: c.chain) target text (n + base) deep))
include hbelow

theorem deeper_put (i : Sheet.Import) (indent : Nat) (target : Path)
    (h : Deeper n start flat deep) :
    EndAlike (Deeper n start) (c.put r urls i indent flat target)
      ((c.deeper n).put r urls i indent deep target) := by
  simp only [Call.put, Call.deeper, h.holds]
  by_cases hloop : target.isAmong (c.file :: c.chain) = true
  · rw [if_pos hloop, if_pos hloop]
    exact .error _
  · rw [if_neg hloop, if_neg hloop]
    by_cases hheld : (i.kind = .once && flat.holds target) = true
    · rw [if_pos hheld, if_pos hheld]
      exact .ok h
    · rw [if_neg hheld, if_neg hheld]
      cases r.fs.readText target with
      | error e => exact .error _
      | ok text =>
        rw [Nat.add_assoc]
        exact hbelow target text _ _ _ (h.use target)

theorem deeper_step (step : Sheet.Step) (h : Deeper n start flat deep) :
    EndAlike (Deeper n start) (c.step r urls flat step) ((c.deeper n).step r urls deep step) := by
  cases step with
  | line indent text =>
    rw [Call.step, Call.step, Call.deeper, Nat.add_assoc]
    exact .ok (h.emit _ _)
  | request kind position indent path =>
    rw [Call.step, Call.step]
    dsimp only [Call.deeper]
    cases r.place c.file kind position path with
    | error e => exact .error _
    | ok placement =>
      cases placement with
      | literal text =>
        rw [Nat.add_assoc]
        exact .ok (h.emit _ _)
      | files paths =>
        exact endAlike_foldlM (fun flat deep target h => deeper_put hbelow _ _ target h) paths h

end

/-- A file that is rendered further in comes to the same lines further in, or fails alike. -/
theorem deeper_renderFile (r : Renderer) (urls : Option UrlRebaser) (budget : Nat)
    (chain : List Path) (file : Path) (text : Text) (base : Nat) (h : Deeper n start flat deep) :
    EndAlike (Deeper n start) (renderFile r urls budget chain file text base flat)
      (renderFile r urls budget chain file text (n + base) deep) := by
  induction budget generalizing chain file text base flat deep with
  | zero => exact .error _
  | succ budget ih =>
    let c : Call := ⟨budget, chain, file, text, base, flat⟩
    show EndAlike (Deeper n start) (c.run r urls)
      (Call.run r urls ⟨budget, chain, file, text, n + base, deep⟩)
    rw [Call.run_eq, Call.run_eq]
    cases Sheet.parse text with
    | error e => exact .error _
    | ok nodes =>
      refine endAlike_foldlM (fun flat deep step h => ?_) _ h
      refine deeper_step (c := c) (fun target text base flat deep h => ?_) step h
      exact ih (file :: chain) target text base h

/-! ## Lines of an import -/

/-- The lines of a render are those of another one and more of them, all behind some spaces. -/
def GrowsIndented (n : Nat) (out out' : Rendered) : Prop :=
  ∃ added, out'.lines = out.lines ++ added ∧ ∀ line ∈ added, List.replicate n ' ' <+: line

theorem GrowsIndented.refl (n : Nat) (out : Rendered) : GrowsIndented n out out :=
  ⟨[], by simp, nofun⟩

theorem GrowsIndented.trans {out out' out'' : Rendered} (h : GrowsIndented n out out')
    (h' : GrowsIndented n out' out'') : GrowsIndented n out out'' := by
  obtain ⟨added, hlines, hspaces⟩ := h
  obtain ⟨added', hlines', hspaces'⟩ := h'
  refine ⟨added ++ added', by rw [hlines', hlines, List.append_assoc], fun line hline => ?_⟩
  exact (List.mem_append.1 hline).elim (hspaces line) (hspaces' line)

theorem growsIndented_emit (indent : Nat) (text : Text) (out : Rendered) :
    GrowsIndented indent out (out.emit indent text) :=
  ⟨[Text.indented indent text], rfl, fun _ hline =>
    List.mem_singleton.1 hline ▸ List.prefix_append _ _⟩

theorem growsIndented_of_deeper {out : Rendered} (h : Deeper n out.lines flat deep) :
    GrowsIndented n out deep := by
  obtain ⟨added, -, hdeep⟩ := h.lines
  refine ⟨_, hdeep, fun line hline => ?_⟩
  obtain ⟨inner, -, rfl⟩ := List.mem_map.1 hline
  exact List.prefix_append _ _

/-- A file that is put in is indented as far as its import. -/
theorem growsIndented_of_put {i : Sheet.Import} {indent : Nat} {target : Path}
    {out out' : Rendered} (h : c.put r urls i indent out target = .ok out') :
    GrowsIndented (c.base + indent) out out' := by
  rw [Call.put] at h
  split at h
  · cases h
  · split at h
    · cases h
      exact .refl _ _
    · cases hread : r.fs.readText target with
      | error e =>
        rw [hread] at h
        cases h
      | ok text =>
        rw [hread] at h
        -- The call is one at no indentation, moved further in.
        have halike := deeper_renderFile r urls c.budget (c.file :: c.chain) target text 0
          (.refl (c.base + indent) (out.use target))
        dsimp only at h
        rw [Nat.add_zero, h] at halike
        generalize renderFile r urls c.budget (c.file :: c.chain) target text 0 (out.use target) =
          flat at halike
        cases halike with
        | ok hdeeper => exact growsIndented_of_deeper hdeeper

/-- The lines that an import comes to are indented as far as the import in its file. -/
theorem growsIndented_of_step {kind : ImportKind} {position : Position} {indent : Nat}
    {path : Option Sheet.Value} {out out' : Rendered}
    (h : c.step r urls out (.request kind position indent path) = .ok out') :
    GrowsIndented (c.base + indent) out out' := by
  rw [Call.step] at h
  cases hplace : r.place c.file kind position path with
  | error e =>
    rw [hplace] at h
    cases h
  | ok placement =>
    rw [hplace] at h
    cases placement with
    | literal text =>
      cases h
      exact growsIndented_emit _ _ _
    | files paths =>
      refine of_foldlM_eq_ok (P := GrowsIndented (c.base + indent) out) h (.refl _ _) ?_
      intro before target after out₁ out₂ _ _ hput hgrown
      exact hgrown.trans (growsIndented_of_put hput)

/-! ## Renders of a file -/

theorem exists_lines_of_renderFile (r : Renderer) (urls : Option UrlRebaser) (budget : Nat)
    (file : Path) (text : Text) (base : Nat) (chain : List Path) (out : Rendered) :
    (∃ added imports,
      renderFile r urls budget chain file text 0 out = .ok ⟨out.lines ++ added, imports⟩ ∧
      renderFile r urls budget chain file text base out =
        .ok ⟨out.lines ++ added.map (Text.indented base), imports⟩) ∨
    ∃ e, renderFile r urls budget chain file text 0 out = .error e ∧
      renderFile r urls budget chain file text base out = .error e := by
  have halike := deeper_renderFile r urls budget chain file text 0 (.refl base out)
  rw [Nat.add_zero] at halike
  generalize renderFile r urls budget chain file text 0 out = flat at halike ⊢
  generalize renderFile r urls budget chain file text base out = deep at halike ⊢
  cases halike with
  | @ok flat deep hdeeper =>
    obtain ⟨⟨added, hflat, hdeep⟩, himports⟩ := hdeeper
    refine .inl ⟨added, flat.imports, ?_, ?_⟩
    · rw [← hflat]
    · rw [← hdeep, ← himports]
  | error e => exact .inr ⟨e, rfl, rfl⟩

/-- A file that is rendered at an indentation gives the lines that it gives without one, each behind
that many spaces, and puts in the same files, or it fails with the same error. On one state it also
leaves the same stack. The lines that an import comes to are indented as far as the import in its
file, and so at least as far as the file. -/
theorem renderFile_indented (r : Renderer) (urls : Option UrlRebaser) (budget : Nat) (file : Path)
    (text : Text) (base : Nat) :
    (∀ chain out,
      (∃ added imports,
        renderFile r urls budget chain file text 0 out = .ok ⟨out.lines ++ added, imports⟩ ∧
        renderFile r urls budget chain file text base out =
          .ok ⟨out.lines ++ added.map (Text.indented base), imports⟩) ∨
      ∃ e, renderFile r urls budget chain file text 0 out = .error e ∧
        renderFile r urls budget chain file text base out = .error e) ∧
    (∀ before : Stacked,
      (∃ flat deep added,
        (renderOn r urls budget file text 0).run before = .ok () flat ∧
        (renderOn r urls budget file text base).run before = .ok () deep ∧
        flat.out.lines = before.out.lines ++ added ∧
        deep.out.lines = before.out.lines ++ added.map (Text.indented base) ∧
        deep.out.imports = flat.out.imports ∧ deep.stack = flat.stack) ∨
      ∃ e flat deep,
        (renderOn r urls budget file text 0).run before = .error e flat ∧
        (renderOn r urls budget file text base).run before = .error e deep) ∧
    ∀ (c : Call) kind position indent path out out',
      c.step r urls out (.request kind position indent path) = .ok out' →
        ∃ added, out'.lines = out.lines ++ added ∧
          ∀ line ∈ added, List.replicate (c.base + indent) ' ' <+: line := by
  have hfile := exists_lines_of_renderFile r urls budget file text base
  refine ⟨hfile, fun before => ?_, fun c kind position indent path out out' h =>
    growsIndented_of_step h⟩
  have hflat := @follows_renderOn r urls budget before.stack file text 0 before rfl
  have hdeep := @follows_renderOn r urls budget before.stack file text base before rfl
  -- On a state both renders follow the ones below a chain.
  obtain ⟨added, imports, hok, hok'⟩ | ⟨e, herror, herror'⟩ := hfile before.stack before.out
  · rw [hok] at hflat
    rw [hok'] at hdeep
    obtain ⟨flat, hrun, hout, hstack⟩ := hflat.of_ok
    obtain ⟨deep, hrun', hout', hstack'⟩ := hdeep.of_ok
    exact .inl ⟨flat, deep, added, hrun, hrun', by rw [hout], by rw [hout'], by rw [hout, hout'],
      hstack'.trans hstack.symm⟩
  · rw [herror] at hflat
    rw [herror'] at hdeep
    obtain ⟨flat, hrun⟩ := hflat.of_error
    obtain ⟨deep, hrun'⟩ := hdeep.of_error
    exact .inr ⟨e, flat, deep, hrun, hrun'⟩

/-! ## An import below a rule -/

def nestedFiles : Memory := .ofTexts "/p"
  [("/p/a.styl", "a\n  @import 'b'\n  @import 'c.css'\n"), ("/p/b.styl", "b\n")]

def nested : Renderer := ⟨nestedFiles.fileSystem, [], false, none, none⟩

/-- The call for a file that is put in at an indentation of four spaces. -/
def nestedCall : Call :=
  ⟨1, [⟨"/p/main.styl".toList⟩], ⟨"/p/a.styl".toList⟩, "a\n  @import 'b'\n".toList, 4, .empty⟩

theorem renderFile_indented_nested :
    (∃ imports,
      renderFile nested none 2 [] nestedCall.file "a\n  @import 'b'\n  @import 'c.css'\n".toList 0
        .empty = .ok ⟨["a", "  b", "  @import \"c.css\""].map String.toList, imports⟩ ∧
      renderFile nested none 2 [] nestedCall.file "a\n  @import 'b'\n  @import 'c.css'\n".toList 4
        .empty = .ok ⟨["    a", "      b", "      @import \"c.css\""].map String.toList, imports⟩) ∧
    ∃ out added, nestedCall.step nested none .empty
        (.request .always ⟨2, 3⟩ 2 (some (.str "b".toList))) = .ok out ∧
      out.lines = added ∧ ∀ line ∈ added, List.replicate 6 ' ' <+: line := by
  have hmoved := renderFile_indented nested none 2 nestedCall.file
    "a\n  @import 'b'\n  @import 'c.css'\n".toList 4
  refine ⟨?_, ?_⟩
  · have hflat : renderFile nested none 2 [] nestedCall.file
        "a\n  @import 'b'\n  @import 'c.css'\n".toList 0 .empty =
          .ok ⟨["a", "  b", "  @import \"c.css\""].map String.toList, [⟨"/p/b.styl".toList⟩]⟩ := by
      decide +kernel
    obtain ⟨added, imports, hok, hok'⟩ | ⟨e, herror, -⟩ := hmoved.1 [] .empty
    · rw [hflat] at hok
      cases hok
      exact ⟨_, hflat, hok'⟩
    · rw [hflat] at herror
      cases herror
  · have hstep : nestedCall.step nested none .empty
        (.request .always ⟨2, 3⟩ 2 (some (.str "b".toList))) =
          .ok ⟨["      b".toList], [⟨"/p/b.styl".toList⟩]⟩ := by
      decide +kernel
    obtain ⟨added, hlines, hspaces⟩ := hmoved.2.2 nestedCall .always ⟨2, 3⟩ 2 _ .empty _ hstep
    exact ⟨_, added, hstep, hlines, hspaces⟩

end Renderer

end StyleImports
