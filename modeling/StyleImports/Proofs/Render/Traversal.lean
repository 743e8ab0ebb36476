import StyleImports.Proofs.Render.Calls
import StyleImports.Proofs.Sheet.Visitor

/-!
# Passing over a stylesheet

A pass renders a stylesheet with one scope, in which it enters a block and leaves it again, and
notes the imports whose targets it asks for. It comes to what a call renders (`run_eq_pass`), and if
it raises no error it has asked for the imports that a visitor collects, in order, without those of
`.css` files unless these are put in (`asked_of_renderNodes`).
-/

set_option autoImplicit false

namespace StyleImports.Renderer

/-- A pass under way: the variables, what is rendered, and the imports whose targets were asked
for. -/
structure Pass where
  scope : Sheet.Scope
  out : Rendered
  asked : List Sheet.Import

namespace Pass

def emit (p : Pass) (indent : Nat) (text : Text) : Pass :=
  { p with out := p.out.emit indent text }

/-- Renders an import of the file of a call. -/
def renderImport (r : Renderer) (urls : Option UrlRebaser) (c : Call) (p : Pass)
    (kind : ImportKind) (position : Position) (indent : Nat) :
    Option Sheet.Value → Except RenderStop Pass
  | none => .error (.failed (.emptyPath c.file position))
  | some (.str []) => .error (.failed (.emptyPath c.file position))
  | some (.url url) =>
    .ok (p.emit (c.base + indent) (kind.keyword ++ " url(\x22" ++ url ++ "\x22)"))
  | some (.str specifier) =>
    if Specifier.isExternal specifier || (Text.endsWithAscii ".css" specifier && !r.includeCss) then
      .ok (p.emit (c.base + indent) (kind.keyword ++ " \x22" ++ specifier ++ "\x22"))
    else
      match c.targets r ⟨specifier, position, kind⟩ with
      | .error e => .error (.failed e)
      | .ok targets =>
        (targets.foldlM (c.put r urls ⟨specifier, position, kind⟩ indent) p.out).map fun out =>
          ⟨p.scope, out, p.asked ++ [⟨specifier, position, kind⟩]⟩

mutual

/-- Renders a line and what is below it. -/
def renderNode (r : Renderer) (urls : Option UrlRebaser) (c : Call) (p : Pass) :
    Node → Except RenderStop Pass
  | .statement text _ indent => .ok (p.emit (c.base + indent) (source urls c.file text))
  | .assignment name value text _ indent =>
    .ok ({ p with scope := p.scope.define name (Sheet.eval p.scope value) }.emit
      (c.base + indent) (source urls c.file text))
  | .block header _ indent nodes =>
    let entered := { p.emit (c.base + indent) (source urls c.file header) with
      scope := p.scope.push }
    (renderNodes r urls c entered nodes).map fun inside =>
      { inside with scope := inside.scope.pop }
  | .request kind paths position indent =>
    renderImport r urls c p kind position indent (paths.head?.map (Sheet.eval p.scope))

def renderNodes (r : Renderer) (urls : Option UrlRebaser) (c : Call) (p : Pass) :
    List Node → Except RenderStop Pass
  | [] => .ok p
  | node :: rest => (renderNode r urls c p node).bind fun p => renderNodes r urls c p rest

end

/-- The start of a pass over the file of a call. -/
def start (c : Call) : Pass := ⟨.empty, c.out, []⟩

/-! ## Steps -/

/-- The import whose targets a step asks for. -/
def asked? (r : Renderer) : Sheet.Step → Option Sheet.Import
  | .request kind position _ (some (.str specifier)) =>
    if specifier = [] || r.isLiteral specifier then none else some ⟨specifier, position, kind⟩
  | _ => none

/-- A pass over some steps that leaves the given scope. -/
def ofSteps (r : Renderer) (urls : Option UrlRebaser) (c : Call) (p : Pass) (scope : Sheet.Scope)
    (steps : List Sheet.Step) : Except RenderStop Pass :=
  (steps.foldlM (c.step r urls) p.out).map fun out =>
    ⟨scope, out, p.asked ++ steps.filterMap (asked? r)⟩

variable {r : Renderer} {urls : Option UrlRebaser} {c : Call}

theorem ofSteps_nil (p : Pass) : ofSteps r urls c p p.scope [] = .ok p := by
  show Except.ok (⟨p.scope, p.out, p.asked ++ []⟩ : Pass) = .ok p
  rw [List.append_nil]

theorem ofSteps_append (p : Pass) (scope inside : Sheet.Scope) (steps more : List Sheet.Step) :
    ofSteps r urls c p scope (steps ++ more) =
      (ofSteps r urls c p inside steps).bind fun p => ofSteps r urls c p scope more := by
  simp only [ofSteps, List.foldlM_append, List.filterMap_append]
  cases steps.foldlM (c.step r urls) p.out with
  | error stop => rfl
  | ok out => simp only [Except.map, Except.bind, bind, List.append_assoc]

theorem ofSteps_singleton (p : Pass) (scope : Sheet.Scope) (step : Sheet.Step) :
    ofSteps r urls c p scope [step] =
      (c.step r urls p.out step).map fun out =>
        ⟨scope, out, p.asked ++ (asked? r step).toList⟩ := by
  have hasked : [step].filterMap (asked? r) = (asked? r step).toList := by
    cases h : asked? r step with
    | none => rw [List.filterMap_cons_none h]; rfl
    | some i => rw [List.filterMap_cons_some h]; rfl
  rw [ofSteps, hasked, List.foldlM_cons]
  cases c.step r urls p.out step <;> rfl

theorem ofSteps_line (p : Pass) (scope : Sheet.Scope) (indent : Nat) (text : Text) :
    ofSteps r urls c p scope [.line indent text] =
      .ok { p.emit (c.base + indent) (source urls c.file text) with scope := scope } := by
  rw [ofSteps_singleton]
  show Except.ok _ = Except.ok _
  rw [asked?, Option.toList_none, List.append_nil]
  · rfl
  · simp

theorem renderImport_eq (p : Pass) (kind : ImportKind) (position : Position) (indent : Nat)
    (path : Option Sheet.Value) :
    renderImport r urls c p kind position indent path =
      ofSteps r urls c p p.scope [.request kind position indent path] := by
  rw [ofSteps_singleton]
  match path with
  | none => rfl
  | some (.str []) => rfl
  | some (.url url) =>
    show Except.ok _ = Except.ok _
    simp [asked?, emit, Option.toList_none]
  | some (.str (first :: rest)) =>
    have hasked : asked? r (.request kind position indent (some (.str (first :: rest)))) =
        if r.isLiteral (first :: rest) then none else some ⟨first :: rest, position, kind⟩ := by
      simp [asked?]
    simp only [hasked, Call.step, place, renderImport]
    change (if r.isLiteral (first :: rest) then _ else _) = _
    by_cases hliteral : r.isLiteral (first :: rest) = true
    · rw [if_pos hliteral, if_pos hliteral, if_pos hliteral]
      show Except.ok _ = Except.ok _
      rw [Option.toList_none, List.append_nil]
      rfl
    · rw [if_neg hliteral, if_neg hliteral, if_neg hliteral]
      have htargets : r.targets c.file kind position (first :: rest) =
          c.targets r ⟨first :: rest, position, kind⟩ := rfl
      rw [htargets]
      cases c.targets r ⟨first :: rest, position, kind⟩ <;> rfl

mutual

theorem renderNode_eq (r : Renderer) (urls : Option UrlRebaser) (c : Call) (p : Pass) :
    (node : Node) → renderNode r urls c p node =
      ofSteps r urls c p (p.scope.after node) (Sheet.stepsOfNode p.scope node)
  | .statement text line indent => by
    rw [Sheet.stepsOfNode, ofSteps_line]
    rfl
  | .assignment name value text line indent => by
    rw [Sheet.stepsOfNode, ofSteps_line]
    rfl
  | .block header line indent nodes => by
    have hpop := Sheet.Visitor.pop_foldl_after nodes p.scope
    rw [Sheet.stepsOfNode, ← List.singleton_append, ofSteps_append p _ p.scope.push, ofSteps_line,
      renderNode, renderNodes_eq]
    simp only [Except.bind, ofSteps]
    generalize (Sheet.stepsOf p.scope.push nodes).foldlM (c.step r urls)
      (p.emit (c.base + indent) (source urls c.file header)).out = outcome
    cases outcome with
    | error stop => rfl
    | ok out =>
      simp only [Except.map, hpop]
      rfl
  | .request kind paths position indent => renderImport_eq ..

theorem renderNodes_eq (r : Renderer) (urls : Option UrlRebaser) (c : Call) (p : Pass) :
    (nodes : List Node) → renderNodes r urls c p nodes =
      ofSteps r urls c p (nodes.foldl Sheet.Scope.after p.scope) (Sheet.stepsOf p.scope nodes)
  | [] => (ofSteps_nil p).symm
  | node :: rest => by
    rw [renderNodes, renderNode_eq r urls c p node, Sheet.stepsOf,
      ofSteps_append p _ (p.scope.after node)]
    simp only [ofSteps]
    cases (Sheet.stepsOfNode p.scope node).foldlM (c.step r urls) p.out with
    | error stop => rfl
    | ok out => exact renderNodes_eq r urls c _ rest

end

/-! ## Whole passes -/

/-- A call renders what a pass over its stylesheet renders. -/
theorem run_eq_pass (r : Renderer) (urls : Option UrlRebaser) (c : Call) :
    c.run r urls =
      match Sheet.parse c.text with
      | .error e => .error (.failed (.unparsed c.file e))
      | .ok nodes => (renderNodes r urls c (.start c) nodes).map Pass.out := by
  rw [Call.run_eq]
  cases Sheet.parse c.text with
  | error e => rfl
  | ok nodes =>
    dsimp only
    rw [renderNodes_eq, ofSteps, start]
    dsimp only
    generalize (Sheet.stepsOf .empty nodes).foldlM (c.step r urls) c.out = outcome
    cases outcome <;> rfl

/-- A step asks for the targets of its import, unless the import is one of a `.css` file that stays
as a line. -/
theorem asked?_eq (r : Renderer) (step : Sheet.Step) :
    asked? r step = step.import?.filter fun i =>
      r.includeCss || !Text.endsWithAscii ".css" i.specifier := by
  match step with
  | .line indent text => rfl
  | .request kind position indent none => rfl
  | .request kind position indent (some (.url url)) => rfl
  | .request kind position indent (some (.str specifier)) =>
    by_cases hnamed : (specifier = [] || Specifier.isExternal specifier) = true
    · have hasked : asked? r (.request kind position indent (some (.str specifier))) = none := by
        rw [asked?, isLiteral, ← Bool.or_assoc, if_pos (by rw [hnamed, Bool.true_or])]
      rw [hasked, Sheet.Step.import?, if_pos hnamed]
      rfl
    · rw [Bool.not_eq_true] at hnamed
      have hasked : asked? r (.request kind position indent (some (.str specifier))) =
          if (Text.endsWithAscii ".css" specifier && !r.includeCss) = true then none
          else some ⟨specifier, position, kind⟩ := by
        rw [asked?, isLiteral, ← Bool.or_assoc, hnamed, Bool.false_or]
      rw [hasked, Sheet.Step.import?, hnamed, if_neg Bool.false_ne_true, Option.filter_some]
      generalize Text.endsWithAscii ".css" specifier = css
      cases css <;> cases r.includeCss <;> rfl

/-- A pass that raises no error asks for the targets of the imports that a visitor collects, in
order, without those of `.css` files unless these are put in. -/
theorem asked_of_renderNodes {nodes : List Node} {p : Pass}
    (h : renderNodes r urls c (.start c) nodes = .ok p) :
    p.asked = (Sheet.Visitor.visit nodes).filter fun i =>
      r.includeCss || !Text.endsWithAscii ".css" i.specifier := by
  rw [renderNodes_eq, ofSteps] at h
  cases hsteps : (Sheet.stepsOf (start c).scope nodes).foldlM (c.step r urls) (start c).out with
  | error stop =>
    rw [hsteps] at h
    cases h
  | ok out =>
    rw [hsteps] at h
    cases h
    rw [Sheet.Visitor.visit_eq, Sheet.importsOf, List.filter_filterMap]
    exact List.filterMap_congr fun step _ => asked?_eq r step

end Pass

end StyleImports.Renderer
