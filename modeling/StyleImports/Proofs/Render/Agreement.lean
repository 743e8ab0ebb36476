import StyleImports.Proofs.Render.Calls

/-!
# Renderers that agree

A renderer agrees with another one if it finds whatever that one finds and reads the same of the
files that are put in (`Agrees`). It then renders whatever the other one renders, to the same
(`Agrees.renderFile`); a larger budget changes nothing about a render that succeeds. So a renderer
that finds more in the same files renders the same (`render_of_extends`).
-/

set_option autoImplicit false

namespace StyleImports.Renderer

variable {r more : Renderer} {urls urls' : Option UrlRebaser} {P : Path → Prop}

/-- A renderer that finds the targets that another one finds and rebases URLs alike; the files that
it reads alike satisfy a condition. -/
structure Agrees (r more : Renderer) (urls urls' : Option UrlRebaser) (P : Path → Prop) :
    Prop where
  includeCss : more.includeCss = r.includeCss
  source : ∀ file text, Renderer.source urls' file text = Renderer.source urls file text
  reads : ∀ p, P p → more.fs.readText p = r.fs.readText p
  targets : ∀ file kind position specifier found,
    r.targets file kind position specifier = .ok found →
      more.targets file kind position specifier = .ok found

/-- All files that are put in satisfy a condition. -/
def Confined (P : Path → Prop) (out : Rendered) : Prop := ∀ p, p.isAmong out.imports = true → P p

theorem confined_of_use {out : Rendered} {target : Path} (h : Confined P (out.use target)) :
    P target ∧ Confined P out := by
  have hmore : ∀ p : Path, target.same p = true ∨ p.isAmong out.imports = true →
      p.isAmong (out.use target).imports = true := by
    intro p hp
    simp only [Rendered.use, Path.addNew]
    split
    case isTrue hheld =>
      rcases hp with hsame | hp
      · rw [← Path.isAmong_congr hsame]
        exact hheld
      · exact hp
    case isFalse =>
      rw [Path.isAmong_append, Bool.or_eq_true]
      rcases hp with hsame | hp
      · exact .inr (Path.isAmong_iff.2 ⟨target, List.mem_cons_self, hsame⟩)
      · exact .inl hp
  exact ⟨h target (hmore target (.inl (Path.same_self target))),
    fun p hp => h p (hmore p (.inr hp))⟩

theorem Agrees.isLiteral (h : r.Agrees more urls urls' P) (specifier : Text) :
    more.isLiteral specifier = r.isLiteral specifier := by
  rw [Renderer.isLiteral, Renderer.isLiteral, h.includeCss]

theorem Agrees.place (h : r.Agrees more urls urls' P) {file : Path} {kind : ImportKind}
    {position : Position} {path : Option Sheet.Value} {placement : Placement}
    (hplace : r.place file kind position path = .ok placement) :
    more.place file kind position path = .ok placement := by
  match path with
  | none => cases hplace
  | some (.str []) => cases hplace
  | some (.url url) => exact hplace
  | some (.str (first :: rest)) =>
    simp only [Renderer.place, h.isLiteral] at hplace ⊢
    by_cases hliteral : r.isLiteral (first :: rest) = true
    · rw [if_pos hliteral] at hplace ⊢
      exact hplace
    · rw [if_neg hliteral] at hplace ⊢
      cases hfound : r.targets file kind position (first :: rest) with
      | error e =>
        rw [hfound] at hplace
        cases hplace
      | ok found =>
        rw [h.targets _ _ _ _ _ hfound, ← hfound]
        exact hplace

theorem Agrees.put (h : r.Agrees more urls urls' P) {c : Call} {budget : Nat}
    (hbelow : ∀ {chain file text base out out'},
      Renderer.renderFile r urls c.budget chain file text base out = .ok out' →
        Confined P out' → Confined P out ∧
          Renderer.renderFile more urls' budget chain file text base out = .ok out')
    {i : Sheet.Import} {indent : Nat} {target : Path} {out out' : Rendered}
    (hput : c.put r urls i indent out target = .ok out') (hout : Confined P out') :
    Confined P out ∧ Call.put more urls' { c with budget := budget } i indent out target =
      .ok out' := by
  simp only [Call.put] at hput ⊢
  by_cases hloop : target.isAmong (c.file :: c.chain) = true
  · rw [if_pos hloop] at hput
    cases hput
  · rw [if_neg hloop] at hput ⊢
    by_cases hheld : (i.kind = .once && out.holds target) = true
    · rw [if_pos hheld] at hput ⊢
      cases hput
      exact ⟨hout, rfl⟩
    · rw [if_neg hheld] at hput ⊢
      cases hread : r.fs.readText target with
      | error e =>
        rw [hread] at hput
        cases hput
      | ok text =>
        rw [hread] at hput
        obtain ⟨hused, hrun⟩ := hbelow hput hout
        obtain ⟨htarget, hbefore⟩ := confined_of_use hused
        rw [h.reads target htarget, hread]
        exact ⟨hbefore, hrun⟩

/-- What a file is rendered to, it is rendered to by a renderer that agrees, with a larger budget,
if all that is put in is read alike. -/
theorem Agrees.renderFile (h : r.Agrees more urls urls' P) {budget larger : Nat}
    (hle : budget ≤ larger) {chain : List Path} {file : Path} {text : Text} {base : Nat}
    {out out' : Rendered}
    (hrun : Renderer.renderFile r urls budget chain file text base out = .ok out')
    (hout : Confined P out') :
    Confined P out ∧
      Renderer.renderFile more urls' larger chain file text base out = .ok out' := by
  induction budget generalizing larger chain file text base out out' with
  | zero => cases hrun
  | succ budget ih =>
    obtain _ | larger := larger
    · omega
    have hless : budget ≤ larger := by omega
    have hrun : Call.run r urls ⟨budget, chain, file, text, base, out⟩ = .ok out' := hrun
    show Confined P out ∧ Call.run more urls' ⟨larger, chain, file, text, base, out⟩ = .ok out'
    rw [Call.run_eq] at hrun ⊢
    cases hparse : Sheet.parse text with
    | error e =>
      simp only [hparse] at hrun
      cases hrun
    | ok nodes =>
      simp only [hparse] at hrun ⊢
      -- Step by step: a line is written alike, a request puts in the same targets.
      refine foldlM_eq_ok_of_steps hrun hout (fun out step out' hstep hout => ?_)
      cases step with
      | line indent text =>
        cases hstep
        exact ⟨hout, by rw [Call.step, h.source]⟩
      | request kind position indent path =>
        simp only [Call.step] at hstep ⊢
        cases hplace : r.place file kind position path with
        | error e =>
          rw [hplace] at hstep
          cases hstep
        | ok placement =>
          rw [hplace] at hstep
          rw [h.place hplace]
          cases placement with
          | literal text =>
            cases hstep
            exact ⟨hout, rfl⟩
          | files paths =>
            exact foldlM_eq_ok_of_steps hstep hout
              fun _ _ _ hput hout => h.put (fun hbelow => ih hless hbelow) hput hout

/-- A renderer that finds the targets that another one finds in the same files. -/
structure Extends (r more : Renderer) : Prop where
  fs : more.fs = r.fs
  includeCss : more.includeCss = r.includeCss
  targets : ∀ file kind position specifier found,
    r.targets file kind position specifier = .ok found →
      more.targets file kind position specifier = .ok found

/-- What is rendered is rendered by a renderer that finds more. -/
theorem render_of_extends (h : r.Extends more) (hurls : more.urls = r.urls)
    (hpaths : more.paths = r.paths) (hbudget : r.budget ≤ more.budget) {file : Path} {text : Text}
    {out : Rendered} (hrender : r.render file text = .ok out) :
    more.render file text = .ok out := by
  have hagrees : r.Agrees more (r.rebaser file) (r.rebaser file) fun _ => True :=
    ⟨h.includeCss, fun _ _ => rfl, fun _ _ => by rw [h.fs], h.targets⟩
  rw [render, hurls, hpaths, h.fs]
  exact (hagrees.renderFile hbudget hrender fun _ _ => trivial).2

end StyleImports.Renderer
