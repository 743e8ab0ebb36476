import StyleImports.Proofs.Render.Calls

/-!
# Calls that are made again

A file can be rendered again, below another chain and after more files were put in. What it put in
successfully the first time it then puts in with the same budget, leaves out because it is held, or
refuses because it is on the chain now; it is never too deep (`replays_renderFile`). So a call that
repeats one on the way to it, with the text and the targets of that one, comes to the target that
lies on the way too, and fails there: it never succeeds (`Repeats.run_ne_ok`), and it is not too
deep as long as the budget was enough for what the first one did before (`Repeats.run_failed`).
-/

set_option autoImplicit false

namespace StyleImports

/-! ## What is held -/

namespace Rendered

variable {out more res : Rendered} {target : Path}

/-- Every file that one render holds is held by another one. -/
def Within (out more : Rendered) : Prop := ∀ p, out.holds p = true → more.holds p = true

theorem Within.refl (out : Rendered) : out.Within out := fun _ h => h

theorem Within.trans (h : out.Within more) (hmore : more.Within res) : out.Within res :=
  fun p hp => hmore p (h p hp)

theorem within_use (out : Rendered) (target : Path) : out.Within (out.use target) := by
  intro p hp
  simp only [holds, use, Path.addNew] at hp ⊢
  split
  case isTrue => exact hp
  case isFalse => rw [Path.isAmong_append, hp, Bool.true_or]

end Rendered

namespace Renderer

variable {r : Renderer} {urls : Option UrlRebaser} {res : Rendered}

/-! ## Outcomes that are not too deep -/

/-- An outcome is an error that is not for want of budget, or satisfies a condition. -/
structure Settles (P : Rendered → Prop) (outcome : Except RenderStop Rendered) : Prop where
  notDeep : outcome ≠ .error .tooDeep
  keeps : ∀ out, outcome = .ok out → P out

theorem settles_ok {P : Rendered → Prop} {out : Rendered} (h : P out) : Settles P (.ok out) :=
  ⟨nofun, fun _ hout => Except.ok.inj hout ▸ h⟩

theorem settles_failed (P : Rendered → Prop) (e : RenderError) :
    Settles P (.error (.failed e)) := ⟨nofun, nofun⟩

/-- A fold stops at an element at which every step does. -/
theorem foldlM_stops {α β ε : Type} {g : β → α → Except ε β} {before after : List α} {x : α}
    (h : ∀ d, ∃ stop, g d x = .error stop) (b : β) :
    ∃ stop, (before ++ x :: after).foldlM g b = .error stop := by
  rw [List.foldlM_append]
  cases before.foldlM g b with
  | error stop => exact ⟨stop, rfl⟩
  | ok d =>
    obtain ⟨stop, hstop⟩ := h d
    refine ⟨stop, ?_⟩
    show (x :: after).foldlM g d = .error stop
    rw [List.foldlM_cons, hstop]
    rfl

/-- A fold that settles before an element fails at it if the step does. -/
theorem foldlM_fails {α : Type} {g : Rendered → α → Except RenderStop Rendered}
    {before after : List α} {x : α} {P : Rendered → Prop} {b : Rendered}
    (hbefore : Settles P (before.foldlM g b))
    (h : ∀ d, P d → ∃ e, g d x = .error (.failed e)) :
    ∃ e, (before ++ x :: after).foldlM g b = .error (.failed e) := by
  rw [List.foldlM_append]
  cases hd : before.foldlM g b with
  | error stop =>
    rw [hd] at hbefore
    cases stop with
    | failed e => exact ⟨e, rfl⟩
    | tooDeep => exact absurd rfl hbefore.notDeep
  | ok d =>
    rw [hd] at hbefore
    obtain ⟨e, he⟩ := h d (hbefore.keeps d rfl)
    refine ⟨e, ?_⟩
    show (x :: after).foldlM g d = .error (.failed e)
    rw [List.foldlM_cons, he]
    rfl

/-- A fold settles whose steps settle wherever those of a fold that succeeds are made again. What
comes after a step of the other fold keeps a condition, which then holds from the start. -/
theorem settles_foldlM {α : Type} {f g : Rendered → α → Except RenderStop Rendered} {xs : List α}
    {P Q : Rendered → Prop} {b b' : Rendered} (h : xs.foldlM f b = .ok b') (hQ : Q b')
    (hstep : ∀ b x c, f b x = .ok c → Q c → Q b ∧ ∀ d, P d → Settles P (g d x)) :
    Q b ∧ ∀ d, P d → Settles P (xs.foldlM g d) := by
  induction xs generalizing b with
  | nil =>
    cases h
    exact ⟨hQ, fun d hd => settles_ok hd⟩
  | cons x xs ih =>
    rw [List.foldlM_cons] at h
    cases hx : f b x with
    | error fault =>
      rw [hx] at h
      cases h
    | ok b₂ =>
      rw [hx] at h
      obtain ⟨hQ₂, hrest⟩ := ih h
      obtain ⟨hQ₁, hfirst⟩ := hstep b x b₂ hx hQ₂
      refine ⟨hQ₁, fun d hd => ?_⟩
      rw [List.foldlM_cons]
      have hsettles := hfirst d hd
      cases hagain : g d x with
      | error stop =>
        rw [hagain] at hsettles
        exact ⟨hsettles.notDeep, nofun⟩
      | ok d₂ => exact hrest d₂ (hsettles.keeps d₂ hagain)

namespace Call

variable {c again : Call} {i : Sheet.Import} {indent : Nat} {target : Path} {out out' : Rendered}

/-- A call has the text of another one, and an import stands for the files that it stands for
there. -/
structure Repeats (r : Renderer) (c again : Call) : Prop where
  text : again.text = c.text
  targets : ∀ i found, c.targets r i = .ok found → again.targets r i = .ok found

/-! ## Making a call again -/

/-- A file that was put in settles when it is put in again, if it settles when it is rendered
again. -/
theorem replays_put (hbudget : again.budget = c.budget)
    (hbelow : ∀ {chain file text base out out'},
      renderFile r urls c.budget chain file text base out = .ok out' → out'.Within res →
        out.Within res ∧ ∀ chain base d, res.Within d →
          Settles res.Within (renderFile r urls c.budget chain file text base d))
    (h : c.put r urls i indent out target = .ok out') (hout : out'.Within res) :
    out.Within res ∧ ∀ d, res.Within d →
      Settles res.Within (again.put r urls i indent d target) := by
  rw [put] at h
  split at h
  case isTrue => cases h
  case isFalse =>
    split at h
    case isTrue hheld =>
      cases h
      refine ⟨hout, fun d hd => ?_⟩
      simp only [Bool.and_eq_true] at hheld
      -- What was held then is in `res`, so it is held again.
      have hagain : (i.kind = .once && d.holds target) = true := by
        rw [hheld.1, hd target (hout target hheld.2), Bool.and_self]
      rw [put, if_pos hagain]
      split
      · exact settles_failed _ _
      · exact settles_ok hd
    case isFalse =>
      cases hread : r.fs.readText target with
      | error e =>
        rw [hread] at h
        cases h
      | ok text =>
        rw [hread] at h
        obtain ⟨hused, hrun⟩ := hbelow h hout
        refine ⟨(out.within_use target).trans hused, fun d hd => ?_⟩
        rw [put, hread, hbudget]
        split
        · exact settles_failed _ _
        · split
          · exact settles_ok hd
          · exact hrun _ _ _ (hd.trans (d.within_use target))

theorem Repeats.place (h : c.Repeats r again) {kind : ImportKind} {position : Position}
    {path : Option Sheet.Value} {placement : Placement}
    (hplace : r.place c.file kind position path = .ok placement) :
    r.place again.file kind position path = .ok placement := by
  match path with
  | none => cases hplace
  | some (.str []) => cases hplace
  | some (.url url) => exact hplace
  | some (.str (first :: rest)) =>
    simp only [Renderer.place] at hplace ⊢
    split at hplace
    case isTrue hliteral =>
      rw [if_pos hliteral]
      exact hplace
    case isFalse hliteral =>
      rw [if_neg hliteral]
      cases hfound : c.targets r ⟨first :: rest, position, kind⟩ with
      | error e =>
        rw [Call.targets] at hfound
        rw [hfound] at hplace
        cases hplace
      | ok found =>
        have hagain := h.targets _ _ hfound
        rw [Call.targets] at hfound hagain
        rw [hagain, ← hfound]
        exact hplace

theorem Repeats.step (h : c.Repeats r again) {step : Sheet.Step}
    (hput : ∀ i indent target out out', c.put r urls i indent out target = .ok out' →
      out'.Within res → out.Within res ∧ ∀ d, res.Within d →
        Settles res.Within (again.put r urls i indent d target))
    (hstep : c.step r urls out step = .ok out') (hout : out'.Within res) :
    out.Within res ∧ ∀ d, res.Within d → Settles res.Within (again.step r urls d step) := by
  cases step with
  | line indent text =>
    cases hstep
    exact ⟨hout, fun d hd => settles_ok hd⟩
  | request kind position indent path =>
    simp only [Call.step] at hstep ⊢
    cases hplace : r.place c.file kind position path with
    | error e =>
      rw [hplace] at hstep
      cases hstep
    | ok placement =>
      rw [hplace] at hstep
      rw [h.place hplace]
      cases placement with
      | literal text =>
        cases hstep
        exact ⟨hout, fun d hd => settles_ok hd⟩
      | files paths =>
        exact settles_foldlM (Q := (·.Within res)) hstep hout
          fun _ _ _ hx hc => hput _ _ _ _ _ hx hc

/-- A file that was rendered settles when it is rendered again, below any chain, with all held
that was put in. -/
theorem replays_renderFile {budget : Nat} {chain : List Path} {file : Path} {text : Text}
    {base : Nat} (h : renderFile r urls budget chain file text base out = .ok out')
    (hout : out'.Within res) :
    out.Within res ∧ ∀ chain base d, res.Within d →
      Settles res.Within (renderFile r urls budget chain file text base d) := by
  induction budget generalizing chain file text base out out' with
  | zero => cases h
  | succ budget ih =>
    have hrun : Call.run r urls ⟨budget, chain, file, text, base, out⟩ = .ok out' := h
    rw [run_eq] at hrun
    cases hparse : Sheet.parse text with
    | error e =>
      simp only [hparse] at hrun
      cases hrun
    | ok nodes =>
      simp only [hparse] at hrun
      have hreplay : ∀ chain' base' start, out.Within res ∧ ∀ d, res.Within d →
          Settles res.Within ((Sheet.stepsOf .empty nodes).foldlM
            (Call.step r urls ⟨budget, chain', file, text, base', start⟩) d) := by
        intro chain' base' start
        have hrepeats : Repeats r ⟨budget, chain, file, text, base, out⟩
            ⟨budget, chain', file, text, base', start⟩ := ⟨rfl, fun _ _ hfound => hfound⟩
        have hbudget : (Call.mk budget chain' file text base' start).budget =
            (Call.mk budget chain file text base out).budget := rfl
        exact settles_foldlM (Q := (·.Within res)) hrun hout fun _ _ _ hstep hc =>
          hrepeats.step
            (fun _ _ _ _ _ hput => replays_put hbudget (fun hbelow => ih hbelow) hput) hstep hc
      refine ⟨(hreplay [] 0 out).1, fun chain' base' d hd => ?_⟩
      show Settles res.Within (Call.run r urls ⟨budget, chain', file, text, base', d⟩)
      rw [run_eq]
      simp only [hparse]
      exact (hreplay chain' base' d).2 d hd

/-- What a call did before it came to a target settles when it is made again, with all held that
was put in up to there. -/
theorem Repeats.replays (h : c.Repeats r again) (hbudget : again.budget = c.budget)
    {before : List Sheet.Step} {first : List Path} {out₀ : Rendered}
    (hbefore : before.foldlM (c.step r urls) c.out = .ok out₀)
    (hfirst : first.foldlM (c.put r urls i indent) out₀ = .ok out) :
    c.out.Within out ∧
      (∀ d, out.Within d → Settles out.Within (before.foldlM (again.step r urls) d)) ∧
      ∀ d, out.Within d → Settles out.Within (first.foldlM (again.put r urls i indent) d) := by
  have hput : ∀ i indent target out₁ out₂, c.put r urls i indent out₁ target = .ok out₂ →
      out₂.Within out → out₁.Within out ∧ ∀ d, out.Within d →
        Settles out.Within (again.put r urls i indent d target) :=
    fun _ _ _ _ _ hput => replays_put hbudget (fun hbelow => replays_renderFile hbelow) hput
  obtain ⟨hheld, hputs⟩ := settles_foldlM (Q := (·.Within out)) hfirst (.refl out)
    fun _ _ _ hx hc => hput _ _ _ _ _ hx hc
  obtain ⟨hwithin, hsteps⟩ := settles_foldlM (Q := (·.Within out)) hbefore hheld
    fun _ _ _ hstep hc => h.step hput hstep hc
  exact ⟨hwithin, hsteps, hputs⟩

theorem ComesToTarget.within (h : c.ComesToTarget r urls i indent target out) :
    c.out.Within out := by
  obtain ⟨out₀, first, last, hexecutes, -, hfirst⟩ := h
  obtain ⟨nodes, before, after, -, -, hbefore⟩ := hexecutes.comesTo
  have hrepeats : c.Repeats r c := ⟨rfl, fun _ _ hfound => hfound⟩
  exact (hrepeats.replays rfl hbefore hfirst).1

/-! ## Coming to a file on the way -/

/-- A call that repeats one puts in its targets where that one does. -/
theorem Repeats.step_of_comes (h : c.Repeats r again) {targets : List Path}
    (hexecutes : c.Executes r urls i indent out) (htargets : c.targets r i = .ok targets)
    (d : Rendered) :
    again.step r urls d (.request i.kind i.position indent (some (.str i.specifier))) =
      targets.foldlM (again.put r urls i indent) d := by
  rw [Call.step, place_of_named hexecutes.named hexecutes.notLiteral, h.targets i _ htargets]
  rfl

theorem put_of_loop (hloop : target.isAmong (c.file :: c.chain) = true) (out : Rendered) :
    c.put r urls i indent out target =
      .error (.failed (.loop i.specifier c.file i.position target)) := by
  rw [put, if_pos hloop]

/-- A call never succeeds that repeats one which comes to a file on its chain. -/
theorem Repeats.run_ne_ok (h : c.Repeats r again)
    (hcomes : c.ComesToTarget r urls i indent target out)
    (hloop : target.isAmong (again.file :: again.chain) = true) :
    again.run r urls ≠ .ok out' := by
  obtain ⟨out₀, first, last, hexecutes, htargets, -⟩ := hcomes
  obtain ⟨nodes, before, after, hparse, hsteps, -⟩ := hexecutes.comesTo
  rw [run_eq, h.text, hparse]
  simp only [hsteps]
  have hstops : ∀ d, ∃ stop, again.step r urls d
      (.request i.kind i.position indent (some (.str i.specifier))) = .error stop := by
    intro d
    rw [h.step_of_comes hexecutes htargets]
    exact foldlM_stops (fun d => ⟨_, put_of_loop hloop d⟩) d
  intro hrun
  obtain ⟨stop, hstop⟩ := foldlM_stops hstops again.out
  rw [hstop] at hrun
  cases hrun

/-- A call fails that repeats one which comes to a file on its chain, after all that was put in up
to there with the same budget. -/
theorem Repeats.run_failed (h : c.Repeats r again) (hbudget : again.budget = c.budget)
    (hcomes : c.ComesToTarget r urls i indent target out)
    (hloop : target.isAmong (again.file :: again.chain) = true) (hout : out.Within again.out) :
    ∃ e, again.run r urls = .error (.failed e) := by
  obtain ⟨out₀, first, last, hexecutes, htargets, hfirst⟩ := hcomes
  obtain ⟨nodes, before, after, hparse, hsteps, hbefore⟩ := hexecutes.comesTo
  obtain ⟨-, hreplay, hputs⟩ := h.replays hbudget hbefore hfirst
  rw [run_eq, h.text, hparse]
  simp only [hsteps]
  refine foldlM_fails (hreplay again.out hout) fun d hd => ?_
  rw [h.step_of_comes hexecutes htargets]
  exact foldlM_fails (hputs d hd) fun d _ => ⟨_, put_of_loop hloop d⟩

end Call

end Renderer

end StyleImports
