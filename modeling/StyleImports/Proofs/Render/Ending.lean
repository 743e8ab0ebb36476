import StyleImports.Proofs.Render.Replay

/-!
# Renders that end

The calls on the way to a call form a trail. Suppose that a trail on which no call repeats one
before it is no longer than a limit. A call that succeeds lies on such a trail, so that it needs no
more budget than the limit leaves (`run_withBudget`). A call that repeats one on its trail fails,
after replaying what that one did, again within the limit. So twice the limit is enough for every
call (`run_ne_tooDeep`).
-/

set_option autoImplicit false

namespace StyleImports.Renderer.Call

variable {r : Renderer} {urls : Option UrlRebaser} {first c c' : Call} {above : List Call}
  {i : Sheet.Import} {indent : Nat} {target : Path} {out out' : Rendered}

/-! ## Trails -/

/-- The calls on the way from a first call to another one, the last of them first. -/
inductive Trail (r : Renderer) (urls : Option UrlRebaser) (first : Call) :
    List Call → Call → Prop where
  | start : Trail r urls first [] first
  | call {above : List Call} {c c' : Call} : Trail r urls first above c → Calls r urls c c' →
      Trail r urls first (c :: above) c'

/-- No call of a list repeats one that was made before it. -/
def Varied (r : Renderer) (calls : List Call) : Prop :=
  calls.Pairwise fun later earlier => ¬ earlier.Repeats r later

theorem Calls.within (h : Calls r urls c c') : c.out.Within c'.out := by
  cases h with
  | below hcomes _ _ _ _ => exact hcomes.within.trans (Rendered.within_use _ _)

/-- A call on the way made one for a file that is still on the chain, and what was put in before is
held. -/
theorem Trail.exists_calls (h : Trail r urls first above c) {before : Call}
    (hbefore : before ∈ above) :
    ∃ above' i indent target out, Trail r urls first above' before ∧
      (before :: above') <:+ above ∧ before.ComesToTarget r urls i indent target out ∧
      target.isAmong (c.file :: c.chain) = true ∧ out.Within c.out := by
  induction h with
  | start => cases hbefore
  | @call above last c htrail hcalls ih =>
    rcases List.mem_cons.1 hbefore with rfl | hbefore
    · cases hcalls with
      | below hcomes _ _ _ _ =>
        exact ⟨above, _, _, _, _, htrail, List.suffix_rfl, hcomes,
          Path.isAmong_of_mem List.mem_cons_self, Rendered.within_use _ _⟩
    · obtain ⟨above', i, indent, target, out, habove, hsuffix, hcomes, hamong, hwithin⟩ :=
        ih hbefore
      refine ⟨above', i, indent, target, out, habove, hsuffix.trans (List.suffix_cons _ _), hcomes,
        ?_, hwithin.trans hcalls.within⟩
      cases hcalls with
      | below _ _ _ _ _ => exact Path.isAmong_mono (fun _ hp => List.mem_cons_of_mem _ hp) hamong

/-- A call that succeeds repeats none on the way to it. -/
theorem varied_of_run (htrail : Trail r urls first above c) (habove : Varied r above)
    (h : c.run r urls = .ok out) : Varied r (c :: above) := by
  refine List.pairwise_cons.2 ⟨fun before hbefore hrepeats => ?_, habove⟩
  obtain ⟨_, _, _, _, _, -, -, hcomes, hloop, -⟩ := htrail.exists_calls hbefore
  exact hrepeats.run_ne_ok hcomes hloop h

/-! ## Calls that succeed -/

/-- A call with another budget for the files below it. -/
def withBudget (c : Call) (budget : Nat) : Call := { c with budget := budget }

/-- A step that succeeds succeeds with a budget that is enough for all that it puts in. -/
theorem step_withBudget {budget : Nat} {step : Sheet.Step}
    (hput : ∀ i indent target out out', c.ComesToTarget r urls i indent target out →
      c.put r urls i indent out target = .ok out' →
        (c.withBudget budget).put r urls i indent out target = .ok out')
    (hcomes : c.ComesTo r urls step out) (h : c.step r urls out step = .ok out') :
    (c.withBudget budget).step r urls out step = .ok out' := by
  cases step with
  | line indent text => exact h
  | request kind position indent path =>
    simp only [Call.step] at h ⊢
    have hplaced := placed_place r c kind position path
    have hfile : r.place (c.withBudget budget).file kind position path =
        r.place c.file kind position path := rfl
    rw [hfile]
    generalize r.place c.file kind position path = placement at hplaced h
    cases hplaced with
    | empty => exact h
    | literal => exact h
    | @files specifier hnamed hliteral =>
      cases htargets : c.targets r ⟨specifier, position, kind⟩ with
      | error e =>
        rw [htargets] at h
        cases h
      | ok targets =>
        rw [htargets] at h
        have hexecutes : c.Executes r urls ⟨specifier, position, kind⟩ indent out :=
          ⟨hcomes, hnamed, hliteral⟩
        refine foldlM_eq_ok_of_prefix h fun before target after b₁ b₂ hsplit hbefore htarget => ?_
        exact hput _ _ _ _ _ ⟨out, before, after, hexecutes, hsplit ▸ htargets, hbefore⟩ htarget

theorem comesToTarget_withBudget {budget : Nat}
    (hput : ∀ i indent target out out', c.ComesToTarget r urls i indent target out →
      c.put r urls i indent out target = .ok out' →
        (c.withBudget budget).put r urls i indent out target = .ok out')
    (h : c.ComesToTarget r urls i indent target out) :
    (c.withBudget budget).ComesToTarget r urls i indent target out := by
  obtain ⟨out₀, first, last, hexecutes, htargets, hfirst⟩ := h
  obtain ⟨nodes, before, after, hparse, hsteps, hbefore⟩ := hexecutes.comesTo
  have hsame : before.foldlM ((c.withBudget budget).step r urls) c.out = .ok out₀ :=
    foldlM_eq_ok_of_prefix hbefore fun before' step after' b₁ b₂ hsplit hb₁ hstep =>
      step_withBudget hput ⟨nodes, before', after' ++ _ :: after, hparse,
        by rw [hsteps, hsplit, List.append_assoc, List.cons_append], hb₁⟩ hstep
  refine ⟨out₀, first, last, ⟨⟨nodes, before, after, hparse, hsteps, hsame⟩, hexecutes.named,
    hexecutes.notLiteral⟩, htargets, ?_⟩
  refine foldlM_eq_ok_of_prefix hfirst fun before' other after' b₁ b₂ hsplit hb₁ hother => ?_
  exact hput _ _ _ _ _ ⟨out₀, before', after' ++ target :: last, hexecutes,
    by rw [htargets, hsplit, List.append_assoc, List.cons_append], hb₁⟩ hother

section
variable {limit : Nat} (hlimit : ∀ above c, Trail r urls first above c →
  Varied r (c :: above) → above.length + 1 ≤ limit)
include hlimit

/-- A file that is put in is put in with such a budget, if the calls below succeed with theirs. -/
theorem put_withBudget {budget : Nat} (htrail : Trail r urls first above c)
    (hvaried : Varied r (c :: above)) (hle : limit ≤ budget + above.length + 1)
    (hrun : ∀ {c' out' budget}, Calls r urls c c' → limit ≤ budget + (c :: above).length + 1 →
      c'.run r urls = .ok out' → (c'.withBudget budget).run r urls = .ok out')
    (hcomes : c.ComesToTarget r urls i indent target out)
    (h : c.put r urls i indent out target = .ok out') :
    (c.withBudget budget).put r urls i indent out target = .ok out' := by
  rw [put] at h ⊢
  split at h
  case isTrue => cases h
  case isFalse hloop =>
    rw [if_neg (by exact hloop)]
    split at h
    case isTrue hheld => rw [if_pos hheld, h]
    case isFalse hheld =>
      rw [if_neg hheld]
      cases hread : r.fs.readText target with
      | error e =>
        rw [hread] at h
        cases h
      | ok text =>
        rw [hread] at h
        cases hbudget : c.budget with
        | zero =>
          simp only [hbudget, renderFile] at h
          cases h
        | succ less =>
          simp only [hbudget] at h
          have hcalls := Calls.below hcomes (by simpa using hloop) (by simpa using hheld) hread
            hbudget
          have hlonger := hlimit _ _ (htrail.call hcalls)
            (varied_of_run (htrail.call hcalls) hvaried h)
          obtain ⟨budget, rfl⟩ : ∃ less, budget = less + 1 :=
            ⟨budget - 1, by simp only [List.length_cons] at hlonger; omega⟩
          exact hrun hcalls (by simp only [List.length_cons]; omega) h

/-- A call that succeeds does so with any budget that fills up the limit. -/
theorem run_withBudget {budget : Nat} (htrail : Trail r urls first above c)
    (habove : Varied r above) (hle : limit ≤ budget + above.length + 1)
    (h : c.run r urls = .ok out) : (c.withBudget budget).run r urls = .ok out := by
  induction hless : c.budget using Nat.strongRecOn generalizing above c budget out with
  | ind less ih =>
    have hvaried := varied_of_run htrail habove h
    rw [run_eq] at h ⊢
    cases hparse : Sheet.parse c.text with
    | error e =>
      rw [hparse] at h
      cases h
    | ok nodes =>
      rw [hparse] at h
      simp only [withBudget, hparse]
      refine foldlM_eq_ok_of_prefix h fun before step after b₁ b₂ hsplit hbefore hstep => ?_
      refine step_withBudget (fun i indent target out out' hcomes hput => ?_)
        ⟨nodes, before, after, hparse, hsplit, hbefore⟩ hstep
      refine put_withBudget hlimit htrail hvaried hle (fun hcalls hle' hrun => ?_) hcomes hput
      refine ih _ ?_ (htrail.call hcalls) hvaried hle' hrun rfl
      cases hcalls with
      | below _ _ _ _ hbudget => exact hless ▸ hbudget ▸ Nat.lt_succ_self _

omit hlimit in
/-- A call that is too deep has no budget left, or makes one that is too deep. -/
theorem exists_calls_of_tooDeep (h : c.run r urls = .error .tooDeep) :
    c.budget = 0 ∨ ∃ c', Calls r urls c c' ∧ c.budget = c'.budget + 1 ∧
      c'.run r urls = .error .tooDeep := by
  rw [run_eq] at h
  cases hparse : Sheet.parse c.text with
  | error e =>
    rw [hparse] at h
    cases h
  | ok nodes =>
    rw [hparse] at h
    -- The step at which the call stops, and the target at which that step does.
    obtain ⟨before, step, after, out, hsteps, hbefore, hstep⟩ := exists_of_foldlM_eq_error h
    have hstepped := stepped_step ⟨nodes, before, after, hparse, hsteps, hbefore⟩
    rw [hstep] at hstepped
    cases hstepped with
    | @executed i indent targets _ hexecutes htargets hfold =>
      obtain ⟨first, target, rest, out', rfl, hfirst, hput⟩ := exists_of_foldlM_eq_error hfold
      have hcomes : c.ComesToTarget r urls i indent target out' :=
        ⟨out, first, rest, hexecutes, htargets, hfirst⟩
      rw [put] at hput
      split at hput
      case isTrue => cases hput
      case isFalse hloop =>
        split at hput
        case isTrue => cases hput
        case isFalse hheld =>
          cases hread : r.fs.readText target with
          | error e =>
            rw [hread] at hput
            cases hput
          | ok text =>
            rw [hread] at hput
            cases hbudget : c.budget with
            | zero => exact .inl rfl
            | succ budget =>
              simp only [hbudget] at hput
              exact .inr ⟨_, .below hcomes (by simpa using hloop) (by simpa using hheld) hread
                hbudget, rfl, hput⟩

/-- No call is too deep whose budget fills up twice the limit. -/
theorem run_ne_tooDeep (htrail : Trail r urls first above c) (habove : Varied r above)
    (hle : 2 * limit ≤ c.budget + above.length + 1) : c.run r urls ≠ .error .tooDeep := by
  -- Every call leaves less budget and a longer trail, so the induction is on the budget.
  induction hless : c.budget using Nat.strongRecOn generalizing above c with
  | ind less ih =>
    by_cases hrepeats : ∃ before ∈ above, before.Repeats r c
    · obtain ⟨before, hbefore, hrepeats⟩ := hrepeats
      obtain ⟨above', i, indent, target, out, htrail', hsuffix, hcomes, hloop, hwithin⟩ :=
        htrail.exists_calls hbefore
      have hlength : above.length ≤ limit := by
        cases htrail with
        | start => exact Nat.zero_le _
        | call htrail _ => exact hlimit _ _ htrail habove
      have hvaried : Varied r (before :: above') := habove.sublist hsuffix.sublist
      -- What the first call did before, it does with the budget that is left here.
      have hagain : (before.withBudget c.budget).ComesToTarget r urls i indent target out := by
        refine comesToTarget_withBudget (fun i indent target out out' hcomes hput => ?_) hcomes
        exact put_withBudget hlimit htrail' hvaried (by omega)
          (fun hcalls hle' hrun => run_withBudget hlimit (htrail'.call hcalls) hvaried hle' hrun)
          hcomes hput
      have hsame : (before.withBudget c.budget).Repeats r c := ⟨hrepeats.text, hrepeats.targets⟩
      obtain ⟨e, hfailed⟩ := hsame.run_failed rfl hagain hloop hwithin
      rw [hfailed]
      exact nofun
    · have hvaried : Varied r (c :: above) :=
        List.pairwise_cons.2 ⟨fun before hbefore hrep => hrepeats ⟨before, hbefore, hrep⟩, habove⟩
      have hlonger := hlimit _ _ htrail hvaried
      intro hdeep
      rcases exists_calls_of_tooDeep hdeep with hzero | ⟨c', hcalls, hbudget, hdeep'⟩
      · omega
      · refine ih c'.budget (by omega) (htrail.call hcalls) hvaried ?_ rfl hdeep'
        simp only [List.length_cons]
        omega

end

end StyleImports.Renderer.Call
