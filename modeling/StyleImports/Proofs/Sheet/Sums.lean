import Mathlib.Algebra.BigOperators.Group.List.Basic
import Mathlib.Data.List.Forall2
import StyleImports.Proofs.Sheet.Reading
import StyleImports.Sheet.Scope

/-!
# Sums

Values form a monoid under `+`, and the value of an expression is the sum of the values of its
atoms: its texts, words and URLs from left to right (`eval_eq_sum`). It is the URL of the leftmost
atom that has one (`eval_eq_url`), and else the texts of all atoms joined (`eval_eq_str`), however
the expression groups them.

In a line the same holds of parentheses: a text that adds terms with blanks and parentheses in any
places (`Adds`) is read as an expression that has these terms as its atoms (`exists_lists_of_adds`),
and every text that is read adds some terms (`exists_adds_of_lists`).
-/

set_option autoImplicit false

namespace StyleImports

/-- The texts, words and URLs that an expression adds, from left to right. -/
def PathExpr.atoms : PathExpr → List PathExpr
  | str s => [str s]
  | word name => [word name]
  | url inner => [url inner]
  | concat left right => left.atoms ++ right.atoms

namespace Sheet

variable {v w : Value} {values : List Value} {s t u : Text} {ts us : List Text} {rule : Rule}
  {e left right : PathExpr} {scope : Scope}

/-! ## Values -/

instance : Add Value := ⟨Value.add⟩

instance : Zero Value := ⟨.str []⟩

theorem zero_eq : (0 : Value) = .str [] := rfl

@[simp] theorem str_add_str (s t : Text) : Value.str s + .str t = .str (s ++ t) := rfl

@[simp] theorem str_add_url (s u : Text) : Value.str s + .url u = .url u := rfl

@[simp] theorem url_add (u : Text) (v : Value) : Value.url u + v = .url u := rfl

/-- The empty text adds nothing, and a URL swallows what is added on either side of it. -/
instance : AddMonoid Value where
  add_assoc v w x := by cases v <;> cases w <;> cases x <;> simp
  zero_add v := by cases v <;> simp [zero_eq]
  add_zero v := by cases v <;> simp [zero_eq]
  nsmul := nsmulRec

theorem add_eq_url : v + w = .url u ↔ v = .url u ∨ (∃ s, v = .str s) ∧ w = .url u := by
  cases v <;> cases w <;> simp

theorem add_eq_str :
    v + w = .str s ↔ ∃ front back, v = .str front ∧ w = .str back ∧ front ++ back = s := by
  cases v <;> cases w <;> simp

/-- The leftmost URL of a sum is what the sum comes to. -/
theorem sum_eq_url :
    values.sum = .url u ↔
      ∃ before after, values = before ++ .url u :: after ∧ ∀ v ∈ before, ∃ s, v = .str s := by
  induction values with
  | nil => simp [zero_eq]
  | cons first rest ih =>
    rw [List.sum_cons, add_eq_url, ih]
    constructor
    · rintro (rfl | ⟨htext, before, after, rfl, htexts⟩)
      · exact ⟨[], rest, rfl, fun _ h => nomatch h⟩
      · exact ⟨first :: before, after, rfl, List.forall_mem_cons.2 ⟨htext, htexts⟩⟩
    · rintro ⟨before, after, hsplit, htexts⟩
      cases before with
      | nil =>
        cases hsplit
        exact .inl rfl
      | cons v before =>
        cases hsplit
        obtain ⟨htext, htexts⟩ := List.forall_mem_cons.1 htexts
        exact .inr ⟨htext, before, after, rfl, htexts⟩

theorem sum_eq_str :
    values.sum = .str s ↔ ∃ texts : List Text, values = texts.map .str ∧ texts.flatten = s := by
  induction values generalizing s with
  | nil => simp [zero_eq]
  | cons first rest ih =>
    rw [List.sum_cons, add_eq_str]
    constructor
    · rintro ⟨front, back, rfl, hrest, rfl⟩
      obtain ⟨texts, rfl, rfl⟩ := ih.1 hrest
      exact ⟨front :: texts, rfl, rfl⟩
    · rintro ⟨texts, hvalues, rfl⟩
      cases texts with
      | nil => cases hvalues
      | cons front texts =>
        cases hvalues
        exact ⟨front, texts.flatten, rfl, ih.2 ⟨texts, rfl, rfl⟩, rfl⟩

/-! ## Expressions -/

theorem eval_eq_sum (scope : Scope) (e : PathExpr) :
    eval scope e = (e.atoms.map (eval scope)).sum := by
  induction e with
  | str s => simp [PathExpr.atoms]
  | word name => simp [PathExpr.atoms]
  | url inner => simp [PathExpr.atoms]
  | concat left right ihLeft ihRight =>
    calc eval scope (.concat left right)
        = eval scope left + eval scope right := rfl
      _ = (left.atoms.map (eval scope)).sum + (right.atoms.map (eval scope)).sum := by
          rw [← ihLeft, ← ihRight]
      _ = ((PathExpr.concat left right).atoms.map (eval scope)).sum := by
          rw [PathExpr.atoms, List.map_append, List.sum_append]

theorem eval_eq_url :
    eval scope e = .url u ↔ ∃ before atom after, e.atoms = before ++ atom :: after ∧
      (∀ a ∈ before, ∃ s, eval scope a = .str s) ∧ eval scope atom = .url u := by
  rw [eval_eq_sum, sum_eq_url]
  constructor
  · rintro ⟨_, _, hvalues, htexts⟩
    obtain ⟨before, behind, hatoms, rfl, hbehind⟩ := List.map_eq_append_iff.1 hvalues
    obtain ⟨atom, after, rfl, hatom, -⟩ := List.map_eq_cons_iff.1 hbehind
    exact ⟨before, atom, after, hatoms, fun a ha => htexts _ (List.mem_map_of_mem ha), hatom⟩
  · rintro ⟨before, atom, after, hatoms, htexts, hatom⟩
    exact ⟨_, _, by rw [hatoms, List.map_append, List.map_cons, hatom],
      List.forall_mem_map.2 htexts⟩

theorem eval_eq_str :
    eval scope e = .str s ↔
      ∃ texts : List Text, e.atoms.map (eval scope) = texts.map .str ∧ texts.flatten = s := by
  rw [eval_eq_sum, sum_eq_str]

theorem eval_eq_of_atoms (h : left.atoms = right.atoms) (scope : Scope) :
    eval scope left = eval scope right := by
  rw [eval_eq_sum, h, ← eval_eq_sum]

/-! ## Texts -/

/-- The texts that add some terms from left to right, with blanks and parentheses in any places. -/
inductive Adds : List Text → Text → Prop where
  | term {t : Text} {e : PathExpr} : Derives .term t e → t.head? ≠ some '(' → Adds [t] t
  | pad {ts : List Text} {before t after : Text} :
      Blanks before → Adds ts t → Blanks after → Adds ts (before ++ (t ++ after))
  | group {ts : List Text} {t : Text} : Adds ts t → Adds ts ('(' :: (t ++ [')']))
  | add {ts us : List Text} {t u : Text} :
      Adds ts t → Adds us u → Adds (ts ++ us) (t ++ '+' :: u)

theorem atoms_of_derives (h : Derives .term t e) (hopen : t.head? ≠ some '(') :
    e.atoms = [e] := by
  cases h with
  | group => exact absurd rfl hopen
  | _ => rfl

theorem lists_singleton_iff :
    Lists t [e] ↔ ∃ before u after, t = before ++ (u ++ after) ∧
      Blanks before ∧ Derives .sum u e ∧ Blanks after := by
  constructor
  · intro h
    cases h with
    | last hbefore hsum hafter => exact ⟨_, _, _, rfl, hbefore, hsum, hafter⟩
    | more _ _ _ hrest => cases hrest
  · rintro ⟨before, u, after, rfl, hbefore, hsum, hafter⟩
    exact .last hbefore hsum hafter

theorem lists_of_derives (h : Derives .sum t e) : Lists t [e] :=
  lists_singleton_iff.2 ⟨[], t, [], by simp, blanks_nil, h, blanks_nil⟩

/-- A sum that is added to another one goes on with it: the terms of both are added, though in
another grouping, as if it were in parentheses. -/
theorem exists_derives_add {before after : Text} (hleft : Derives .sum t left)
    (hbefore : Blanks before) (hafter : Blanks after) (hright : Derives .sum u right) :
    ∃ e, Derives .sum (t ++ (before ++ '+' :: (after ++ u))) e ∧
      e.atoms = left.atoms ++ right.atoms := by
  generalize hrule : Rule.sum = rule at hright
  induction hright with
  | single hterm => exact ⟨_, .add hleft hbefore hafter hterm, rfl⟩
  | add _ hbefore' hafter' hterm ih =>
    obtain ⟨e, he, hatoms⟩ := ih rfl
    have hsum := Derives.add he hbefore' hafter' hterm
    refine ⟨_, by simpa using hsum, ?_⟩
    rw [PathExpr.atoms, hatoms, PathExpr.atoms, List.append_assoc]
  | _ => cases hrule

/-- A text that adds terms is read, and these terms are the atoms. -/
theorem exists_lists_of_adds (h : Adds ts t) :
    ∃ e, Lists t [e] ∧ List.Forall₂ (Derives .term) ts e.atoms := by
  induction h with
  | @term t e hterm hopen =>
    refine ⟨e, lists_of_derives (.single hterm), ?_⟩
    rw [atoms_of_derives hterm hopen]
    exact .cons hterm .nil
  | pad hbefore _ hafter ih =>
    obtain ⟨e, hlists, hterms⟩ := ih
    obtain ⟨before', u, after', rfl, hbefore', hsum, hafter'⟩ := lists_singleton_iff.1 hlists
    exact ⟨e, lists_singleton_iff.2 ⟨_, u, _, by simp, hbefore.append hbefore', hsum,
      hafter'.append hafter⟩, hterms⟩
  | group _ ih =>
    obtain ⟨e, hlists, hterms⟩ := ih
    obtain ⟨before, u, after, rfl, hbefore, hsum, hafter⟩ := lists_singleton_iff.1 hlists
    have hgroup := lists_of_derives (.single (.group hbefore hsum hafter))
    exact ⟨e, by simpa using hgroup, hterms⟩
  | add _ _ ihLeft ihRight =>
    obtain ⟨left, hleft, hterms⟩ := ihLeft
    obtain ⟨right, hright, hterms'⟩ := ihRight
    obtain ⟨before, t, after, rfl, hbefore, hsum, hafter⟩ := lists_singleton_iff.1 hleft
    obtain ⟨before', u, after', rfl, hbefore', hsum', hafter'⟩ := lists_singleton_iff.1 hright
    obtain ⟨e, he, hatoms⟩ := exists_derives_add hsum hafter hbefore' hsum'
    refine ⟨e, lists_singleton_iff.2 ⟨before, _, after', by simp, hbefore, he, hafter'⟩, ?_⟩
    rw [hatoms]
    exact List.rel_append hterms hterms'

theorem head?_ne_of_lowerAscii {word rest : Text} (h : Text.lowerAscii word = "url(") :
    (word ++ rest).head? ≠ some '(' := by
  obtain ⟨a, b, d, rfl, ha, -⟩ := exists_letters_of_lowerAscii h
  rintro ⟨⟩
  revert ha
  decide

/-- Every text that is read adds some terms. -/
theorem exists_adds_of_derives (h : Derives rule t e) : ∃ ts, Adds ts t := by
  induction h with
  | quoted hquote hquotes =>
    refine ⟨_, .term (.quoted hquote hquotes) ?_⟩
    rintro ⟨⟩
    revert hquote
    decide
  | group hbefore _ hafter ih =>
    obtain ⟨ts, hadds⟩ := ih
    exact ⟨ts, by simpa using (Adds.pad hbefore hadds hafter).group⟩
  | quotedUrl hword hbefore hquote hquotes hafter =>
    exact ⟨_, .term (.quotedUrl hword hbefore hquote hquotes hafter) (head?_ne_of_lowerAscii hword)⟩
  | rawUrl hword hbefore hraw hclose =>
    exact ⟨_, .term (.rawUrl hword hbefore hraw hclose) (head?_ne_of_lowerAscii hword)⟩
  | word hname hparts =>
    refine ⟨_, .term (.word hname hparts) fun hopen => ?_⟩
    have hpart := hparts _ (List.mem_of_head? hopen)
    revert hpart
    decide
  | single _ ih => exact ih
  | @add t before after u left right _ hbefore hafter _ ihLeft ihRight =>
    obtain ⟨ts, hts⟩ := ihLeft
    obtain ⟨us, hus⟩ := ihRight
    have hadds := Adds.add (.pad blanks_nil hts hbefore) (.pad hafter hus blanks_nil)
    exact ⟨ts ++ us, by simpa using hadds⟩

theorem exists_adds_of_lists (h : Lists t [e]) : ∃ ts, Adds ts t := by
  obtain ⟨before, u, after, rfl, hbefore, hsum, hafter⟩ := lists_singleton_iff.1 h
  obtain ⟨ts, hadds⟩ := exists_adds_of_derives hsum
  exact ⟨ts, .pad hbefore hadds hafter⟩

theorem Lists.unique {es es' : List PathExpr} (h : Lists t es) (h' : Lists t es') : es = es' := by
  have hread : readList ⟨0, t⟩ = .ok es := readList_eq_ok_iff.2 h
  have hread' : readList ⟨0, t⟩ = .ok es' := readList_eq_ok_iff.2 h'
  rw [hread] at hread'
  exact Except.ok.inj hread'

theorem rightUnique_derives : Relator.RightUnique (Derives .term) := by
  intro t e e' h h'
  have hlists := lists_of_derives (.single h)
  have hlists' := lists_of_derives (.single h')
  exact List.singleton_inj.1 (hlists.unique hlists')

/-- Texts that add the same terms are read with the same atoms. -/
theorem atoms_of_adds (h : Adds ts t) (h' : Adds ts u) (hlists : Lists t [e]) :
    ∃ e', Lists u [e'] ∧ e'.atoms = e.atoms := by
  obtain ⟨same, hsame, hterms⟩ := exists_lists_of_adds h
  obtain ⟨e', he', hterms'⟩ := exists_lists_of_adds h'
  obtain rfl := List.singleton_inj.1 (hsame.unique hlists)
  exact ⟨e', he', rightUnique_derives.forall₂ hterms' hterms⟩

/-- An expression comes to the URL of its leftmost atom that has one, and without one to the texts
of its atoms joined. So the same atoms come to the same value, however they are grouped in the
expression or, by parentheses, in the text that it is read from. -/
theorem eval_regrouped (e : PathExpr) :
    (∀ scope u, eval scope e = .url u ↔ ∃ before atom after, e.atoms = before ++ atom :: after ∧
      (∀ a ∈ before, ∃ s, eval scope a = .str s) ∧ eval scope atom = .url u) ∧
    (∀ scope s, eval scope e = .str s ↔ ∃ texts : List Text,
      e.atoms.map (eval scope) = texts.map .str ∧ texts.flatten = s) ∧
    (∀ e', e'.atoms = e.atoms → ∀ scope, eval scope e' = eval scope e) ∧
    ∀ offset t, readList ⟨offset, t⟩ = .ok [e] →
      (∃ ts, Adds ts t) ∧ ∀ ts t', Adds ts t → Adds ts t' →
        ∃ e', readList ⟨offset, t'⟩ = .ok [e'] ∧ ∀ scope, eval scope e' = eval scope e := by
  refine ⟨fun _ _ => eval_eq_url, fun _ _ => eval_eq_str, fun _ => eval_eq_of_atoms,
    fun offset t hread => ?_⟩
  have hlists := readList_eq_ok_iff.1 hread
  refine ⟨exists_adds_of_lists hlists, fun ts t' h h' => ?_⟩
  obtain ⟨e', he', hatoms⟩ := atoms_of_adds h h' hlists
  exact ⟨e', readList_eq_ok_iff.2 he', eval_eq_of_atoms hatoms⟩

/-- A text, a variable, a word and a URL, in two groups. -/
def pairedSum : PathExpr :=
  .concat (.concat (.str "a") (.word "$u")) (.concat (.word "b") (.url "c"))

/-- The same atoms, in groups inside one another. -/
def nestedSum : PathExpr :=
  .concat (.str "a") (.concat (.concat (.word "$u") (.word "b")) (.url "c"))

def urlScope : Scope := Scope.empty.define "$u" (.url "x")

theorem eval_regrouped_variable :
    eval urlScope pairedSum = .url "x" ∧
    nestedSum.atoms = pairedSum.atoms ∧ eval urlScope nestedSum = .url "x" ∧
    readList ⟨0, "'a' + $u + (b + url(c))"⟩ = .ok [pairedSum] ∧
    Adds ["'a'", "$u", "b", "url(c)"] "'a' + $u + (b + url(c))" ∧
    Adds ["'a'", "$u", "b", "url(c)"] "'a'+(($u + b)+url(c))" ∧
    ∃ e, readList ⟨0, "'a'+(($u + b)+url(c))"⟩ = .ok [e] ∧ eval urlScope e = .url "x" := by
  obtain ⟨hurl, -, hgrouped, htexts⟩ := eval_regrouped pairedSum
  have hvalue : eval urlScope pairedSum = .url "x" := by
    refine (hurl urlScope "x").2 ⟨[.str "a"], .word "$u", [.word "b", .url "c"], rfl, ?_, by decide⟩
    exact List.forall_mem_singleton.2 ⟨"a", rfl⟩
  have hatoms : nestedSum.atoms = pairedSum.atoms := rfl
  have hread : readList ⟨0, "'a' + $u + (b + url(c))"⟩ = .ok [pairedSum] := by decide +kernel
  have hblank : Blanks [' '] := by simp [Blanks]; decide
  have ha : Adds ["'a'"] "'a'" :=
    .term (.quoted (by decide) (.plain (by decide) (by decide) .nil)) (by decide)
  have hu : Adds ["$u"] "$u" :=
    .term (.word (by decide) (List.all_eq_true.1 (by decide))) (by decide)
  have hb : Adds ["b"] "b" := .term (.word (by decide) (List.all_eq_true.1 (by decide))) (by decide)
  have hc : Adds ["url(c)"] "url(c)" := by
    have hraw : ∀ c ∈ ['c'].head?, Text.isBlank c = false ∧ isQuote c = false := by
      rintro c ⟨⟩
      decide
    exact .term (@Derives.rawUrl "url(" [] ['c'] (by decide) blanks_nil hraw (by decide))
      (by decide)
  have hpaired : Adds ["'a'", "$u", "b", "url(c)"] "'a' + $u + (b + url(c))" := by
    have hfront := (Adds.pad blanks_nil ha hblank).add (.pad hblank hu hblank)
    have hgroup := ((Adds.pad blanks_nil hb hblank).add (.pad hblank hc blanks_nil)).group
    exact hfront.add (.pad hblank hgroup blanks_nil)
  have hnested : Adds ["'a'", "$u", "b", "url(c)"] "'a'+(($u + b)+url(c))" := by
    have hgroup := ((Adds.pad blanks_nil hu hblank).add (.pad hblank hb blanks_nil)).group
    exact ha.add (hgroup.add hc).group
  obtain ⟨e, he, heval⟩ := (htexts 0 _ hread).2 _ _ hpaired hnested
  exact ⟨hvalue, hatoms, (hgrouped nestedSum hatoms urlScope).trans hvalue, hread, hpaired,
    hnested, e, he, (heval urlScope).trans hvalue⟩

end Sheet

end StyleImports
