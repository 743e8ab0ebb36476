import StyleImports.Proofs.Sheet.Alignment
import StyleImports.Proofs.Sheet.Malformed

/-!
# What values are made of

The texts of an expression are made of characters of the text that it is read from
(`leaf_subset_of_derives`), and so are the values of a stylesheet: no import has a value with a line
feed in it (`not_mem_of_request`). A value is also no longer than the text that it is read from
(`length_text_le`); behind an opening quote, or behind `url(` and a quote, it is shorter by the
quotes and parentheses, and if not by more, then nothing of it was written with a backslash
(`costs_of_front`).
-/

set_option autoImplicit false

namespace StyleImports

theorem Text.trim_sublist (t : Text) : (trim t).Sublist t :=
  (List.dropWhile_sublist _).trans (dropEndWhile_isPrefix t).sublist

/-- The texts of an expression, from left to right. -/
def PathExpr.leaves : PathExpr → List Text
  | str s => [s]
  | word name => [name]
  | url inner => [inner]
  | concat left right => left.leaves ++ right.leaves

namespace Sheet

/-- The text of a value, be it a URL or not. -/
def Value.text : Value → Text
  | .str s => s
  | .url u => u

variable {rule : Rule} {t body s : Text} {e : PathExpr} {quote : Char} {scope : Scope}
  {line : Line} {lines : List Line} {nodes : List Node} {source : Text}

/-! ## Characters -/

theorem subset_of_quotes (h : Quotes quote body s) : s ⊆ body := by
  induction h with
  | nil => exact List.Subset.refl _
  | plain _ _ _ ih => exact List.cons_subset_cons _ ih
  | escaped _ ih => exact List.Subset.trans (List.cons_subset_cons _ ih) (List.subset_cons_self ..)

theorem leaf_subset_of_derives (h : Derives rule t e) : ∀ leaf ∈ e.leaves, leaf ⊆ t := by
  induction h with
  | @quoted _ body s _ hquotes =>
    intro leaf hleaf c hc
    obtain rfl := List.mem_singleton.1 hleaf
    simp [subset_of_quotes hquotes hc]
  | group _ _ _ ih =>
    intro leaf hleaf c hc
    simp [ih leaf hleaf hc]
  | quotedUrl _ _ _ hquotes _ =>
    intro leaf hleaf c hc
    obtain rfl := List.mem_singleton.1 hleaf
    simp [subset_of_quotes hquotes hc]
  | rawUrl =>
    intro leaf hleaf c hc
    obtain rfl := List.mem_singleton.1 hleaf
    simp [(Text.trim_sublist _).subset hc]
  | word =>
    intro leaf hleaf
    rw [List.mem_singleton.1 hleaf]
    exact List.Subset.refl _
  | single _ ih => exact ih
  | add _ _ _ _ ihLeft ihRight =>
    intro leaf hleaf c hc
    rcases List.mem_append.1 hleaf with hleaf | hleaf
    · simp [ihLeft leaf hleaf hc]
    · simp [ihRight leaf hleaf hc]

/-- A list of expressions is made of characters of its text. -/
theorem leaf_subset_of_lists {es : List PathExpr} (h : Lists t es) :
    ∀ e ∈ es, ∀ leaf ∈ e.leaves, leaf ⊆ t := by
  induction h with
  | last _ hsum _ =>
    intro e he leaf hleaf c hc
    obtain rfl := List.mem_singleton.1 he
    simp [leaf_subset_of_derives hsum leaf hleaf hc]
  | more _ hsum _ _ ih =>
    intro e he leaf hleaf c hc
    rcases List.mem_cons.1 he with rfl | he
    · simp [leaf_subset_of_derives hsum leaf hleaf hc]
    · simp [ih e he leaf hleaf hc]

/-! ## Line feeds -/

/-- No value that is visible holds a line feed. -/
def Scope.IsOneLine (scope : Scope) : Prop :=
  ∀ frame ∈ scope.inner :: scope.outer, ∀ binding ∈ frame, '\n' ∉ binding.2.text

theorem isOneLine_empty : Scope.empty.IsOneLine := by simp [Scope.IsOneLine, Scope.empty]

theorem Scope.IsOneLine.push (h : scope.IsOneLine) : scope.push.IsOneLine :=
  List.forall_mem_cons.2 ⟨by simp [Scope.push], h⟩

theorem Scope.IsOneLine.define (h : scope.IsOneLine) {value : Value} (hvalue : '\n' ∉ value.text)
    (name : Text) : (scope.define name value).IsOneLine := by
  obtain ⟨hinner, houter⟩ := List.forall_mem_cons.1 h
  exact List.forall_mem_cons.2 ⟨List.forall_mem_cons.2 ⟨hvalue, hinner⟩, houter⟩

theorem Scope.IsOneLine.lookup (h : scope.IsOneLine) {name : Text} {value : Value}
    (hlookup : scope.lookup name = some value) : '\n' ∉ value.text := by
  obtain ⟨frame, hframe, hfind⟩ := List.exists_of_findSome?_eq_some hlookup
  obtain ⟨binding, hbinding, rfl⟩ := Option.map_eq_some_iff.1 hfind
  exact h frame hframe binding (List.mem_of_find?_eq_some hbinding)

theorem not_mem_eval (hscope : scope.IsOneLine) (h : ∀ leaf ∈ e.leaves, '\n' ∉ leaf) :
    '\n' ∉ (eval scope e).text := by
  induction e with
  | str s => exact h s (by simp [PathExpr.leaves])
  | url inner => exact h inner (by simp [PathExpr.leaves])
  | word name =>
    rw [eval]
    cases hlookup : scope.lookup name with
    | none => exact h name (by simp [PathExpr.leaves])
    | some value => exact hscope.lookup hlookup
  | concat left right ihLeft ihRight =>
    obtain ⟨hleft, hright⟩ := List.forall_mem_append.1 h
    have hl := ihLeft hleft
    have hr := ihRight hright
    rw [eval]
    cases hvl : eval scope left <;> cases hvr : eval scope right <;>
      simp_all [Value.add, Value.text]

theorem not_mem_of_mem_lines {row : Text} (h : row ∈ Text.lines source) : '\n' ∉ row := by
  obtain ⟨i, hi⟩ := List.mem_iff_getElem?.1 h
  obtain ⟨part, hpart, hstarts⟩ := Text.exists_part_of_line hi
  exact fun hmem => Text.not_mem_of_mem_splitOn (List.mem_of_getElem? hpart) (hstarts.subset hmem)

theorem not_mem_content (h : line ∈ linesOf source) : '\n' ∉ line.content := by
  rw [linesOf_eq] at h
  obtain ⟨row, hrow, rfl⟩ := List.mem_map.1 h
  have hrow := List.fst_mem_of_mem_zipIdx (List.mem_filter.1 hrow).1
  exact fun hmem => not_mem_of_mem_lines hrow ((Text.trim_sublist _).subset hmem)

theorem leaf_subset_of_readImport {kind : ImportKind} {paths : List PathExpr}
    {position : Position} {indent : Nat} (hkind : importKind? line.content = some kind)
    (h : readImport line kind = .ok (.request kind paths position indent)) :
    ∀ e ∈ paths, ∀ leaf ∈ e.leaves, leaf ⊆ line.content := by
  obtain ⟨rest, hcontent, -⟩ := exists_rest_of_importKind? hkind
  have hread := importRead_readImport hcontent
  rw [h] at hread
  cases hread with
  | ok hpaths =>
    intro e he leaf hleaf c hc
    have hrest := leaf_subset_of_lists hpaths e he leaf hleaf hc
    rw [hcontent]
    exact List.mem_append_right _ ((Text.dropEndWhile_isPrefix rest).subset hrest)

theorem leaf_subset_of_readWhole {c : Cursor} (h : readWhole c = .ok e) :
    ∀ leaf ∈ e.leaves, leaf ⊆ c.rest := by
  obtain ⟨before, -, hskip⟩ := takes_skipBlanks c
  have hsum := (outcomes (2 * c.rest.length + 2)).sum c.skipBlanks
  rw [readWhole, readExpr] at h
  generalize readSum (2 * c.rest.length + 2) c.skipBlanks = read at h hsum
  cases hsum with
  | error => cases h
  | ok hpadded htakes =>
    obtain ⟨t, blanks, rfl, hderives, -⟩ := hpadded
    dsimp only at h
    split at h
    · cases h
      intro leaf hleaf c hc
      rw [(hskip.trans htakes).rest]
      simp [leaf_subset_of_derives hderives leaf hleaf hc]
    · cases h

theorem leaf_subset_of_leafOf {name text : Text} {value : PathExpr} {number indent : Nat}
    (h : leafOf line = .assignment name value text number indent) :
    ∀ leaf ∈ value.leaves, leaf ⊆ line.content := by
  rw [leafOf] at h
  split at h
  · cases h
  · split at h
    · cases h
    · dsimp only at h
      split at h
      · rename_i hwhole
        cases h
        intro leaf hleaf c hc
        exact (Text.dropEndWhile_isPrefix _).subset
          (List.mem_of_mem_drop (leaf_subset_of_readWhole hwhole leaf hleaf hc))
      · cases h

theorem not_mem_leaf (hline : '\n' ∉ line.content) (h : ∀ leaf ∈ e.leaves, leaf ⊆ line.content) :
    ∀ leaf ∈ e.leaves, '\n' ∉ leaf :=
  fun leaf hleaf hmem => hline (h leaf hleaf hmem)

theorem isOneLine_after_leafOf (hscope : scope.IsOneLine) (hline : '\n' ∉ line.content) :
    (scope.after (leafOf line)).IsOneLine := by
  rcases leafOf_cases line with h | ⟨name, value, h⟩
  · rw [h]
    exact hscope
  · rw [h]
    exact hscope.define (not_mem_eval hscope (not_mem_leaf hline (leaf_subset_of_leafOf h))) name

/-- The values of imports on lines without line feeds hold no line feed. -/
theorem not_mem_of_builds (h : Builds lines nodes) (hlines : ∀ line ∈ lines, '\n' ∉ line.content)
    (hscope : scope.IsOneLine) {kind : ImportKind} {position : Position} {indent : Nat}
    {value : Value}
    (hstep : Step.request kind position indent (some value) ∈ stepsOf scope nodes) :
    '\n' ∉ value.text := by
  induction h generalizing scope with
  | nil => cases hstep
  | request hkind hread _ ih =>
    obtain ⟨hline, hrest⟩ := List.forall_mem_cons.1 hlines
    rw [stepsOf, List.mem_append] at hstep
    rcases hstep with hstep | hstep
    · simp only [stepsOfNode, List.mem_singleton, Step.request.injEq] at hstep
      obtain ⟨-, -, -, hvalue⟩ := hstep
      obtain ⟨e, he, rfl⟩ := Option.map_eq_some_iff.1 hvalue.symm
      have hleaves := leaf_subset_of_readImport hkind hread e (List.mem_of_mem_head? he)
      exact not_mem_eval hscope (not_mem_leaf hline hleaves)
    · exact ih hrest hscope hstep
  | block _ _ _ _ ihInner ih =>
    obtain ⟨-, hrest⟩ := List.forall_mem_cons.1 hlines
    rw [stepsOf, stepsOfNode, List.cons_append, List.mem_cons, List.mem_append] at hstep
    rcases hstep with hstep | hstep | hstep
    · cases hstep
    · exact ihInner (fun line hline => hrest line ((List.takeWhile_sublist _).mem hline))
        hscope.push hstep
    · exact ih (fun line hline => hrest line ((List.dropWhile_sublist _).mem hline)) hscope hstep
  | leaf _ _ _ ih =>
    obtain ⟨hline, hrest⟩ := List.forall_mem_cons.1 hlines
    rw [stepsOf, stepsOfNode_leafOf, List.mem_append] at hstep
    rcases hstep with hstep | hstep
    · simp [Line.step] at hstep
    · exact ih hrest (isOneLine_after_leafOf hscope hline) hstep

theorem not_mem_of_request (h : parse source = .ok nodes) {kind : ImportKind}
    {position : Position} {indent : Nat} {value : Value}
    (hstep : Step.request kind position indent (some value) ∈ stepsOf .empty nodes) :
    '\n' ∉ value.text :=
  not_mem_of_builds (builds_of_nodesOf h) (fun _ => not_mem_content) isOneLine_empty hstep

/-! ## Lengths -/

theorem length_add_le (a b : Value) : (a.add b).text.length ≤ a.text.length + b.text.length := by
  cases a <;> cases b <;> simp [Value.add, Value.text]

theorem eval_empty_word (name : Text) : eval .empty (.word name) = .str name := rfl

/-- Quotes are around a text that is as long as they are apart, if nothing in it is written with a
backslash. -/
theorem length_of_quotes (h : Quotes quote body s) :
    s.length ≤ body.length ∧ (body.length ≤ s.length → quote ∉ s ∧ '\\' ∉ s) := by
  induction h with
  | nil => simp
  | plain hquote hback _ ih =>
    simpa [Ne.symm hquote, Ne.symm hback] using ih
  | escaped _ ih =>
    simp only [List.length_cons]
    omega

/-- A value is no longer than the text of its expression. -/
theorem length_text_le (h : Derives rule t e) : (eval .empty e).text.length ≤ t.length := by
  induction h with
  | quoted _ hquotes =>
    have hlength := (length_of_quotes hquotes).1
    simp only [eval, Value.text, List.length_cons, List.length_append]
    omega
  | group _ _ _ ih =>
    simp only [List.length_cons, List.length_append]
    omega
  | quotedUrl _ _ _ hquotes _ =>
    have hlength := (length_of_quotes hquotes).1
    simp only [eval, Value.text, List.length_cons, List.length_append]
    omega
  | @rawUrl _ _ raw =>
    have hlength := (Text.trim_sublist raw).length_le
    simp only [eval, Value.text, List.length_cons, List.length_append]
    omega
  | word => simp [eval_empty_word, Value.text]
  | single _ ih => exact ih
  | @add _ _ _ _ left right _ _ _ _ ihLeft ihRight =>
    have hadd := length_add_le (eval .empty left) (eval .empty right)
    simp only [eval, List.length_cons, List.length_append]
    omega

/-- A text that can stand in quotes as it is. -/
def IsPlain (s : Text) : Prop := '\x22' ∉ s ∧ '\\' ∉ s

instance (s : Text) : Decidable (IsPlain s) := inferInstanceAs (Decidable (_ ∧ _))

/-- The value of an expression is shorter than its text by so many characters or more; if not by
more, then it is plain. -/
structure Costs (t : Text) (e : PathExpr) (n : Nat) : Prop where
  le : (eval .empty e).text.length + n ≤ t.length
  plain : t.length ≤ (eval .empty e).text.length + n → IsPlain (eval .empty e).text

theorem prefix_of_front {front t u v : Text} (h : t ++ u = front ++ v)
    (hu : ∀ c ∈ u.head?, c ∉ front) : front <+: t := by
  rcases List.append_eq_append_iff.1 h with ⟨more, rfl, rfl⟩ | ⟨more, rfl, -⟩
  · cases more with
    | nil => simp
    | cons c more => exact absurd (by simp) (hu c rfl)
  · exact List.prefix_append _ _

theorem not_mem_of_head?_blanks {front blanks rest : Text}
    (hfront : ∀ c ∈ front, Text.isBlank c = false) (hblanks : Blanks blanks)
    (hrest : ∀ c ∈ rest.head?, c ∉ front) : ∀ c ∈ (blanks ++ rest).head?, c ∉ front := by
  intro c hc hmem
  cases blanks with
  | nil => exact hrest c hc hmem
  | cons blank blanks =>
    obtain rfl : blank = c := by simpa using hc
    have hblank := hblanks blank List.mem_cons_self
    rw [hfront blank hmem] at hblank
    cases hblank

theorem exists_of_quote {rest : Text} (h : Derives .term ('\x22' :: rest) e) :
    ∃ body s, rest = body ++ ['\x22'] ∧ Quotes '\x22' body s ∧ e = .str s := by
  generalize ht : '\x22' :: rest = t at h
  cases h with
  | @quoted quote body s hquote hquotes =>
    obtain ⟨rfl, rfl⟩ := List.cons.inj ht
    exact ⟨body, s, rfl, hquotes, rfl⟩
  | group => simp at ht
  | quotedUrl hword | rawUrl hword =>
    obtain ⟨a, _, _, rfl, ha, -⟩ := exists_letters_of_lowerAscii hword
    obtain ⟨rfl, -⟩ := List.cons.inj ht
    cases ha
  | word _ hparts =>
    exact absurd (hparts '\x22' (ht ▸ List.mem_cons_self)) (by decide)

theorem exists_of_url {rest : Text}
    (h : Derives .term ('u' :: 'r' :: 'l' :: '(' :: '\x22' :: rest) e) :
    ∃ body s after, rest = body ++ '\x22' :: (after ++ [')']) ∧ Quotes '\x22' body s ∧
      e = .url s := by
  generalize ht : 'u' :: 'r' :: 'l' :: '(' :: '\x22' :: rest = t at h
  cases h with
  | quoted hquote =>
    obtain ⟨rfl, -⟩ := List.cons.inj ht
    cases hquote
  | group => simp at ht
  | @quotedUrl _ before body s after quote hword hbefore hquote hquotes _ =>
    obtain ⟨a, b, d, rfl, -⟩ := exists_letters_of_lowerAscii hword
    simp only [List.cons_append, List.nil_append, List.cons.injEq] at ht
    obtain ⟨-, -, -, -, ht⟩ := ht
    cases before with
    | nil =>
      simp only [List.nil_append, List.append_assoc, List.cons_append, List.cons.injEq] at ht
      obtain ⟨rfl, rfl⟩ := ht
      exact ⟨body, s, after, rfl, hquotes, rfl⟩
    | cons first before =>
      obtain ⟨rfl, -⟩ := List.cons.inj ht
      have hblank := hbefore '\x22' List.mem_cons_self
      cases hblank
  | @rawUrl _ before raw hword hbefore hraw _ =>
    obtain ⟨a, b, d, rfl, -⟩ := exists_letters_of_lowerAscii hword
    simp only [List.cons_append, List.nil_append, List.cons.injEq] at ht
    obtain ⟨-, -, -, -, ht⟩ := ht
    cases before with
    | nil =>
      cases raw with
      | nil => simp at ht
      | cons first raw =>
        obtain ⟨rfl, -⟩ := List.cons.inj ht
        cases (hraw '\x22' rfl).2
    | cons first before =>
      obtain ⟨rfl, -⟩ := List.cons.inj ht
      have hblank := hbefore '\x22' List.mem_cons_self
      cases hblank
  | word _ hparts =>
    exact absurd (hparts '(' (by simp [← ht])) (by decide)

/-- What a text with an opening in front costs more than its value, a text costs that starts with a
term that has this opening. -/
theorem costs_of_front {front : Text} {n : Nat}
    (hfront : front.all (fun c => !Text.isBlank c && c ≠ '+') = true)
    (hterm : ∀ {t e}, Derives .term t e → front <+: t → Costs t e n)
    (h : Derives .sum t e) (hstarts : front <+: t) : Costs t e n := by
  generalize hrule : Rule.sum = rule at h
  induction h with
  | quoted | group | quotedUrl | rawUrl | word => cases hrule
  | single h _ => exact hterm h hstarts
  | @add t before after u left right _ hbefore _ hright ihLeft _ =>
    obtain ⟨more, hmore⟩ := hstarts
    have hleft : front <+: t := by
      have hchars : ∀ c ∈ front, Text.isBlank c = false ∧ c ≠ '+' := fun c hc => by
        simpa using List.all_eq_true.1 hfront c hc
      refine prefix_of_front hmore.symm
        (not_mem_of_head?_blanks (fun c hc => (hchars c hc).1) hbefore ?_)
      intro c hc hmem
      obtain rfl : '+' = c := by simpa using hc
      exact (hchars '+' hmem).2 rfl
    have hcosts := (ihLeft hleft rfl).le
    have hadd := length_add_le (eval .empty left) (eval .empty right)
    have hlength := length_text_le hright
    have hshort : (eval .empty (.concat left right)).text.length + n <
        (t ++ (before ++ '+' :: (after ++ u))).length := by
      simp only [eval, List.length_cons, List.length_append]
      omega
    exact ⟨hshort.le, fun hle => absurd hle (by omega)⟩

theorem costs_of_quote (h : Derives .sum t e) (hfront : ['\x22'] <+: t) : Costs t e 2 := by
  refine costs_of_front (by decide) ?_ h hfront
  rintro _ e hterm ⟨rest, rfl⟩
  obtain ⟨body, s, rfl, hquotes, rfl⟩ := exists_of_quote hterm
  obtain ⟨hlength, hplain⟩ := length_of_quotes hquotes
  refine ⟨?_, fun hle => hplain ?_⟩
  · simp only [eval, Value.text, List.length_append, List.length_cons, List.length_nil]
    omega
  · simp only [eval, Value.text, List.length_append, List.length_cons, List.length_nil] at hle
    omega

theorem costs_of_url (h : Derives .sum t e) (hfront : ['u', 'r', 'l', '(', '\x22'] <+: t) :
    Costs t e 7 := by
  refine costs_of_front (by decide) ?_ h hfront
  rintro _ e hterm ⟨rest, rfl⟩
  obtain ⟨body, s, after, rfl, hquotes, rfl⟩ := exists_of_url hterm
  obtain ⟨hlength, hplain⟩ := length_of_quotes hquotes
  refine ⟨?_, fun hle => hplain ?_⟩
  · simp only [eval, Value.text, List.length_append, List.length_cons, List.length_nil]
    omega
  · simp only [eval, Value.text, List.length_append, List.length_cons, List.length_nil] at hle
    omega

end Sheet

end StyleImports
