import Mathlib.Data.List.Infix
import StyleImports.Proofs.Path.Parts
import StyleImports.Proofs.Sheet.Outline

/-!
# Positions in the source

Blanking comments keeps every line feed, and on every line each character that it keeps stands where
it stood: the others become blanks or are cut off at the end of the line (`alignedWith_stripFrom`).
So the position of an import is that of its keyword in the source (`keyword_in_source`), and no two
imports have the same one (`positions_in_source`).
-/

set_option autoImplicit false

namespace StyleImports

namespace Text

/-- A line of a text is a part of it, perhaps without a carriage return at its end. -/
theorem exists_part_of_line {i : Nat} {parts : List Text} {row : Text}
    (h : (closeLines parts)[i]? = some row) : ∃ part, parts[i]? = some part ∧ row <+: part := by
  induction parts generalizing i with
  | nil => simp [closeLines] at h
  | cons part rest ih =>
    cases rest with
    | nil =>
      rw [closeLines] at h
      split at h
      · cases h
      · exact ⟨row, h, List.prefix_rfl⟩
    | cons next rest =>
      rw [closeLines] at h
      cases i with
      | zero =>
        refine ⟨part, rfl, ?_⟩
        simp only [List.getElem?_cons_zero, Option.some.injEq] at h
        rw [← h]
        split
        · exact List.dropLast_prefix part
        · exact List.prefix_rfl
      | succ i => exact ih h

theorem trim_prefix_drop (row : Text) : trim row <+: row.drop (row.takeWhile isBlank).length := by
  by_cases hblank : row.all isBlank = true
  · rw [trim, trimEnd, dropEndWhile_of_all hblank]
    exact List.nil_prefix
  · obtain ⟨blanks, kept, rest, htrims⟩ := exists_trims hblank
    rw [htrims.takeWhile, htrims.whole, htrims.eq_append, List.drop_left]
    exact htrims.isPrefix

end Text

namespace Sheet

/-! ## Rows -/

/-- A row is shown with its characters in their columns, some of them as blanks and the last ones
perhaps not at all. -/
structure Shows (row shown : Text) : Prop where
  length : shown.length ≤ row.length
  kept : ∀ (i : Nat) (c : Char), shown[i]? = some c → c = ' ' ∨ row[i]? = some c

theorem shows_nil (row : Text) : Shows row [] := ⟨Nat.zero_le _, by simp⟩

theorem Shows.cons {row shown : Text} (h : Shows row shown) {c d : Char} (hd : d = ' ' ∨ c = d) :
    Shows (c :: row) (d :: shown) := by
  refine ⟨Nat.succ_le_succ h.length, fun i e he => ?_⟩
  cases i with
  | zero =>
    cases he
    exact hd.imp id fun hcd => by rw [hcd]; rfl
  | succ i => exact h.kept i e he

/-- The rows of a text are shown by those of another. -/
def AlignedWith (source shown : Text) : Prop :=
  List.Forall₂ Shows (Text.splitOn '\n' source) (Text.splitOn '\n' shown)

namespace AlignedWith

variable {source shown : Text} {c d : Char}

theorem nil : AlignedWith [] [] := .cons (shows_nil []) .nil

theorem lineFeed (h : AlignedWith source shown) :
    AlignedWith ('\n' :: source) ('\n' :: shown) := by
  unfold AlignedWith
  rw [Text.splitOn_cons_self, Text.splitOn_cons_self]
  exact .cons (shows_nil []) h

theorem cons (h : AlignedWith source shown) (hc : c ≠ '\n') (hd : d = ' ' ∨ c = d) :
    AlignedWith (c :: source) (d :: shown) := by
  have hdn : d ≠ '\n' := by
    rcases hd with rfl | rfl
    · decide
    · exact hc
  obtain ⟨row, rows, hrows⟩ := Text.exists_splitOn_cons '\n' source
  obtain ⟨row', rows', hrows'⟩ := Text.exists_splitOn_cons '\n' shown
  unfold AlignedWith at h ⊢
  rw [hrows, hrows'] at h
  rw [Text.splitOn_cons_of_ne hc hrows, Text.splitOn_cons_of_ne hdn hrows']
  cases h with
  | cons hfirst hrest => exact .cons (hfirst.cons hd) hrest

theorem keep (h : AlignedWith source shown) (c : Char) :
    AlignedWith (c :: source) (c :: shown) := by
  by_cases hc : c = '\n'
  · rw [hc]
    exact h.lineFeed
  · exact h.cons hc (.inr rfl)

theorem cut (h : AlignedWith source shown) (hc : c ≠ '\n')
    (hend : shown = [] ∨ ∃ rest, shown = '\n' :: rest) : AlignedWith (c :: source) shown := by
  obtain ⟨rows', hrows'⟩ : ∃ rows', Text.splitOn '\n' shown = [] :: rows' := by
    rcases hend with rfl | ⟨rest, rfl⟩
    · exact ⟨[], rfl⟩
    · exact ⟨_, Text.splitOn_cons_self '\n' rest⟩
  obtain ⟨row, rows, hrows⟩ := Text.exists_splitOn_cons '\n' source
  unfold AlignedWith at h ⊢
  rw [hrows, hrows'] at h
  rw [Text.splitOn_cons_of_ne hc hrows, hrows']
  cases h with
  | cons _ hrest => exact .cons (shows_nil _) hrest

end AlignedWith

/-! ## Comments -/

/-- After `//` nothing is shown up to the end of the line. -/
theorem stripFrom_line (t : Text) :
    stripFrom .line t = [] ∨ ∃ rest, stripFrom .line t = '\n' :: rest := by
  induction t with
  | nil => exact .inl (by simp [stripFrom])
  | cons c t ih =>
    by_cases hc : c = '\n'
    · exact .inr ⟨_, by rw [hc, stripFrom, if_pos rfl]⟩
    · rw [stripFrom, if_neg hc]
      exact ih

/-- Stripping comments keeps the rows of a text aligned, whatever stands before it. -/
theorem alignedWith_stripFrom (state : CommentState) (t : Text) :
    AlignedWith t (stripFrom state t) := by
  fun_induction stripFrom state t with
  | case1 => exact .nil
  | case2 depth rest ih => exact (ih.cons (by decide) (.inl rfl)).cons (by decide) (.inl rfl)
  | case3 rest ih =>
    have hend := stripFrom_line rest
    exact (ih.cut (by decide) hend).cut (by decide) hend
  | case4 depth rest hdepth ih => exact ih.keep '/'
  | case5 depth c rest _ _ _ ih => exact ih.keep c
  | case6 depth rest _ _ _ ih => exact ih.keep '('
  | case7 depth rest _ _ _ _ ih => exact ih.keep ')'
  | case8 depth rest _ _ _ _ _ ih => exact ih.keep '\n'
  | case9 depth c rest _ _ _ _ _ _ ih => exact ih.keep c
  | case10 quote depth rest ih => exact (ih.keep '\n').keep '\\'
  | case11 quote depth c rest _ ih => exact (ih.keep c).keep '\\'
  | case12 quote depth rest _ ih => exact ih.keep '\n'
  | case13 depth c rest _ _ ih => exact ih.keep c
  | case14 quote depth c rest _ _ _ ih => exact ih.keep c
  | case15 star depth c rest shown _ ih =>
    by_cases hc : c = '\n'
    · subst hc
      exact ih.lineFeed
    · simp only [shown, if_neg hc]
      exact ih.cons hc (.inl rfl)
  | case16 star depth c rest shown _ ih =>
    by_cases hc : c = '\n'
    · subst hc
      exact ih.lineFeed
    · simp only [shown, if_neg hc]
      exact ih.cons hc (.inl rfl)
  | case17 rest ih => exact ih.lineFeed
  | case18 c rest hc ih => exact ih.cut hc (stripFrom_line rest)

/-! ## Imports -/

theorem Shows.prefix_drop {row shown word : Text} (h : Shows row shown) {column : Nat}
    (hblank : ' ' ∉ word) (hword : word <+: shown.drop column) : word <+: row.drop column := by
  rw [List.prefix_iff_getElem?] at hword ⊢
  intro i hi
  have hshown := hword i hi
  rw [List.getElem?_drop] at hshown ⊢
  refine (h.kept (column + i) word[i] hshown).resolve_left fun heq => hblank ?_
  rw [← heq]
  exact List.getElem_mem hi

theorem not_mem_keyword (kind : ImportKind) : ' ' ∉ kind.keyword := by
  cases kind <;> decide

theorem AlignedWith.exists_row {source shown : Text} (h : AlignedWith source shown) {i : Nat}
    {part : Text} (hpart : (Text.splitOn '\n' shown)[i]? = some part) :
    ∃ row, (Text.splitOn '\n' source)[i]? = some row ∧ Shows row part := by
  obtain ⟨hlength, hrows⟩ := List.forall₂_iff_get.1 h
  obtain ⟨hi, rfl⟩ := List.getElem?_eq_some_iff.1 hpart
  exact ⟨_, List.getElem?_eq_getElem (hlength ▸ hi), hrows i (hlength ▸ hi) hi⟩

/-- The keyword of an import stands in the source at the position of the import. -/
theorem keyword_in_source {source : Text} {line : Line} (hline : line ∈ linesOf source)
    {kind : ImportKind} (hkeyword : kind.keyword <+: line.content) :
    ∃ number row, line.number = number + 1 ∧ (Text.splitOn '\n' source)[number]? = some row ∧
      kind.keyword <+: row.drop line.indent := by
  rw [linesOf_eq, List.mem_map] at hline
  obtain ⟨⟨text, number⟩, hrow, rfl⟩ := hline
  obtain ⟨hle, htext⟩ := List.mem_zipIdx_iff_le_and_getElem?_sub.1 (List.mem_filter.1 hrow).1
  obtain ⟨part, hpart, hstart⟩ := Text.exists_part_of_line htext
  obtain ⟨row, hsource, hshows⟩ := (alignedWith_stripFrom (.code 0) source).exists_row hpart
  refine ⟨number - 1, row, by simp only; omega, hsource, ?_⟩
  refine hshows.prefix_drop (not_mem_keyword kind) ?_
  exact (hkeyword.trans (Text.trim_prefix_drop text)).trans (hstart.drop _)

/-- The places of the imports in a tree, from top to bottom. -/
def requestsOf (nodes : List Node) : List (ImportKind × Position) :=
  (Node.outline nodes).filterMap Node.request?

variable {source : Text} {nodes : List Node}

theorem exists_line_of_request (h : parse source = .ok nodes) {kind : ImportKind}
    {position : Position} (hrequest : (kind, position) ∈ requestsOf nodes) :
    ∃ line ∈ linesOf source, position = ⟨line.number, line.indent + 1⟩ ∧
      kind.keyword <+: line.content := by
  obtain ⟨node, hnode, hrequest⟩ := List.mem_filterMap.1 hrequest
  obtain ⟨line, hline, hmakes⟩ := exists_of_mem_of_forall₂ (outline_of_lines h) hnode
  obtain ⟨hcolumn, hkeyword⟩ := hmakes.request kind position hrequest
  refine ⟨line, hline, ?_, hkeyword⟩
  cases node <;> cases hrequest
  rw [← hmakes.number, ← hcolumn]
  rfl

theorem requestsOf_ascending (h : parse source = .ok nodes) :
    (requestsOf nodes).Pairwise fun a b => a.2.line < b.2.line := by
  have hnumbers : (Node.outline nodes).map Node.line = (linesOf source).map Line.number := by
    have hmakes := outline_of_lines h
    rw [← List.forall₂_eq_eq_eq, List.forall₂_map_left_iff, List.forall₂_map_right_iff]
    exact hmakes.flip.imp fun node line hmade => hmade.number
  have hlines : (Node.outline nodes).Pairwise fun a b => a.line < b.line := by
    rw [← List.pairwise_map (f := Node.line) (R := (· < ·)), hnumbers, List.pairwise_map]
    exact numberLines_ascending _ _
  refine hlines.filterMap _ fun a b hab x hx y hy => ?_
  cases a <;> cases hx
  cases b <;> cases hy
  exact hab

/-- Blanking comments keeps the line feeds of a source, and each line keeps its characters in their
columns, apart from blanks and what is cut off at its end. The keyword of every import stands at its
position in the source, and no two imports have the same position. -/
theorem positions_in_source (source : Text) :
    (stripComments source).count '\n' = source.count '\n' ∧
      List.Forall₂ Shows (Text.splitOn '\n' source) (Text.splitOn '\n' (stripComments source)) ∧
      ∀ nodes, parse source = .ok nodes →
        (∀ kind position, (kind, position) ∈ requestsOf nodes →
          ∃ line column row, position = ⟨line + 1, column + 1⟩ ∧
            (Text.splitOn '\n' source)[line]? = some row ∧ kind.keyword <+: row.drop column) ∧
        ((requestsOf nodes).map Prod.snd).Nodup := by
  have haligned := alignedWith_stripFrom (.code 0) source
  have hfeeds := haligned.length_eq
  rw [Text.length_splitOn, Text.length_splitOn, Nat.add_right_cancel_iff] at hfeeds
  refine ⟨hfeeds.symm, haligned, fun nodes h => ⟨fun kind position hrequest => ?_, ?_⟩⟩
  · obtain ⟨line, hline, rfl, hkeyword⟩ := exists_line_of_request h hrequest
    obtain ⟨number, row, hnumber, hrow, hstart⟩ := keyword_in_source hline hkeyword
    exact ⟨number, line.indent, row, by rw [hnumber], hrow, hstart⟩
  · refine List.pairwise_map.2 ((requestsOf_ascending h).imp fun {a b} hless hsame => ?_)
    rw [hsame] at hless
    exact Nat.lt_irrefl _ hless

def commentedSource : Text :=
  "/* a\n b */  @import 'c' // d\nx\n  '//' + (/*\n*/ e)\n  @require f\n"

/-- Imports behind a comment of two lines and below a line that ends inside of one. -/
theorem positions_in_source_commented : ∃ nodes,
    parse commentedSource = .ok nodes ∧
    requestsOf nodes = [(.always, ⟨2, 8⟩), (.once, ⟨6, 3⟩)] ∧
    (∀ kind position, (kind, position) ∈ requestsOf nodes →
      ∃ line column row, position = ⟨line + 1, column + 1⟩ ∧
        (Text.splitOn '\n' commentedSource)[line]? = some row ∧
        kind.keyword <+: row.drop column) ∧
    ((requestsOf nodes).map Prod.snd).Nodup := by
  have hplaces : (parse commentedSource).toOption.map requestsOf =
      some [(.always, ⟨2, 8⟩), (.once, ⟨6, 3⟩)] := by decide +kernel
  cases h : parse commentedSource with
  | error e =>
    rw [h] at hplaces
    cases hplaces
  | ok nodes =>
    rw [h] at hplaces
    obtain ⟨hkeywords, hnodup⟩ := (positions_in_source commentedSource).2.2 nodes h
    exact ⟨nodes, rfl, Option.some.inj hplaces, hkeywords, hnodup⟩

end Sheet

end StyleImports
