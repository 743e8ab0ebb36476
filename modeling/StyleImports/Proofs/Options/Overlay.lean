import Mathlib.Data.List.Nodup
import StyleImports.Options.Layers

/-!
# Values laid over each other

What a value laid over another one holds is told by the paths into both: along a path of names it
holds what the upper one holds there, or else what the lower one holds (`at?_overlay`), unless the
upper one has something else than an object on the way. An upper object is looked through by its
first member of a name and a lower one by its last, so this is about objects that name each member
once (`IsDistinct`), which the layers of options are.
-/

set_option autoImplicit false

namespace StyleImports

namespace Json

/-- What a value holds along a path of names. -/
def at? : List Text → Json → Option Json
  | [], value => some value
  | name :: path, value => (value.member? name).bind (at? path)

/-- Every object in a value that a path leads to names each of its members once. -/
def IsDistinct (value : Json) : Prop :=
  ∀ path members, value.at? path = some (.obj members) → (members.map fun m => m.1).Nodup

/-- No object. -/
def IsLeaf (value : Json) : Prop := ∀ members, value ≠ .obj members

/-- A path leads through objects to a leaf, or there is nothing at its end. -/
def LeadsToLeaf : List Text → Json → Prop
  | [], value => value.IsLeaf
  | name :: path, value =>
    ¬ value.IsLeaf ∧ ∀ inner, value.member? name = some inner → LeadsToLeaf path inner

variable {name : Text} {value : Json} {members : List (JsonString × Json)} {path : List Text}

theorem at?_singleton (name : Text) (value : Json) : value.at? [name] = value.member? name := by
  rw [at?]
  cases value.member? name <;> rfl

theorem member?_nil (name : Text) : (obj []).member? name = none := rfl

theorem member?_cons (key : JsonString) (value : Json) (rest : List (JsonString × Json)) :
    (obj ((key, value) :: rest)).member? name =
      ((obj rest).member? name).or (if key = some name then some value else none) := by
  rw [member?, member?, List.reverse_cons, List.find?_append, Option.map_or]
  congr 1
  by_cases h : key = some name <;> simp [h]

theorem member?_append (members rest : List (JsonString × Json)) :
    (obj (members ++ rest)).member? name =
      ((obj rest).member? name).or ((obj members).member? name) := by
  rw [member?, member?, member?, List.reverse_append, List.find?_append, Option.map_or]

theorem mem_of_member? (h : (obj members).member? name = some value) :
    (some name, value) ∈ members := by
  obtain ⟨⟨key, _⟩, hfind, rfl⟩ := Option.map_eq_some_iff.1 h
  have hkey : key = some name := by simpa using List.find?_some hfind
  rw [← hkey]
  exact List.mem_reverse.1 (List.mem_of_find?_eq_some hfind)

theorem isSome_member? (members : List (JsonString × Json)) (name : Text) :
    ((obj members).member? name).isSome = members.any fun m => m.1 = some name := by
  rw [member?, Option.isSome_map, Bool.eq_iff_iff]
  simp

theorem IsLeaf.member? (h : value.IsLeaf) (name : Text) : value.member? name = none := by
  cases value with
  | obj members => exact absurd rfl (h members)
  | _ => rfl

theorem exists_of_not_isLeaf (h : ¬ value.IsLeaf) : ∃ members, value = .obj members := by
  cases value with
  | obj members => exact ⟨members, rfl⟩
  | _ => exact absurd (fun members hvalue => nomatch hvalue) h

theorem LeadsToLeaf.isLeaf (h : LeadsToLeaf path value) {inner : Json}
    (hinner : value.at? path = some inner) : inner.IsLeaf := by
  induction path generalizing value with
  | nil =>
    cases hinner
    exact h
  | cons name path ih =>
    obtain ⟨member, hmember, hinner⟩ := Option.bind_eq_some_iff.1 hinner
    exact ih (h.2 member hmember) hinner

theorem IsLeaf.isDistinct (h : value.IsLeaf) : value.IsDistinct := by
  intro path members hpath
  cases path with
  | nil => exact absurd (Option.some.inj hpath) (h members)
  | cons name path =>
    rw [at?, h.member? name] at hpath
    cases hpath

theorem IsDistinct.nodup (h : (obj members).IsDistinct) : (members.map fun m => m.1).Nodup :=
  h [] members rfl

theorem IsDistinct.member (h : value.IsDistinct) {inner : Json}
    (hinner : value.member? name = some inner) : inner.IsDistinct :=
  fun path members hpath => h (name :: path) members (by rw [at?, hinner]; exact hpath)

/-- Among members of different names the first one of a name is the last one. -/
theorem find?_eq_member? (h : (members.map fun m => m.1).Nodup) :
    (members.find? fun member => member.1 = some name).map (fun m => m.2) =
      (obj members).member? name := by
  induction members with
  | nil => rfl
  | cons first rest ih =>
    obtain ⟨key, value⟩ := first
    rw [List.map_cons, List.nodup_cons] at h
    rw [member?_cons, ← ih h.2]
    by_cases hkey : key = some name
    · have hnone : rest.find? (fun member => member.1 = some name) = none := by
        rw [List.find?_eq_none]
        intro m hm hname
        exact h.1 (List.mem_map.2 ⟨m, hm, by simpa [hkey] using hname⟩)
      simp [hkey, hnone]
    · simp [hkey]

/-! ## Members named once -/

theorem nodup_entries (value : Json) : (value.entries.map fun e => e.1).Nodup := by
  cases value with
  | obj members =>
    unfold entries
    refine List.foldlRecOn (motive := fun entries : List (Text × Json) =>
      (entries.map fun e => e.1).Nodup) _ _ ?_ ?_
    · exact List.nodup_nil
    · intro entries h entry _
      split
      · -- Replacing the value of a member changes no name.
        have hnames : (entries.map fun old => if old.1 = entry.1 then entry else old).map
            (fun e => e.1) = entries.map fun e => e.1 := by
          rw [List.map_map]
          refine List.map_congr_left fun old _ => ?_
          by_cases hold : old.1 = entry.1 <;> simp [hold]
        rw [hnames]
        exact h
      case isFalse hany =>
        rw [List.map_append, List.nodup_append]
        refine ⟨h, List.nodup_singleton _, fun name hname other hother heq => hany ?_⟩
        obtain ⟨old, hold, rfl⟩ := List.mem_map.1 hname
        rw [List.map_singleton, List.mem_singleton] at hother
        exact List.any_eq_true.2 ⟨old, hold, decide_eq_true (heq.trans hother)⟩
  | _ => exact List.nodup_nil

theorem mem_of_mem_entries {entry : Text × Json} (h : entry ∈ (obj members).entries) :
    (some entry.1, entry.2) ∈ members := by
  have hnamed : entry ∈ members.filterMap fun m => m.1.map fun name => (name, m.2) := by
    revert h
    unfold entries
    refine List.foldlRecOn (motive := fun entries => entry ∈ entries → _) _ _ ?_ ?_
    · intro h
      cases h
    · intro entries ih new hnew h
      split at h
      · obtain ⟨old, hold, heq⟩ := List.mem_map.1 h
        split at heq
        · exact heq ▸ hnew
        · exact ih (heq ▸ hold)
      · rcases List.mem_append.1 h with h | h
        · exact ih h
        · exact List.mem_singleton.1 h ▸ hnew
  obtain ⟨⟨key, value⟩, hm, heq⟩ := List.mem_filterMap.1 hnamed
  obtain ⟨name, rfl, rfl⟩ := Option.map_eq_some_iff.1 heq
  exact hm

theorem mem_distinctMembers {key : JsonString} (h : (key, value) ∈ distinctMembers members) :
    ∃ inner, value = distinct inner := by
  induction members with
  | nil => cases h
  | cons first rest ih =>
    rw [distinctMembers, List.mem_cons] at h
    rcases h with heq | h
    · cases heq
      exact ⟨_, rfl⟩
    · exact ih h

theorem isDistinct_distinct (value : Json) : (distinct value).IsDistinct := by
  intro path members hpath
  induction path generalizing value with
  | nil =>
    cases value with
    | obj m =>
      rw [distinct] at hpath
      cases hpath
      rw [List.map_map]
      have hnames := (nodup_entries (.obj (distinctMembers m))).map fun _ _ heq =>
        Option.some.inj heq
      rwa [List.map_map] at hnames
    | _ => cases hpath
  | cons name path ih =>
    cases value with
    | obj m =>
      rw [distinct, at?] at hpath
      obtain ⟨inner, hinner, hpath⟩ := Option.bind_eq_some_iff.1 hpath
      obtain ⟨entry, hentry, heq⟩ := List.mem_map.1 (mem_of_member? hinner)
      cases heq
      obtain ⟨value, hvalue⟩ := mem_distinctMembers (mem_of_mem_entries hentry)
      exact ih value (hvalue ▸ hpath)
    | _ => cases hpath

theorem member?_ofMembers_cons (name : Text) (value : Json) (rest : List (Text × Json))
    (other : Text) : (ofMembers ((name, value) :: rest)).member? other =
      ((ofMembers rest).member? other).or (if name = other then some value else none) := by
  rw [ofMembers, List.map_cons, member?_cons]
  simp [ofMembers]

theorem member?_singleton (name other : Text) (value : Json) :
    (ofMembers [(name, value)]).member? other = if name = other then some value else none :=
  member?_ofMembers_cons name value [] other

theorem isDistinct_ofMembers {members : List (Text × Json)}
    (hnames : (members.map fun m => m.1).Nodup)
    (h : ∀ name value, (ofMembers members).member? name = some value → value.IsDistinct) :
    (ofMembers members).IsDistinct := by
  intro path inner hpath
  cases path with
  | nil =>
    cases hpath
    rw [List.map_map]
    have hsome := hnames.map fun _ _ heq => Option.some.inj heq
    rwa [List.map_map] at hsome
  | cons name path =>
    obtain ⟨value, hvalue, hpath⟩ := Option.bind_eq_some_iff.1 hpath
    exact h name value hvalue path inner hpath

theorem isDistinct_singleton (h : value.IsDistinct) (name : Text) :
    (ofMembers [(name, value)]).IsDistinct := by
  refine isDistinct_ofMembers (List.nodup_singleton name) fun other inner hinner => ?_
  rw [member?_singleton] at hinner
  split at hinner
  · cases hinner
    exact h
  · cases hinner

end Json

namespace Options

open Json

/-! ## Members -/

variable {name : Text} {append : Bool} {value lower upper : Json}
  {members lowers uppers : List (JsonString × Json)} {path : List Text}

theorem member?_overlayMembers (h : (uppers.map fun m => m.1).Nodup) :
    (obj (overlayMembers append lowers uppers)).member? name =
      ((obj lowers).member? name).map fun value =>
        (((obj uppers).member? name).map (overlay append value)).getD value := by
  induction lowers with
  | nil => rfl
  | cons first rest ih =>
    obtain ⟨key, value⟩ := first
    rw [overlayMembers, member?_cons, member?_cons, ih, Option.map_or]
    congr 1
    by_cases hkey : key = some name
    · subst hkey
      rw [if_pos rfl, if_pos rfl, ← find?_eq_member? h]
      cases uppers.find? fun member => member.1 = some name <;> rfl
    · rw [if_neg hkey, if_neg hkey]
      rfl

theorem member?_filter (lowers uppers : List (JsonString × Json)) (name : Text) :
    (obj (uppers.filter fun m => !lowers.any fun under => under.1 = m.1)).member? name =
      if ((obj lowers).member? name).isSome then none else (obj uppers).member? name := by
  rw [isSome_member?, member?, member?, ← List.filter_reverse, List.find?_filter]
  have hname : (fun m : JsonString × Json => decide
      ((!lowers.any fun under => under.1 = m.1) = true ∧ decide (m.1 = some name) = true)) =
      fun m => (!lowers.any fun under => under.1 = some name) && decide (m.1 = some name) := by
    funext m
    by_cases h : m.1 = some name <;> simp [h]
  rw [hname]
  cases lowers.any fun under => under.1 = some name <;> simp

/-- A member of an object laid over another one is the upper one's laid over the lower one's. -/
theorem member?_overlay (h : (uppers.map fun m => m.1).Nodup) :
    (overlay append (.obj lowers) (.obj uppers)).member? name =
      Option.merge (overlay append) ((obj lowers).member? name) ((obj uppers).member? name) := by
  rw [overlay, member?_append, member?_overlayMembers h, member?_filter]
  cases (obj lowers).member? name <;> cases (obj uppers).member? name <;> simp

/-! ## Objects that name each member once -/

theorem map_overlayMembers (append : Bool) (lowers uppers : List (JsonString × Json)) :
    (overlayMembers append lowers uppers).map (fun m => m.1) = lowers.map fun m => m.1 := by
  induction lowers with
  | nil => rfl
  | cons first rest ih =>
    rw [overlayMembers, List.map_cons, List.map_cons, ih]

theorem nodup_overlay (hlower : (lowers.map fun m => m.1).Nodup)
    (hupper : (uppers.map fun m => m.1).Nodup)
    (h : overlay append (.obj lowers) (.obj uppers) = .obj members) :
    (members.map fun m => m.1).Nodup := by
  rw [overlay] at h
  cases h
  rw [List.map_append, map_overlayMembers]
  refine List.nodup_append.2 ⟨hlower, (List.filter_sublist.map _).nodup hupper, ?_⟩
  intro key hkey other hother
  obtain ⟨m, hm, rfl⟩ := List.mem_map.1 hkey
  obtain ⟨m', hm', rfl⟩ := List.mem_map.1 hother
  rintro heq
  have hlacks := (List.mem_filter.1 hm').2
  simp only [Bool.not_eq_true', List.any_eq_false, decide_eq_true_eq] at hlacks
  exact hlacks m hm heq

/-- Unless both are objects, a value laid over another one stands for it or is added as a list. -/
theorem overlay_cases (append : Bool) (lower upper : Json) :
    (∃ lowers uppers, lower = .obj lowers ∧ upper = .obj uppers) ∨
      overlay append lower upper = upper ∨
      ∃ items more, lower = .arr items ∧ upper = .arr more ∧
        overlay append lower upper = .arr (if append then items ++ more else more) := by
  cases lower <;> cases upper <;> simp [overlay]

theorem isDistinct_overlay (hlower : lower.IsDistinct) (hupper : upper.IsDistinct) :
    (overlay append lower upper).IsDistinct := by
  intro path members hpath
  induction path generalizing lower upper with
  | nil =>
    rcases overlay_cases append lower upper with ⟨l, u, rfl, rfl⟩ | heq | ⟨_, _, _, _, heq⟩
    · exact nodup_overlay hlower.nodup hupper.nodup (Option.some.inj hpath)
    · rw [heq] at hpath
      exact hupper [] members hpath
    · rw [heq] at hpath
      cases hpath
  | cons name path ih =>
    rcases overlay_cases append lower upper with ⟨l, u, rfl, rfl⟩ | heq | ⟨_, _, _, _, heq⟩
    · rw [at?, member?_overlay hupper.nodup] at hpath
      cases hl : (obj l).member? name with
      | none =>
        rw [hl, Option.merge_none_left] at hpath
        exact hupper (name :: path) members hpath
      | some x =>
        cases hu : (obj u).member? name with
        | none =>
          rw [hu, Option.merge_none_right, ← at?] at hpath
          exact hlower (name :: path) members hpath
        | some y =>
          rw [hl, hu] at hpath
          exact ih (hlower.member hl) (hupper.member hu) hpath
    · rw [heq] at hpath
      exact hupper (name :: path) members hpath
    · rw [heq] at hpath
      cases hpath

/-! ## Paths -/

theorem overlay_of_upper_isLeaf (h : upper.IsLeaf) : overlay false lower upper = upper := by
  rcases overlay_cases false lower upper with ⟨l, u, rfl, rfl⟩ | heq | ⟨_, _, _, rfl, heq⟩
  · exact absurd rfl (h u)
  · exact heq
  · exact heq

theorem overlay_of_lower_isLeaf (h : lower.IsLeaf) : overlay false lower upper = upper := by
  rcases overlay_cases false lower upper with ⟨l, u, rfl, rfl⟩ | heq | ⟨_, _, _, rfl, heq⟩
  · exact absurd rfl (h l)
  · exact heq
  · exact heq

/-- A leaf comes from what is laid over. -/
theorem isLeaf_of_overlay (h : (overlay false lower upper).IsLeaf) : upper.IsLeaf := by
  rcases overlay_cases false lower upper with ⟨l, u, rfl, rfl⟩ | heq | ⟨_, _, _, rfl, heq⟩
  · rw [overlay] at h
    exact absurd rfl (h _)
  · rwa [heq] at h
  · rwa [heq] at h

/-- On its way to a leaf, a value laid over another one holds what the upper one holds, or else what
the lower one holds. -/
theorem at?_overlay (hlower : lower.IsDistinct) (hupper : upper.IsDistinct)
    (h : LeadsToLeaf path (overlay false lower upper)) :
    (overlay false lower upper).at? path = (upper.at? path).or (lower.at? path) := by
  induction path generalizing lower upper with
  | nil =>
    rw [overlay_of_upper_isLeaf (isLeaf_of_overlay h)]
    rfl
  | cons name path ih =>
    by_cases hl : lower.IsLeaf
    · rw [overlay_of_lower_isLeaf hl, at?, at?, hl.member? name]
      simp
    by_cases hu : upper.IsLeaf
    · rw [overlay_of_upper_isLeaf hu] at h
      exact absurd hu h.1
    obtain ⟨lowers, rfl⟩ := exists_of_not_isLeaf hl
    obtain ⟨uppers, rfl⟩ := exists_of_not_isLeaf hu
    have hinner := h.2
    rw [at?, at?, at?]
    rw [member?_overlay hupper.nodup] at hinner ⊢
    cases hx : (obj lowers).member? name with
    | none => simp
    | some x =>
      cases hy : (obj uppers).member? name with
      | none => simp
      | some y =>
        rw [hx, hy] at hinner
        exact ih (hlower.member hx) (hupper.member hy) (hinner _ rfl)

/-- Where a value has leaves, what another one laid over it lacks or hides is as in the value. -/
theorem or_at?_overlay (hupper : upper.IsDistinct)
    (h : ∀ value, lower.at? path = some value → value.IsLeaf) :
    ((overlay false lower upper).at? path).or (lower.at? path) =
      (upper.at? path).or (lower.at? path) := by
  induction path generalizing lower upper with
  | nil =>
    rw [overlay_of_lower_isLeaf (h lower rfl)]
  | cons name path ih =>
    by_cases hl : lower.IsLeaf
    · rw [overlay_of_lower_isLeaf hl]
    by_cases hu : upper.IsLeaf
    · rw [overlay_of_upper_isLeaf hu]
    obtain ⟨lowers, rfl⟩ := exists_of_not_isLeaf hl
    obtain ⟨uppers, rfl⟩ := exists_of_not_isLeaf hu
    rw [at?] at h
    rw [at?, at?, at?, member?_overlay hupper.nodup]
    cases hx : (obj lowers).member? name with
    | none => simp
    | some x =>
      cases hy : (obj uppers).member? name with
      | none => simp
      | some y =>
        rw [hx] at h
        exact ih (hupper.member hy) h

end Options

end StyleImports
