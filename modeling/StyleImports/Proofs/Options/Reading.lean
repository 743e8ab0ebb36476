import Mathlib.Data.List.Induction
import StyleImports.Proofs.Options.Overlay
import StyleImports.Proofs.Path.Order

/-!
# What options are read from

Reading undoes writing: what a field is read from is what its value is written as (`eq_of_texts?`,
`member?_of_aliases?`). So a setting of options that were read is written as the text has it, or as
the defaults have it if the text lacks it (`ReadFrom`). A group of settings may be spelled in a
shorter way, the settings for packages as a list (`byName`) and those for URLs as a switch
(`switched`).
-/

set_option autoImplicit false

namespace StyleImports.Options

open Json

variable {value : Json} {name : Text}

/-! ## Fields -/

theorem eq_of_text? {t : Text} (h : value.text? = some t) : value = .ofText t := by
  cases value with
  | str s => exact congrArg Json.str h
  | _ => cases h

theorem eq_of_bool? {b : Bool} (h : value.bool? = some b) : value = .bool b := by
  cases value with
  | bool b => exact congrArg Json.bool (Option.some.inj h)
  | _ => cases h

theorem eq_of_texts? {ts : List Text} (h : value.texts? = some ts) : value = textsToJson ts := by
  cases value with
  | arr items =>
    refine congrArg Json.arr ?_
    rw [texts?] at h
    induction items generalizing ts with
    | nil =>
      cases h
      rfl
    | cons item items ih =>
      rw [List.mapM_cons, Option.bind_eq_bind, Option.bind_eq_some_iff] at h
      obtain ⟨t, ht, h⟩ := h
      obtain ⟨rest, hrest, h⟩ := Option.bind_eq_some_iff.1 h
      cases h
      rw [List.map_cons, ← ih hrest, ← eq_of_text? ht]
  | _ => cases h

theorem eq_of_paths? {ps : List Path} (h : paths? value = some ps) : value = pathsToJson ps := by
  obtain ⟨ts, hts, rfl⟩ := Option.map_eq_some_iff.1 h
  rw [eq_of_texts? hts, textsToJson, pathsToJson, List.map_map]
  rfl

theorem eq_of_optional? {t : Option Text} (h : optional? value = some t) :
    value = optionalToJson t := by
  cases value with
  | null =>
    cases h
    rfl
  | str s =>
    obtain ⟨t, ht, rfl⟩ := Option.map_eq_some_iff.1 h
    exact eq_of_text? ht
  | _ => cases h

theorem eq_of_root {root : Option Path}
    (h : (optional? value).map (fun t => t.map Path.mk) = some root) :
    value = optionalToJson (root.map Path.text) := by
  obtain ⟨t, ht, rfl⟩ := Option.map_eq_some_iff.1 h
  rw [eq_of_optional? ht, Option.map_map]
  cases t <;> rfl

/-- A field that is read is written as it was, or as its default if it is left out. -/
theorem or_of_fieldOr {α : Type} {default a : α} {read : Json → Option α} {write : α → Json}
    {field : Option Json} (hread : ∀ {value b}, read value = some b → value = write b)
    (h : fieldOr default read field = some a) :
    some (write a) = field.or (some (write default)) := by
  cases field with
  | none =>
    cases h
    rfl
  | some value => rw [hread h, Option.some_or]

/-! ## Replacements -/

def aliasesToJson (aliases : List (Text × Text)) : Json :=
  .ofMembers (aliases.map fun entry => (entry.1, .ofText entry.2))

/-- The names are in order, each of them once. -/
def AreOrdered (aliases : List (Text × Text)) : Prop :=
  aliases.Pairwise fun a b => Text.before a.1 b.1 = true

variable {aliases : List (Text × Text)} {text : Text}

theorem member?_aliasesToJson_cons (entry : Text × Text) (aliases : List (Text × Text)) :
    (aliasesToJson (entry :: aliases)).member? name =
      ((aliasesToJson aliases).member? name).or
        (if entry.1 = name then some (.ofText entry.2) else none) :=
  member?_ofMembers_cons entry.1 (.ofText entry.2) _ name

theorem member?_of_before (h : ∀ entry ∈ aliases, Text.before name entry.1 = true) :
    (aliasesToJson aliases).member? name = none := by
  induction aliases with
  | nil => rfl
  | cons entry aliases ih =>
    obtain ⟨hentry, haliases⟩ := List.forall_mem_cons.1 h
    have hne : entry.1 ≠ name := by
      rintro rfl
      rw [Text.before_irrefl] at hentry
      cases hentry
    rw [member?_aliasesToJson_cons, ih haliases, if_neg hne]
    rfl

theorem mem_putAlias {entry : Text × Text} (h : entry ∈ putAlias name text aliases) :
    entry = (name, text) ∨ entry ∈ aliases := by
  induction aliases with
  | nil => exact .inl (List.mem_singleton.1 h)
  | cons first aliases ih =>
    obtain ⟨other, old⟩ := first
    rw [putAlias] at h
    split at h
    · rcases List.mem_cons.1 h with h | h
      · exact .inl h
      · exact .inr (List.mem_cons_of_mem _ h)
    · split at h
      · exact List.mem_cons.1 h
      · rcases List.mem_cons.1 h with h | h
        · exact .inr (h ▸ List.mem_cons_self)
        · exact (ih h).imp_right (List.mem_cons_of_mem _)

theorem before_of_cons {first : Text × Text} (h : AreOrdered (first :: aliases))
    (hname : Text.before name first.1 = true) :
    ∀ entry ∈ first :: aliases, Text.before name entry.1 = true :=
  List.forall_mem_cons.2 ⟨hname, fun entry hentry =>
    Text.before_trans hname ((List.pairwise_cons.1 h).1 entry hentry)⟩

theorem areOrdered_putAlias (h : AreOrdered aliases) : AreOrdered (putAlias name text aliases) := by
  induction aliases with
  | nil => exact List.pairwise_singleton _ _
  | cons first aliases ih =>
    obtain ⟨hfirst, hrest⟩ := List.pairwise_cons.1 h
    obtain ⟨other, old⟩ := first
    rw [putAlias]
    split
    case isTrue heq =>
      subst heq
      exact List.pairwise_cons.2 ⟨hfirst, hrest⟩
    case isFalse hne =>
      split
      case isTrue hbefore => exact List.pairwise_cons.2 ⟨before_of_cons h hbefore, h⟩
      case isFalse hbefore =>
        have hafter : Text.before other name = true := by
          by_contra hnot
          exact hne (Text.eq_of_not_before (Bool.eq_false_iff.2 hbefore) (by simpa using hnot))
        refine List.pairwise_cons.2 ⟨fun entry hentry => ?_, ih hrest⟩
        rcases mem_putAlias hentry with rfl | hentry
        · exact hafter
        · exact hfirst entry hentry

theorem member?_putAlias (h : AreOrdered aliases) (other : Text) :
    (aliasesToJson (putAlias name text aliases)).member? other =
      if name = other then some (.ofText text) else (aliasesToJson aliases).member? other := by
  induction aliases with
  | nil =>
    rw [putAlias, member?_aliasesToJson_cons]
    rfl
  | cons first aliases ih =>
    obtain ⟨hfirst, hrest⟩ := List.pairwise_cons.1 h
    obtain ⟨key, old⟩ := first
    rw [putAlias]
    split
    case isTrue heq =>
      subst heq
      rw [member?_aliasesToJson_cons, member?_aliasesToJson_cons]
      by_cases hother : name = other
      · subst hother
        simp [member?_of_before hfirst]
      · simp [hother]
    case isFalse hne =>
      split
      case isTrue hbefore =>
        rw [member?_aliasesToJson_cons]
        by_cases hother : name = other
        · subst hother
          simp [member?_of_before (before_of_cons h hbefore)]
        · simp [hother]
      case isFalse =>
        rw [member?_aliasesToJson_cons, member?_aliasesToJson_cons, ih hrest]
        by_cases hother : name = other
        · subst hother
          simp [Ne.symm hne]
        · simp [hother]

/-- Replacements hold what the object holds that they are read from, and it holds nothing but
texts. -/
theorem member?_of_aliases? (h : aliases? value = some aliases) :
    ¬ value.IsLeaf ∧ AreOrdered aliases ∧
      ∀ name, value.member? name = (aliasesToJson aliases).member? name := by
  cases value with
  | obj members =>
    refine ⟨fun hleaf => hleaf members rfl, ?_⟩
    rw [aliases?] at h
    induction members using List.reverseRecOn generalizing aliases with
    | nil =>
      cases h
      exact ⟨List.Pairwise.nil, fun name => rfl⟩
    | append_singleton front last ih =>
      rw [List.foldlM_append, Option.bind_eq_bind, Option.bind_eq_some_iff] at h
      obtain ⟨before, hbefore, h⟩ := h
      obtain ⟨hordered, hmember⟩ := ih hbefore
      obtain ⟨key, text⟩ := last
      rw [List.foldlM_cons, Option.bind_eq_bind, Option.bind_eq_some_iff] at h
      obtain ⟨after, hstep, h⟩ := h
      cases h
      dsimp only at hstep
      split at hstep
      case h_1 name text htext =>
        cases hstep
        refine ⟨areOrdered_putAlias hordered, fun other => ?_⟩
        rw [member?_putAlias hordered, member?_append, hmember, member?_cons, member?_nil,
          eq_of_text? htext]
        by_cases hother : name = other <;> simp [hother]
      case h_2 => cases hstep
  | _ => cases h

/-! ## Records -/

/-- A record by position is one by name. -/
def byName (names : List Text) : Json → Json
  | .arr items => .ofMembers (names.zip items)
  | value => value

theorem member?_zip {names : List Text} (hnames : names.Nodup) (items : List Json)
    (hitems : items.length ≤ names.length) :
    names.map (fun name => (Json.ofMembers (names.zip items)).member? name) =
      items.map some ++ List.replicate (names.length - items.length) none := by
  induction names generalizing items with
  | nil =>
    rw [List.eq_nil_of_length_eq_zero (Nat.le_zero.1 hitems)]
    rfl
  | cons name names ih =>
    obtain ⟨hname, hnames⟩ := List.nodup_cons.1 hnames
    cases items with
    | nil => simp [ofMembers, member?_nil, List.replicate_succ]
    | cons item items =>
      have hnone : (Json.ofMembers (names.zip items)).member? name = none := by
        rw [Option.eq_none_iff_forall_not_mem]
        intro value hvalue
        obtain ⟨entry, hentry, heq⟩ := List.mem_map.1 (mem_of_member? hvalue)
        cases heq
        exact hname (List.of_mem_zip hentry).1
      have hrest : (names.map fun other =>
            (Json.ofMembers ((name, item) :: names.zip items)).member? other) =
          names.map fun other => (Json.ofMembers (names.zip items)).member? other := by
        refine List.map_congr_left fun other hother => ?_
        have hne : name ≠ other := fun heq => hname (heq ▸ hother)
        rw [member?_ofMembers_cons, if_neg hne, Option.or_none]
      rw [List.zip_cons_cons, List.map_cons, hrest, ih hnames items (Nat.le_of_succ_le_succ hitems),
        member?_ofMembers_cons, hnone, if_pos rfl]
      simp

theorem record?_eq_some {names : List Text} {fields : List (Option Json)} (hnames : names.Nodup)
    (h : value.record? names = some fields) :
    ¬ (byName names value).IsLeaf ∧
      fields = names.map fun name => (byName names value).member? name := by
  cases value with
  | obj members =>
    refine ⟨fun hleaf => hleaf _ rfl, ?_⟩
    rw [record?] at h
    split at h
    · clear hnames
      show fields = names.map fun name => (obj members).member? name
      induction names generalizing fields with
      | nil =>
        cases h
        rfl
      | cons name names ih =>
        rw [List.mapM_cons, Option.bind_eq_bind, Option.bind_eq_some_iff] at h
        obtain ⟨field, hfield, h⟩ := h
        obtain ⟨rest, hrest, h⟩ := Option.bind_eq_some_iff.1 h
        cases h
        rw [List.map_cons, ← ih hrest]
        congr 1
        -- A record takes a name that occurs once, which is then the last one too.
        rw [member?, ← List.head?_filter, List.filter_reverse, List.head?_reverse]
        split at hfield
        case h_1 hnone =>
          cases hfield
          rw [hnone]
          rfl
        case h_2 hone =>
          cases hfield
          rw [hone]
          rfl
        case h_3 => cases hfield
    · cases h
  | arr items =>
    refine ⟨fun hleaf => hleaf _ rfl, ?_⟩
    rw [record?] at h
    split at h
    case isTrue hitems =>
      cases h
      exact (member?_zip hnames items hitems).symm
    case isFalse => cases h
  | _ => cases h

/-! ## Groups -/

/-- A switch for URLs is the first of their settings. -/
def switched : Json → Json
  | .bool b => .ofMembers [("enabled", .bool b)]
  | value => value

/-- The settings for packages: the lists, and each replacement by itself. -/
inductive PackageSetting : List Text → Prop where
  | list {name : Text} :
      name ∈ (["conditionNames", "mainFields", "mainFiles", "extensions", "modules"] : List Text) →
      PackageSetting [name]
  | replacement (name : Text) : PackageSetting ["alias", name]

variable {path : List Text}

/-- A field is written as the value has it that it is read from, or else as its default. -/
theorem at?_of_fieldOr {α : Type} {default a : α} {read : Json → Option α} (write : α → Json)
    (hread : ∀ {value b}, read value = some b → value = write b) (hwrite : ∀ b, (write b).IsLeaf)
    (hobject : ¬ value.IsLeaf) (h : fieldOr default read (value.member? name) = some a) :
    LeadsToLeaf [name] value ∧
      some (write a) = (value.at? [name]).or (some (write default)) := by
  rw [at?_singleton]
  refine ⟨⟨hobject, fun inner hinner => ?_⟩, or_of_fieldOr hread h⟩
  rw [hinner] at h
  rw [hread h]
  exact hwrite a

theorem isLeaf_ofText (t : Text) : (Json.ofText t).IsLeaf := fun _ h => nomatch h

theorem isLeaf_bool (b : Bool) : (Json.bool b).IsLeaf := fun _ h => nomatch h

theorem isLeaf_textsToJson (ts : List Text) : (textsToJson ts).IsLeaf := fun _ h => nomatch h

theorem isLeaf_pathsToJson (ps : List Path) : (pathsToJson ps).IsLeaf := fun _ h => nomatch h

theorem isLeaf_optionalToJson (t : Option Text) : (optionalToJson t).IsLeaf := by
  cases t <;> exact fun _ h => nomatch h

theorem zip_take (names : List Text) (items : List Json) :
    names.zip (items.take names.length) = names.zip items := by
  induction names generalizing items with
  | nil => rfl
  | cons name names ih => cases items <;> simp [ih]

/-- Items that are too many do not count. -/
theorem byName_cutRecord (value : Json) :
    byName packageFields (cutRecord value) = byName packageFields value := by
  cases value with
  | arr items => rw [cutRecord, byName, byName, zip_take]
  | _ => rfl

theorem at?_of_aliases (hobject : ¬ value.IsLeaf)
    (h : fieldOr [] aliases? (value.member? "alias") = some aliases) (name : Text) :
    LeadsToLeaf ["alias", name] value ∧
      (aliasesToJson aliases).member? name = value.at? ["alias", name] := by
  rw [at?]
  cases halias : value.member? "alias" with
  | none =>
    rw [halias] at h
    cases h
    exact ⟨⟨hobject, fun inner hinner => by rw [halias] at hinner; cases hinner⟩, rfl⟩
  | some inner =>
    rw [halias] at h
    obtain ⟨hinner, -, hmember⟩ := member?_of_aliases? h
    refine ⟨⟨hobject, fun other hother => ⟨?_, fun text htext => ?_⟩⟩, ?_⟩
    · rw [halias] at hother
      cases hother
      exact hinner
    · rw [halias] at hother
      cases hother
      rw [hmember] at htext
      obtain ⟨entry, hentry, heq⟩ := List.mem_map.1 (mem_of_member? htext)
      obtain ⟨_, _, rfl⟩ := List.mem_map.1 hentry
      cases heq
      exact isLeaf_ofText _
    · rw [Option.bind_some, at?_singleton, hmember]

/-- Settings for packages are written as the value has them that they are read from, or else as the
defaults. -/
theorem at?_of_packages? {o : PackageOptions} (h : packages? (cutRecord value) = some o)
    (hpath : PackageSetting path) :
    LeadsToLeaf path (byName packageFields value) ∧
      (packagesToJson o).at? path =
        ((byName packageFields value).at? path).or ((packagesToJson {}).at? path) := by
  simp only [packages?, Option.bind_eq_bind, Option.bind_eq_some_iff] at h
  obtain ⟨fields, hfields, h⟩ := h
  obtain ⟨hobject, hfields⟩ := record?_eq_some (by decide) hfields
  rw [byName_cutRecord] at hobject hfields
  subst hfields
  simp only [packageFields, List.map_cons, List.map_nil, Option.bind_eq_some_iff, Option.pure_def,
    Option.some.injEq] at h
  obtain ⟨aliases, haliases, conditions, hconditions, mainFields, hmainFields, mainFiles,
    hmainFiles, extensions, hextensions, directories, hdirectories, rfl⟩ := h
  cases hpath with
  | list hname =>
    simp only [List.mem_cons, List.not_mem_nil, or_false] at hname
    rcases hname with rfl | rfl | rfl | rfl | rfl
    · exact at?_of_fieldOr textsToJson eq_of_texts? isLeaf_textsToJson hobject hconditions
    · exact at?_of_fieldOr textsToJson eq_of_texts? isLeaf_textsToJson hobject hmainFields
    · exact at?_of_fieldOr textsToJson eq_of_texts? isLeaf_textsToJson hobject hmainFiles
    · exact at?_of_fieldOr textsToJson eq_of_texts? isLeaf_textsToJson hobject hextensions
    · exact at?_of_fieldOr textsToJson eq_of_texts? isLeaf_textsToJson hobject hdirectories
  | replacement name =>
    obtain ⟨hleads, hmember⟩ := at?_of_aliases hobject haliases name
    refine ⟨hleads, ?_⟩
    have hnone : (packagesToJson {}).at? ["alias", name] = none := rfl
    rw [hnone, Option.or_none, ← hmember]
    exact at?_singleton name (aliasesToJson aliases)

/-- Settings for URLs are written as the value has them that they are read from, or else as the
defaults. -/
theorem at?_of_urls? {o : UrlOptions} (h : urls? value = some o) (hname : name ∈ urlFields) :
    LeadsToLeaf [name] (switched value) ∧
      (urlsToJson o).at? [name] =
        ((switched value).at? [name]).or ((urlsToJson {}).at? [name]) := by
  cases value with
  | bool b =>
    cases h
    refine ⟨⟨fun hleaf => hleaf _ rfl, fun inner hinner => ?_⟩, ?_⟩
    · rw [switched, member?_singleton] at hinner
      split at hinner
      · cases hinner
        exact isLeaf_bool b
      · cases hinner
    · simp only [urlFields, List.mem_cons, List.not_mem_nil, or_false] at hname
      rcases hname with rfl | rfl | rfl <;> rfl
  | obj members =>
    rw [urls?] at h
    split at h
    · simp only [urlSettings?, Option.bind_eq_bind, Option.bind_eq_some_iff] at h
      obtain ⟨fields, hfields, h⟩ := h
      obtain ⟨hobject, rfl⟩ := record?_eq_some (by decide) hfields
      simp only [urlFields, List.map_cons, List.map_nil, Option.bind_eq_some_iff,
        Option.pure_def, Option.some.injEq] at h
      obtain ⟨enabled, henabled, unchecked, hunchecked, paths, hpaths, rfl⟩ := h
      simp only [urlFields, List.mem_cons, List.not_mem_nil, or_false] at hname
      rcases hname with rfl | rfl | rfl
      · exact at?_of_fieldOr Json.bool eq_of_bool? isLeaf_bool hobject henabled
      · exact at?_of_fieldOr Json.bool eq_of_bool? isLeaf_bool hobject hunchecked
      · exact at?_of_fieldOr pathsToJson eq_of_paths? isLeaf_pathsToJson hobject hpaths
    · cases h
  | _ => cases h

/-! ## Options -/

/-- The settings that are neither lists to which the command line adds nor groups. -/
def plainFields : List Text := ["paths", "includeCss", "webpackImporter", "additionalData", "root"]

theorem member?_map_value (f : Json → Json) (key : Text) (members : List (JsonString × Json))
    (name : Text) :
    (obj (members.map fun m => if m.1 = some key then (m.1, f m.2) else m)).member? name =
      ((obj members).member? name).map fun value => if name = key then f value else value := by
  induction members with
  | nil => rfl
  | cons first rest ih =>
    obtain ⟨other, value⟩ := first
    rw [List.map_cons, member?_cons other value rest, Option.map_or, ← ih]
    by_cases hkey : other = some key
    · rw [if_pos hkey, member?_cons, hkey]
      by_cases hname : key = name <;> simp [hname, eq_comm]
    · rw [if_neg hkey, member?_cons]
      by_cases hname : other = some name
      · have hne : name ≠ key := fun heq => hkey (heq ▸ hname)
        simp [hname, hne]
      · simp [hname]

/-- What options are read from, field by field. -/
structure ReadFrom (value : Json) (o : Options) : Prop where
  plain : ∀ name ∈ plainFields, LeadsToLeaf [name] value ∧
    o.toJson.at? [name] = (value.at? [name]).or ((toJson {}).at? [name])
  imports : fieldOr [] texts? (value.member? "import") = some o.imports
  included : fieldOr [] paths? (value.member? "include") = some o.included
  packages : fieldOr {} packages? ((value.member? "resolve").map cutRecord) = some o.packages
  urls : fieldOr {} urls? (value.member? "resolveUrl") = some o.urls

theorem readFrom_of_ofLayers? {o : Options} (h : ofLayers? value = some o) : ReadFrom value o := by
  cases value with
  | obj members =>
    have hobject : ¬ (Json.obj members).IsLeaf := fun hleaf => hleaf _ rfl
    simp only [ofLayers?, ofJson?, Option.bind_eq_bind, Option.bind_eq_some_iff] at h
    obtain ⟨fields, hfields, h⟩ := h
    obtain ⟨-, rfl⟩ := record?_eq_some (by decide) hfields
    simp only [byName, member?_map_value, fieldNames, List.map_cons, List.map_nil,
      Option.bind_eq_some_iff, Option.pure_def, Option.some.injEq] at h
    -- Only the settings for packages are cut.
    have hcut : ∀ name : Text, name ≠ "resolve" →
        (fun value : Json => if name = "resolve" then cutRecord value else value) = id :=
      fun name hname => by
        funext value
        rw [if_neg hname]
        rfl
    obtain ⟨paths, hpaths, imports, himports, included, hincluded, includeCss, hincludeCss,
      preresolve, hpreresolve, header, hheader, root, hroot, packages, hpackages, urls, hurls,
      rfl⟩ := h
    rw [hcut _ (by decide), Option.map_id] at hpaths himports hincluded hincludeCss
    rw [hcut _ (by decide), Option.map_id] at hpreresolve hheader hroot hurls
    simp only [if_true] at hpackages
    refine ⟨fun name hname => ?_, himports, hincluded, hpackages, hurls⟩
    simp only [plainFields, List.mem_cons, List.not_mem_nil, or_false] at hname
    rcases hname with rfl | rfl | rfl | rfl | rfl
    · exact at?_of_fieldOr pathsToJson eq_of_paths? isLeaf_pathsToJson hobject hpaths
    · exact at?_of_fieldOr Json.bool eq_of_bool? isLeaf_bool hobject hincludeCss
    · exact at?_of_fieldOr Json.bool eq_of_bool? isLeaf_bool hobject hpreresolve
    · exact at?_of_fieldOr optionalToJson eq_of_optional? isLeaf_optionalToJson hobject hheader
    · exact at?_of_fieldOr (fun root => optionalToJson (root.map Path.text)) eq_of_root
        (fun root => isLeaf_optionalToJson _) hobject hroot
  | _ => cases h

end StyleImports.Options
