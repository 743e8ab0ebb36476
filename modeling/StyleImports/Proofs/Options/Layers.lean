import StyleImports.Files.Memory
import StyleImports.Proofs.Options.Reading
import StyleImports.Proofs.Path.Parts

/-!
# What layers leave alone

A layer leaves alone what it does not give: each setting of the options that layers come to is what
the topmost layer gives that gives it, within the groups of settings as well, and the command line
adds to two lists (`load_precedence`). The switch for URLs and a list of settings for packages stand
for a whole group: where one of them is, only the topmost layer counts that gives the group
(`settled`, `not_load_beside_switch`). Variables are merged into one layer before, and no variable
gives a setting whose name has a capital (`isLayer_variableLayer`).
-/

set_option autoImplicit false

namespace StyleImports

namespace Options

open Json

/-! ## Layers -/

/-- An object that can be laid over others. -/
structure IsLayer (value : Json) : Prop where
  object : ¬ value.IsLeaf
  distinct : value.IsDistinct

variable {value lower upper : Json} {name : Text} {append : Bool}

theorem IsLayer.overlay (hlower : IsLayer lower) (hupper : IsLayer upper) (append : Bool) :
    IsLayer (overlay append lower upper) := by
  refine ⟨?_, isDistinct_overlay hlower.distinct hupper.distinct⟩
  obtain ⟨lowers, rfl⟩ := exists_of_not_isLeaf hlower.object
  obtain ⟨uppers, rfl⟩ := exists_of_not_isLeaf hupper.object
  rw [Options.overlay]
  exact fun hleaf => hleaf _ rfl

theorem IsLayer.member?_overlay (hlower : IsLayer lower) (hupper : IsLayer upper) (append : Bool)
    (name : Text) : (Options.overlay append lower upper).member? name =
      Option.merge (Options.overlay append) (lower.member? name) (upper.member? name) := by
  obtain ⟨lowers, rfl⟩ := exists_of_not_isLeaf hlower.object
  obtain ⟨uppers, rfl⟩ := exists_of_not_isLeaf hupper.object
  exact Options.member?_overlay hupper.distinct.nodup

theorem isLayer_distinct (members : List (JsonString × Json)) :
    IsLayer (Json.distinct (.obj members)) := by
  refine ⟨?_, isDistinct_distinct _⟩
  rw [Json.distinct]
  exact fun hleaf => hleaf _ rfl

theorem isLayer_empty : IsLayer (.obj []) := isLayer_distinct []

theorem isLayer_defaults : IsLayer (toJson {}) := by
  have hdistinct : Json.distinct (toJson {}) = toJson {} := rfl
  rw [← hdistinct]
  exact isLayer_distinct _

theorem isLayer_fileLayer? {t : Text} (h : fileLayer? t = some value) : IsLayer value := by
  rw [fileLayer?] at h
  split at h
  · cases h
    exact isLayer_distinct _
  · cases h

theorem isLayer_loadFile {fs : FileSystem} {cwd : Path} {given : Option Path} {file : Option Json}
    (h : loadFile fs cwd given = .ok file) : IsLayer (file.getD (.obj [])) := by
  unfold loadFile at h
  dsimp only at h
  split at h
  · split at h
    · cases h
    · split at h
      case h_1 layer hlayer =>
        cases h
        exact isLayer_fileLayer? hlayer
      case h_2 => cases h
  · split at h
    · cases h
    · cases h
      exact isLayer_empty

/-! ## Variables -/

theorem isDistinct_value (t : Text) : (Variable.value t).IsDistinct := by
  unfold Variable.value
  split
  · exact isDistinct_distinct _
  · exact (isLeaf_ofText t).isDistinct

theorem isDistinct_nest (h : value.IsDistinct) (levels : List Text) :
    (Variable.nest value levels).IsDistinct := by
  induction levels with
  | nil => exact h
  | cons level levels ih => exact isDistinct_singleton ih level

/-- A capital letter of ASCII. -/
def IsCapital (c : Char) : Prop := 65 ≤ c.toNat ∧ c.toNat ≤ 90

/-- The setting of a variable is an object with one member, whose name has no capitals. -/
theorem exists_of_setting? {key content : Text} (h : Variable.setting? key content = some value) :
    ∃ level inner, value = .ofMembers [(level, inner)] ∧ inner.IsDistinct ∧
      ∀ c ∈ level, ¬ IsCapital c := by
  obtain ⟨levels, hlevels, rfl⟩ := Option.map_eq_some_iff.1 h
  unfold Variable.levels? at hlevels
  dsimp only at hlevels
  split at hlevels
  · split at hlevels
    · cases hlevels
    · cases hlevels
      generalize (Text.trim _) = spelled
      obtain ⟨level, levels, hlevel⟩ :=
        List.exists_cons_of_ne_nil (Text.splitOn_ne_nil '.' (Text.lowerAscii spelled))
      rw [hlevel]
      refine ⟨level, _, rfl, isDistinct_nest (isDistinct_value content) levels, fun c hc => ?_⟩
      have hmem := Text.mem_of_mem_splitOn (hlevel ▸ List.mem_cons_self) hc
      obtain ⟨d, -, rfl⟩ := List.mem_map.1 hmem
      exact Text.not_capital_toLower d
  · cases hlevels

/-- The layer of variables gives nothing whose name has a capital. -/
theorem isLayer_variableLayer (settings : List (Text × Text)) :
    IsLayer (variableLayer settings) ∧ ∀ {name : Text} {c : Char}, c ∈ name → IsCapital c →
      (variableLayer settings).member? name = none := by
  unfold variableLayer
  refine List.foldlRecOn (motive := fun layer => IsLayer layer ∧
    ∀ {name : Text} {c : Char}, c ∈ name → IsCapital c → layer.member? name = none) _ _ ?_ ?_
  · exact ⟨isLayer_empty, fun _ _ => rfl⟩
  · rintro layer ⟨hlayer, hnames⟩ setting hsetting
    obtain ⟨⟨key, content⟩, -, hkey⟩ := List.mem_filterMap.1 hsetting
    obtain ⟨level, inner, rfl, hinner, hlevel⟩ := exists_of_setting? hkey
    have hupper : IsLayer (.ofMembers [(level, inner)]) :=
      ⟨fun hleaf => hleaf _ rfl, isDistinct_singleton hinner level⟩
    refine ⟨hlayer.overlay hupper false, fun {name c} hc hcapital => ?_⟩
    have hne : level ≠ name := fun heq => hlevel c (heq ▸ hc) hcapital
    rw [hlayer.member?_overlay hupper, hnames hc hcapital, member?_singleton, if_neg hne]
    rfl

/-! ## The command line -/

theorem member?_ofMembers_append (members rest : List (Text × Json)) (name : Text) :
    (Json.ofMembers (members ++ rest)).member? name =
      ((Json.ofMembers rest).member? name).or ((Json.ofMembers members).member? name) := by
  rw [Json.ofMembers, List.map_append, member?_append]
  rfl

theorem member?_member {α : Type} (name : Text) (encode : α → Json) (a : Option α) (other : Text) :
    (Json.ofMembers (member name encode a)).member? other =
      if name = other then a.map encode else none := by
  cases a with
  | none => simp [member, Json.ofMembers, member?_nil]
  | some a => exact member?_singleton name other (encode a)

theorem member?_overrides (o : Overrides) (name : Text) :
    o.toJson.member? name =
      ((((((if "resolveUrl" = name then o.resolveUrl.map Json.bool else none).or
        (if "includeCss" = name then o.includeCss.map Json.bool else none)).or
        (if "webpackImporter" = name then o.preresolve.map Json.bool else none)).or
        (if "root" = name then o.root.map fun p => Json.ofText p.text else none)).or
        (if "import" = name then (nonEmpty o.imports).map textsToJson else none)).or
        (if "include" = name then (nonEmpty o.included).map pathsToJson else none)) := by
  rw [Overrides.toJson]
  simp only [member?_ofMembers_append, member?_member, Option.or_assoc]

theorem exists_of_mem_member {α : Type} {encode : α → Json} {a : Option α} {m : Text × Json}
    (h : m ∈ member name encode a) : ∃ b, m = (name, encode b) := by
  obtain ⟨b, -, rfl⟩ := List.mem_map.1 h
  exact ⟨b, rfl⟩

theorem map_member {α : Type} (name : Text) (encode : α → Json) (a : Option α) :
    ((member name encode a).map fun m => m.1).Sublist [name] := by
  cases a with
  | none => exact List.nil_sublist _
  | some a => exact List.Sublist.refl _

theorem overlay_ofText (t : Text) (lower : Json) :
    Options.overlay true lower (.ofText t) = .ofText t := by
  cases lower <;> rfl

theorem overlay_bool (b : Bool) (lower : Json) :
    Options.overlay true lower (.bool b) = .bool b := by
  cases lower <;> rfl

/-- What the command line gives stands for what is below it, unless it is added to a list. -/
theorem overlay_overrides {o : Overrides} (h : o.toJson.member? name = some value) :
    value.IsLeaf ∧
      (name ≠ "import" → name ≠ "include" → ∀ lower, Options.overlay true lower value = value) := by
  obtain ⟨m, hm, heq⟩ := List.mem_map.1 (mem_of_member? h)
  cases heq
  simp only [List.mem_append] at hm
  rcases hm with ((((hm | hm) | hm) | hm) | hm) | hm
  · obtain ⟨ps, rfl⟩ := exists_of_mem_member hm
    exact ⟨isLeaf_pathsToJson ps, fun _ hincluded => absurd rfl hincluded⟩
  · obtain ⟨ts, rfl⟩ := exists_of_mem_member hm
    exact ⟨isLeaf_textsToJson ts, fun himports => absurd rfl himports⟩
  · obtain ⟨p, rfl⟩ := exists_of_mem_member hm
    exact ⟨isLeaf_ofText p.text, fun _ _ => overlay_ofText p.text⟩
  · obtain ⟨b, rfl⟩ := exists_of_mem_member hm
    exact ⟨isLeaf_bool b, fun _ _ => overlay_bool b⟩
  · obtain ⟨b, rfl⟩ := exists_of_mem_member hm
    exact ⟨isLeaf_bool b, fun _ _ => overlay_bool b⟩
  · obtain ⟨b, rfl⟩ := exists_of_mem_member hm
    exact ⟨isLeaf_bool b, fun _ _ => overlay_bool b⟩

theorem isLayer_overrides (o : Overrides) : IsLayer o.toJson := by
  refine ⟨fun hleaf => hleaf _ rfl, isDistinct_ofMembers ?_ fun name value h =>
    (overlay_overrides h).1.isDistinct⟩
  have hnames : (["include", "import", "root", "webpackImporter", "includeCss", "resolveUrl"] :
      List Text).Nodup := by decide
  refine List.Sublist.nodup ?_ hnames
  simp only [List.map_append]
  exact ((((((map_member _ _ _).append (map_member _ _ _)).append (map_member _ _ _)).append
    (map_member _ _ _)).append (map_member _ _ _)).append (map_member _ _ _))

/-! ## The layers as one value -/

theorem overlay_empty (append : Bool) (members : List (JsonString × Json)) :
    overlay append (.obj members) (.obj []) = .obj members := by
  have hmembers : overlayMembers append members [] = members := by
    induction members with
    | nil => rfl
    | cons first rest ih => rw [overlayMembers, ih, List.find?_nil]
  rw [overlay, hmembers, List.filter_nil, List.append_nil]

theorem layered_getD (file : Option Json) (settings : List (Text × Text)) (overrides : Overrides) :
    layered file settings overrides =
      overlay true (overlay false (overlay false (toJson {}) (file.getD (.obj [])))
        (variableLayer settings)) overrides.toJson := by
  cases file with
  | none =>
    rw [Option.getD_none, toJson, ofMembers, overlay_empty]
    rfl
  | some file => rfl

/-- What the defaults, a file and the variables come to under a name. -/
def lowerLayers (file : Json) (settings : List (Text × Text)) (name : Text) : Option Json :=
  Option.merge (overlay false)
    (Option.merge (overlay false) ((toJson {}).member? name) (file.member? name))
    ((variableLayer settings).member? name)

theorem member?_layered {file : Option Json} (hfile : IsLayer (file.getD (.obj [])))
    (settings : List (Text × Text)) (overrides : Overrides) (name : Text) :
    (layered file settings overrides).member? name =
      Option.merge (overlay true) (lowerLayers (file.getD (.obj [])) settings name)
        (overrides.toJson.member? name) := by
  have hlower := isLayer_defaults.overlay hfile false
  have hvariables := (isLayer_variableLayer settings).1
  rw [layered_getD,
    (hlower.overlay hvariables false).member?_overlay (isLayer_overrides overrides) true,
    hlower.member?_overlay hvariables false, isLayer_defaults.member?_overlay hfile false]
  rfl

/-! ## Groups of settings -/

/-- A group with its settings by name. -/
def spelledOut (group : Text) (value : Json) : Json :=
  if group = "resolve" then byName packageFields value
  else if group = "resolveUrl" then switched value
  else value

/-- The short form of a group, which does not merge with what is below or above it. -/
def isShort (group : Text) : Json → Bool
  | .arr _ => group = "resolve"
  | .bool _ => group = "resolveUrl"
  | _ => false

/-- What values of a group give for a setting in it, the topmost of them first; when one of them is
in the short form, only the topmost one counts. -/
def settled (group : Text) (path : List Text) (values : List Json) : Option Json :=
  (if values.any (isShort group) then values.take 1 else values).findSome?
    fun value => (spelledOut group value).at? path

/-- What layers give for a setting, the topmost of them first. -/
def given? (layers : List Json) : List Text → Option Json
  | [] => none
  | group :: path => settled group path (layers.filterMap (Json.member? group))

variable {group : Text} {path : List Text}

theorem isLeaf_of_isShort (h : isShort group value = true) : value.IsLeaf := by
  cases value with
  | obj members => cases h
  | _ => exact fun _ hvalue => nomatch hvalue

theorem spelledOut_of_not_isShort (h : isShort group value = false) :
    spelledOut group value = value := by
  unfold spelledOut
  split
  case isTrue hgroup =>
    cases value with
    | arr items => simp [isShort, hgroup] at h
    | _ => rfl
  · split
    case isTrue hgroup =>
      cases value with
      | bool b => simp [isShort, hgroup] at h
      | _ => rfl
    · rfl

theorem isShort_overlay (h : isShort group upper = false) :
    isShort group (Options.overlay false lower upper) = false := by
  rw [← Bool.not_eq_true] at h ⊢
  intro hshort
  rw [overlay_of_upper_isLeaf (isLeaf_of_overlay (isLeaf_of_isShort hshort))] at hshort
  exact h hshort

/-- A value in the short form counts alone, and so does one that is the setting itself. -/
theorem settled_cons (rest : List Json) (h : isShort group value = true ∨ path = []) :
    settled group path (value :: rest) = (spelledOut group value).at? path := by
  unfold settled
  rcases h with h | rfl
  · rw [List.any_cons, h, Bool.true_or, if_pos rfl, List.take_succ_cons, List.take_zero,
      List.findSome?_singleton]
  · split <;> rfl

theorem settled_singleton : settled group path [value] = (spelledOut group value).at? path := by
  have hvalues : (if [value].any (isShort group) then [value].take 1 else [value]) = [value] := by
    split <;> rfl
  rw [settled, hvalues, List.findSome?_singleton]

/-- A single value of a group over the default one. -/
theorem at?_overlay_or (hlower : lower.IsDistinct) (hupper : upper.IsDistinct)
    (h : LeadsToLeaf path (spelledOut group (overlay false lower upper))) :
    ((spelledOut group (overlay false lower upper)).at? path).or (lower.at? path) =
      ((spelledOut group upper).at? path).or (lower.at? path) := by
  cases hshort : isShort group upper with
  | true => rw [overlay_of_upper_isLeaf (isLeaf_of_isShort hshort)]
  | false =>
    rw [spelledOut_of_not_isShort (isShort_overlay hshort)] at h ⊢
    rw [at?_overlay hlower hupper h, spelledOut_of_not_isShort hshort, Option.or_assoc,
      Option.or_self]

theorem at?_overlay_overlay_or {default : Json} (hdefault : default.IsDistinct)
    (hlower : lower.IsDistinct) (hupper : upper.IsDistinct) (hleaf : LeadsToLeaf path default)
    (h : LeadsToLeaf path (spelledOut group (overlay false (overlay false default lower) upper))) :
    ((spelledOut group (overlay false (overlay false default lower) upper)).at? path).or
        (default.at? path) =
      (settled group path [upper, lower]).or (default.at? path) := by
  by_cases hupperShort : isShort group upper = true
  · rw [overlay_of_upper_isLeaf (isLeaf_of_isShort hupperShort), settled_cons _ (.inl hupperShort)]
  rw [Bool.not_eq_true] at hupperShort
  by_cases hlowerShort : isShort group lower = true
  · -- The lower value hides the default and is hidden itself.
    rw [overlay_of_upper_isLeaf (isLeaf_of_isShort hlowerShort),
      overlay_of_lower_isLeaf (isLeaf_of_isShort hlowerShort)]
    have hany : [upper, lower].any (isShort group) = true := by simp [hlowerShort]
    rw [settled, if_pos hany]
    exact congrArg (fun v => v.or (default.at? path)) List.findSome?_singleton.symm
  rw [Bool.not_eq_true] at hlowerShort
  have hany : ¬ [upper, lower].any (isShort group) = true := by simp [hupperShort, hlowerShort]
  have hboth : settled group path [upper, lower] = (upper.at? path).or (lower.at? path) := by
    rw [settled, if_neg hany, List.findSome?_cons, List.findSome?_singleton,
      spelledOut_of_not_isShort hupperShort, spelledOut_of_not_isShort hlowerShort]
    cases upper.at? path <;> rfl
  rw [spelledOut_of_not_isShort (isShort_overlay hupperShort)] at h ⊢
  rw [at?_overlay (isDistinct_overlay hdefault hlower) hupper h, hboth, Option.or_assoc,
    Option.or_assoc, or_at?_overlay hlower fun value hvalue => hleaf.isLeaf hvalue]

/-! ## Settings -/

/-- What the layers below the command line come to for a setting. -/
theorem at?_lowerLayers {file default : Json} (hfile : IsLayer file) (settings : List (Text × Text))
    (hdefault : (toJson {}).member? group = some default) (hleaf : LeadsToLeaf path default)
    (hshort : isShort group default = false) :
    ∃ result, lowerLayers file settings group = some result ∧
      (LeadsToLeaf path (spelledOut group result) →
        ((spelledOut group result).at? path).or (default.at? path) =
          (given? [variableLayer settings, file] (group :: path)).or (default.at? path)) := by
  have hvariables := (isLayer_variableLayer settings).1
  have hdistinct := isLayer_defaults.distinct.member hdefault
  rw [lowerLayers, given?, List.filterMap_cons, List.filterMap_cons, hdefault]
  cases hlower : file.member? group with
  | none =>
    cases hupper : (variableLayer settings).member? group with
    | none =>
      refine ⟨default, rfl, fun _ => ?_⟩
      rw [spelledOut_of_not_isShort hshort, Option.or_self]
      rfl
    | some upper =>
      refine ⟨overlay false default upper, rfl, fun h => ?_⟩
      rw [at?_overlay_or hdistinct (hvariables.distinct.member hupper) h]
      exact congrArg (fun v => v.or (default.at? path)) settled_singleton.symm
  | some lower =>
    have hlowerDistinct := hfile.distinct.member hlower
    cases hupper : (variableLayer settings).member? group with
    | none =>
      refine ⟨overlay false default lower, rfl, fun h => ?_⟩
      rw [at?_overlay_or hdistinct hlowerDistinct h]
      exact congrArg (fun v => v.or (default.at? path)) settled_singleton.symm
    | some upper =>
      exact ⟨_, rfl, at?_overlay_overlay_or hdistinct hlowerDistinct
        (hvariables.distinct.member hupper) hleaf⟩

/-- What the layers come to for a setting. -/
theorem at?_layered {file : Option Json} (hfile : IsLayer (file.getD (.obj [])))
    (settings : List (Text × Text)) (overrides : Overrides) {default : Json}
    (hdefault : (toJson {}).member? group = some default) (hleaf : LeadsToLeaf path default)
    (hshort : isShort group default = false)
    (hoverrides : ∀ value, overrides.toJson.member? group = some value →
      (∀ lower, overlay true lower value = value) ∧ (isShort group value = true ∨ path = [])) :
    ∃ result, (layered file settings overrides).member? group = some result ∧
      (LeadsToLeaf path (spelledOut group result) →
        ((spelledOut group result).at? path).or (default.at? path) =
          (given? [overrides.toJson, variableLayer settings, file.getD (.obj [])]
            (group :: path)).or (default.at? path)) := by
  obtain ⟨lower, hlower, hsettled⟩ := at?_lowerLayers hfile settings hdefault hleaf hshort
  rw [member?_layered hfile, hlower, given?, List.filterMap_cons]
  cases htop : overrides.toJson.member? group with
  | none => exact ⟨lower, rfl, hsettled⟩
  | some top =>
    obtain ⟨hstands, hcounts⟩ := hoverrides top htop
    refine ⟨top, congrArg some (hstands lower), fun _ => ?_⟩
    exact congrArg (fun v => v.or (default.at? path)) (settled_cons _ hcounts).symm

/-- The settings of options, those of a group by the name of the group and their own. -/
inductive IsSetting : List Text → Prop where
  | plain {name : Text} : name ∈ plainFields → IsSetting [name]
  | package {path : List Text} : PackageSetting path → IsSetting ("resolve" :: path)
  | url {name : Text} : name ∈ urlFields → IsSetting ["resolveUrl", name]

section Layered

variable {overrides : Overrides} {settings : List (Text × Text)} {file : Option Json} {o : Options}

theorem at?_plain (hfile : IsLayer (file.getD (.obj [])))
    (h : ReadFrom (layered file settings overrides) o) (hname : name ∈ plainFields) :
    o.toJson.at? [name] =
      (given? [overrides.toJson, variableLayer settings, file.getD (.obj [])] [name]).or
        ((toJson {}).at? [name]) := by
  have hnames : (∃ default, (toJson {}).member? name = some default ∧
      isShort name default = false) ∧ name ≠ "import" ∧ name ≠ "include" ∧
      ∀ value, spelledOut name value = value := by
    simp only [plainFields, List.mem_cons, List.not_mem_nil, or_false] at hname
    rcases hname with rfl | rfl | rfl | rfl | rfl <;>
      exact ⟨⟨_, rfl, rfl⟩, by decide, by decide, fun _ => rfl⟩
  obtain ⟨⟨default, hdefault, hshort⟩, himports, hincluded, hspelled⟩ := hnames
  have husual : ofLayers? (toJson {}) = some {} := rfl
  have hleaf : LeadsToLeaf [] default :=
    ((readFrom_of_ofLayers? husual).plain name hname).1.2 default hdefault
  obtain ⟨result, hresult, hsettled⟩ := at?_layered hfile settings overrides hdefault hleaf hshort
    fun value hvalue => ⟨(overlay_overrides hvalue).2 himports hincluded, .inr rfl⟩
  obtain ⟨hleads, hplain⟩ := h.plain name hname
  rw [hspelled] at hsettled
  rw [hplain, at?_singleton, at?_singleton, hresult, hdefault]
  exact hsettled (hleads.2 result hresult)

theorem at?_package (hfile : IsLayer (file.getD (.obj [])))
    (h : ReadFrom (layered file settings overrides) o) (hpath : PackageSetting path) :
    o.toJson.at? ("resolve" :: path) =
      (given? [overrides.toJson, variableLayer settings, file.getD (.obj [])]
        ("resolve" :: path)).or ((toJson {}).at? ("resolve" :: path)) := by
  have husual : packages? (cutRecord (packagesToJson {})) = some {} := rfl
  have hdefault : (toJson {}).member? "resolve" = some (packagesToJson {}) := rfl
  have hnone : overrides.toJson.member? "resolve" = none := by
    rw [member?_overrides]
    rfl
  obtain ⟨result, hresult, hsettled⟩ := at?_layered hfile settings overrides hdefault
    (at?_of_packages? husual hpath).1 rfl fun value hvalue => by
      rw [hnone] at hvalue
      cases hvalue
  have hpackages := h.packages
  rw [hresult] at hpackages
  obtain ⟨hleads, hpackages⟩ := at?_of_packages? hpackages hpath
  exact hpackages.trans (hsettled hleads)

theorem at?_url (hfile : IsLayer (file.getD (.obj [])))
    (h : ReadFrom (layered file settings overrides) o) (hname : name ∈ urlFields) :
    o.toJson.at? ["resolveUrl", name] =
      (given? [overrides.toJson, variableLayer settings, file.getD (.obj [])]
        ["resolveUrl", name]).or ((toJson {}).at? ["resolveUrl", name]) := by
  have husual : urls? (urlsToJson {}) = some {} := rfl
  have hdefault : (toJson {}).member? "resolveUrl" = some (urlsToJson {}) := rfl
  have htop : overrides.toJson.member? "resolveUrl" = overrides.resolveUrl.map Json.bool := by
    rw [member?_overrides]
    exact (Option.or_none.trans Option.or_none).trans
      ((Option.or_none.trans Option.or_none).trans Option.or_none)
  obtain ⟨result, hresult, hsettled⟩ := at?_layered hfile settings overrides hdefault
    (at?_of_urls? husual hname).1 rfl fun value hvalue => by
      refine ⟨(overlay_overrides hvalue).2 (by decide) (by decide), .inl ?_⟩
      rw [htop] at hvalue
      obtain ⟨b, -, rfl⟩ := Option.map_eq_some_iff.1 hvalue
      rfl
  have hurls := h.urls
  rw [hresult] at hurls
  obtain ⟨hleads, hurls⟩ := at?_of_urls? hurls hname
  exact hurls.trans (hsettled hleads)

/-- Each setting of options is what the topmost layer gives that gives it, or else the default. -/
theorem at?_of_isSetting (hfile : IsLayer (file.getD (.obj [])))
    (h : ReadFrom (layered file settings overrides) o) (hpath : IsSetting path) :
    o.toJson.at? path =
      (given? [overrides.toJson, variableLayer settings, file.getD (.obj [])] path).or
        ((toJson {}).at? path) := by
  cases hpath with
  | plain hname => exact at?_plain hfile h hname
  | package hpath => exact at?_package hfile h hpath
  | url hname => exact at?_url hfile h hname

end Layered

/-! ## Lists to which the command line adds -/

theorem texts?_textsToJson (ts : List Text) : (textsToJson ts).texts? = some ts := by
  rw [textsToJson, texts?]
  induction ts with
  | nil => rfl
  | cons t ts ih =>
    rw [List.map_cons, List.mapM_cons, ih]
    rfl

theorem texts?_overlay (lower upper : Json) :
    (Options.overlay false lower upper).texts? = upper.texts? := by
  rcases overlay_cases false lower upper with ⟨l, u, rfl, rfl⟩ | heq | ⟨_, _, _, rfl, heq⟩
  · rw [Options.overlay]
    rfl
  · rw [heq]
  · rw [heq]
    rfl

/-- A list is added to one, and replaces everything else. -/
theorem texts?_overlay_textsToJson {lower : Json} {more ts : List Text}
    (h : (Options.overlay true lower (textsToJson more)).texts? = some ts) :
    ts = lower.texts?.getD [] ++ more := by
  cases lower with
  | arr items =>
    have hmapM : (items ++ more.map Json.ofText).mapM text? = some ts := h
    have hmore : (more.map Json.ofText).mapM text? = some more := texts?_textsToJson more
    rw [List.mapM_append, hmore] at hmapM
    obtain ⟨front, hfront, heq⟩ := Option.bind_eq_some_iff.1 hmapM
    cases heq
    rw [texts?, hfront, Option.getD_some]
  | _ => exact (Option.some.inj ((texts?_textsToJson more).symm.trans h)).symm

theorem given?_singleton (layers : List Json) (hspelled : ∀ value, spelledOut name value = value) :
    given? layers [name] = (layers.filterMap (Json.member? name)).head? := by
  rw [given?]
  cases layers.filterMap (Json.member? name) with
  | nil => rfl
  | cons value rest =>
    rw [settled_cons rest (.inr rfl), hspelled]
    rfl

/-- What the layers below the command line come to for a list. -/
theorem texts?_lowerLayers (file : Json) (settings : List (Text × Text))
    (hdefault : (toJson {}).member? name = some (.arr []))
    (hspelled : ∀ value, spelledOut name value = value) :
    ∃ result, lowerLayers file settings name = some result ∧
      result.texts?.getD [] =
        ((given? [variableLayer settings, file] [name]).bind texts?).getD [] := by
  rw [given?_singleton _ hspelled, lowerLayers, List.filterMap_cons, List.filterMap_cons, hdefault]
  cases file.member? name with
  | none =>
    cases (variableLayer settings).member? name with
    | none => exact ⟨_, rfl, rfl⟩
    | some upper => exact ⟨_, rfl, congrArg (fun ts => ts.getD []) (texts?_overlay _ upper)⟩
  | some lower =>
    cases (variableLayer settings).member? name with
    | none => exact ⟨_, rfl, congrArg (fun ts => ts.getD []) (texts?_overlay _ lower)⟩
    | some upper => exact ⟨_, rfl, congrArg (fun ts => ts.getD []) (texts?_overlay _ upper)⟩

variable {overrides : Overrides} {settings : List (Text × Text)} {file : Option Json}

/-- A list of the options is that of the layers below the command line and what it adds. -/
theorem eq_append_of_texts? (hfile : IsLayer (file.getD (.obj []))) {more ts : List Text}
    (hdefault : (toJson {}).member? name = some (.arr []))
    (hspelled : ∀ value, spelledOut name value = value)
    (htop : overrides.toJson.member? name = (nonEmpty more).map textsToJson)
    (h : fieldOr [] texts? ((layered file settings overrides).member? name) = some ts) :
    ts = ((given? [variableLayer settings, file.getD (.obj [])] [name]).bind texts?).getD [] ++
      more := by
  obtain ⟨lower, hlower, hgiven⟩ := texts?_lowerLayers (file.getD (.obj [])) settings hdefault
    hspelled
  rw [member?_layered hfile, hlower, htop] at h
  rw [← hgiven]
  cases more with
  | nil =>
    have htexts : lower.texts? = some ts := h
    rw [htexts, Option.getD_some, List.append_nil]
  | cons first rest => exact texts?_overlay_textsToJson h

theorem getD_bind_paths? (value : Option Json) :
    (value.bind paths?).getD [] = ((value.bind texts?).getD []).map Path.mk := by
  cases value with
  | none => rfl
  | some value =>
    rw [Option.bind_some, Option.bind_some, paths?]
    cases value.texts? <;> rfl

theorem exists_of_fieldOr_paths? {field : Option Json} {ps : List Path}
    (h : fieldOr [] paths? field = some ps) :
    ∃ ts, fieldOr [] texts? field = some ts ∧ ps = ts.map Path.mk := by
  cases field with
  | none =>
    cases h
    exact ⟨[], rfl, rfl⟩
  | some value =>
    obtain ⟨ts, hts, rfl⟩ := Option.map_eq_some_iff.1 h
    exact ⟨ts, hts, rfl⟩

/-! ## Loading -/

/-- Each setting of the options that are loaded is what the topmost layer gives that gives it, from
the command line over the variables to the file, or else the default; a group in its short form does
not mix with others (`settled`). The lists of what is imported and included are those of the lower
layers with the command line's at their end. -/
theorem load_precedence {fs : FileSystem} {cwd : Path} {given : Option Path} {o : Options}
    (h : load fs cwd given settings overrides = .ok o) :
    ∃ file, loadFile fs cwd given = .ok file ∧
      let lower := [variableLayer settings, file.getD (.obj [])]
      (∀ path, IsSetting path → o.toJson.at? path =
        (given? (overrides.toJson :: lower) path).or ((toJson {}).at? path)) ∧
      o.imports = ((given? lower ["import"]).bind texts?).getD [] ++ overrides.imports ∧
      o.included = ((given? lower ["include"]).bind paths?).getD [] ++ overrides.included := by
  unfold load at h
  split at h
  case h_1 => cases h
  case h_2 file hload =>
    have hfile := isLayer_loadFile hload
    split at h
    case h_2 => cases h
    case h_1 o hlayers =>
      cases h
      have hread := readFrom_of_ofLayers? hlayers
      refine ⟨file, hload, fun path hpath => at?_of_isSetting hfile hread hpath, ?_, ?_⟩
      · have htop : overrides.toJson.member? "import" =
            (nonEmpty overrides.imports).map textsToJson := by
          rw [member?_overrides]
          exact Option.or_none
        exact eq_append_of_texts? hfile rfl (fun _ => rfl) htop hread.imports
      · have htop : overrides.toJson.member? "include" =
            (nonEmpty (overrides.included.map Path.text)).map textsToJson := by
          rw [member?_overrides]
          cases overrides.included <;> simp [nonEmpty, pathsToJson, textsToJson]
        obtain ⟨ts, hts, hincluded⟩ := exists_of_fieldOr_paths? hread.included
        have hlist := eq_append_of_texts? hfile rfl (fun _ => rfl) htop hts
        rw [hincluded, hlist, List.map_append, getD_bind_paths?, List.map_map]
        exact congrArg _ (List.map_id _)

/-- A configuration file with settings of both groups. -/
def kitFiles : FileSystem :=
  let content : Text := "\x7b\"include\": [\"shared\"]," ++
    "\"resolve\": \x7b\"mainFiles\": [\"start\"]\x7d, \"resolveUrl\": \x7b\"nocheck\": true\x7d\x7d"
  ((Memory.empty ⟨"/kit"⟩).add fileName (Text.utf8 content)).fileSystem

/-- A variable for a setting beside one of the file. -/
def kitSettings : List (Text × Text) := [("FOB_STYLUS_RESOLVE__MODULES", "[lib]")]

def kitOverrides : Overrides := { included := [⟨"extra"⟩], preresolve := some false }

def kitOptions : Options :=
  { included := [⟨"shared"⟩, ⟨"extra"⟩]
    preresolve := false
    packages := { mainFiles := ["start"], directories := ["lib"] }
    urls := { unchecked := true } }

theorem load_precedence_kit :
    load kitFiles ⟨"/kit"⟩ none kitSettings kitOverrides = .ok kitOptions ∧
    ∃ file, loadFile kitFiles ⟨"/kit"⟩ none = .ok file ∧
      let lower := [variableLayer kitSettings, file.getD (.obj [])]
      (∀ path, IsSetting path → kitOptions.toJson.at? path =
        (given? (kitOverrides.toJson :: lower) path).or ((toJson {}).at? path)) ∧
      kitOptions.imports =
        ((given? lower ["import"]).bind texts?).getD [] ++ kitOverrides.imports ∧
      kitOptions.included =
        ((given? lower ["include"]).bind paths?).getD [] ++ kitOverrides.included := by
  have hload : load kitFiles ⟨"/kit"⟩ none kitSettings kitOverrides = .ok kitOptions := by
    decide +kernel
  exact ⟨hload, load_precedence hload⟩

def switchedOff : Overrides := { resolveUrl := some false }

def switchedOffOptions : Options :=
  { included := [⟨"shared"⟩]
    packages := { mainFiles := ["start"] }
    urls := { enabled := false } }

/-- The command line's switch for URLs hides the settings for them that the file gives. -/
theorem not_load_beside_switch :
    ¬ ∀ (fs : FileSystem) (cwd : Path) (given : Option Path) (settings : List (Text × Text))
      (overrides : Overrides) (o : Options) (file : Option Json),
      load fs cwd given settings overrides = .ok o → loadFile fs cwd given = .ok file →
      ∀ path, IsSetting path → o.toJson.at? path =
        [overrides.toJson, variableLayer settings, file.getD (.obj []), toJson {}].findSome?
          fun layer => given? [layer] path := by
  intro h
  have hload : load kitFiles ⟨"/kit"⟩ none [] switchedOff = .ok switchedOffOptions := by
    decide +kernel
  have hgiven : ((loadFile kitFiles ⟨"/kit"⟩ none).toOption.bind fun file =>
      [switchedOff.toJson, variableLayer [], file.getD (.obj []), toJson {}].findSome?
        fun layer => given? [layer] ["resolveUrl", "nocheck"]).bind bool? = some true := by
    decide +kernel
  have hoff : (switchedOffOptions.toJson.at? ["resolveUrl", "nocheck"]).bind bool? =
      some false := by decide
  cases hfile : loadFile kitFiles ⟨"/kit"⟩ none with
  | error e =>
    rw [hfile] at hgiven
    cases hgiven
  | ok file =>
    rw [hfile] at hgiven
    rw [h _ _ _ _ _ _ file hload hfile _ (.url (by decide))] at hoff
    exact absurd (hgiven.symm.trans hoff) (by decide)

end Options

end StyleImports
