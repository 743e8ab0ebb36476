import Mathlib.Data.Set.Function
import StyleImports.Loader.Basic
import StyleImports.Proofs.Json.Write
import StyleImports.Proofs.Session.Changes

/-!
# What a fingerprint tells

Between zeros, the bytes of a fingerprint are the search directories, the switch for resolving
ahead, the root and the settings for packages (`fingerprintBytes_eq`); none of these runs holds a
zero as long as no path does, so that the bytes give the runs back (`runs_eq_of_bytes`). Options of
one fingerprint thus agree in everything it covers (`fingerprint_eq_iff`), but for one thing: a
root that is left out and an empty one leave the same run. They are told apart by requests from the
root, so that the walks agree for options that both have a root or both have none
(`walk_of_fingerprint`), and need not agree otherwise.
-/

set_option autoImplicit false

namespace StyleImports

/-! ## Bytes of a text -/

namespace Text

theorem utf8_injective : Function.Injective utf8 := by
  intro s t h
  have hbytes : List.utf8Encode s = List.utf8Encode t := congrArg List.toByteArray h
  have hstrings : String.ofList s = String.ofList t := String.toByteArray_inj.1 hbytes
  exact String.ofList_inj.1 hstrings

theorem eq_of_zero_mem_utf8EncodeChar {c : Char} (h : 0 ∈ String.utf8EncodeChar c) :
    c = '\x00' := by
  have hval : c.val.toNat = 0 := by
    unfold String.utf8EncodeChar at h
    simp only at h
    split_ifs at h <;>
      simp only [List.mem_cons, List.not_mem_nil, or_false, ← UInt8.toNat_inj,
        UInt8.toNat_ofNat', UInt8.toNat_ofNat] at h <;>
      omega
  exact Char.ext (UInt32.toNat_inj.1 hval)

theorem zero_notMem_utf8 {t : Text} (h : '\x00' ∉ t) : 0 ∉ utf8 t := by
  intro hzero
  obtain ⟨c, hc, hmem⟩ := List.mem_flatMap.1 hzero
  rw [eq_of_zero_mem_utf8EncodeChar hmem] at hc
  exact h hc

end Text

namespace Options

/-! ## The settings for packages -/

theorem compact_packagesToJson (o : PackageOptions) :
    Json.compact (packagesToJson o) =
      "\x7b\x22alias\x22:".toList ++
        (Json.compact (.ofMembers (o.aliases.map fun entry => (entry.1, Json.ofText entry.2))) ++
      (",\x22conditionNames\x22:".toList ++ (Json.compact (textsToJson o.conditions) ++
      (",\x22mainFields\x22:".toList ++ (Json.compact (textsToJson o.mainFields) ++
      (",\x22mainFiles\x22:".toList ++ (Json.compact (textsToJson o.mainFiles) ++
      (",\x22extensions\x22:".toList ++ (Json.compact (textsToJson o.extensions) ++
      (",\x22modules\x22:".toList ++ (Json.compact (textsToJson o.directories) ++
      ['\x7d']))))))))))) := by
  simp only [packagesToJson, Json.ofMembers, List.map_cons, List.map_nil, Json.compact,
    Json.compactMembers, Json.commas, Text.joinWith, Json.writeString, Option.map_some,
    Option.getD_some, List.append_assoc, List.cons_append]
  rfl

theorem packagesToJson_injective {o o' : PackageOptions}
    (h : Json.compact (packagesToJson o) = Json.compact (packagesToJson o')) : o = o' := by
  rw [compact_packagesToJson, compact_packagesToJson] at h
  obtain ⟨haliases, h⟩ := Json.prefixFree_textMembers (List.append_cancel_left h)
  obtain ⟨hconditions, h⟩ := Json.prefixFree_texts (List.append_cancel_left h)
  obtain ⟨hfields, h⟩ := Json.prefixFree_texts (List.append_cancel_left h)
  obtain ⟨hfiles, h⟩ := Json.prefixFree_texts (List.append_cancel_left h)
  obtain ⟨hextensions, h⟩ := Json.prefixFree_texts (List.append_cancel_left h)
  obtain ⟨hdirectories, -⟩ := Json.prefixFree_texts (List.append_cancel_left h)
  cases o
  cases o'
  simp_all

theorem isPrintable_packagesToJson (o : PackageOptions) :
    Json.IsPrintable (Json.compact (packagesToJson o)) := by
  rw [compact_packagesToJson]
  have hname {name rest : Text} (h : name.all fun c => 0x20 ≤ c.toNat)
      (hrest : Json.IsPrintable rest) : Json.IsPrintable (name ++ rest) :=
    .append (by simpa [Json.IsPrintable] using h) hrest
  have htexts (ts : List Text) {rest : Text} (hrest : Json.IsPrintable rest) :
      Json.IsPrintable (Json.compact (textsToJson ts) ++ rest) :=
    (Json.isPrintable_texts ts).append hrest
  refine hname rfl ((Json.isPrintable_textMembers _).append ?_)
  refine hname rfl (htexts _ (hname rfl (htexts _ (hname rfl (htexts _ ?_)))))
  refine hname rfl (htexts _ (hname rfl (htexts _ ?_)))
  exact .cons (by decide) (by simp [Json.IsPrintable])

/-! ## The parts between zeros -/

/-- No search directory and no root holds a zero character. -/
def HasNoZero (o : Options) : Prop :=
  (∀ p ∈ o.searchPaths, '\x00' ∉ p.text) ∧ ∀ root ∈ o.rootRequest, '\x00' ∉ root

instance (o : Options) : Decidable o.HasNoZero :=
  inferInstanceAs (Decidable ((∀ p ∈ o.searchPaths, '\x00' ∉ p.text) ∧
    ∀ root ∈ o.rootRequest, '\x00' ∉ root))

/-- The switch for resolving ahead as runs: a byte one, or a zero that parts two empty runs. -/
def switchRuns (preresolve : Bool) : List Bytes := if preresolve then [[1]] else [[], []]

/-- What the zeros in the bytes of a fingerprint part. -/
def runs (o : Options) : List Bytes :=
  (o.searchPaths.map fun p => Text.utf8 p.text) ++ switchRuns o.preresolve ++
    [Text.utf8 (o.rootRequest.getD []), Text.utf8 (Json.compact (packagesToJson o.packages))]

theorem intercalate_append (parts : List Bytes) {rest : List Bytes} (h : rest ≠ []) :
    [0].intercalate (parts ++ rest) =
      (parts.flatMap fun p => p ++ [0]) ++ [0].intercalate rest := by
  induction parts with
  | nil => rfl
  | cons part parts ih =>
    have hne : parts ++ rest ≠ [] := List.append_ne_nil_of_right_ne_nil _ h
    rw [List.cons_append, List.intercalate_cons_of_ne_nil hne, ih, List.flatMap_cons]
    simp only [List.append_assoc]

theorem fingerprintBytes_eq (o : Options) : o.fingerprintBytes = [0].intercalate o.runs := by
  have hne (last : List Bytes) (a b : Bytes) : last ++ [a, b] ≠ [] :=
    List.append_ne_nil_of_right_ne_nil _ (List.cons_ne_nil _ _)
  rw [runs, List.append_assoc, intercalate_append _ (hne _ _ _), List.flatMap_map]
  unfold fingerprintBytes switchRuns
  cases o.preresolve <;> simp [List.intercalate_cons_of_ne_nil]

theorem zero_notMem_of_mem_runs {o : Options} (h : o.HasNoZero) {run : Bytes}
    (hrun : run ∈ o.runs) : 0 ∉ run := by
  obtain ⟨hpaths, hroot⟩ := h
  simp only [runs, List.append_assoc, List.mem_append, List.mem_map, List.mem_cons,
    List.not_mem_nil, or_false] at hrun
  rcases hrun with ⟨p, hp, rfl⟩ | hswitch | rfl | rfl
  · exact Text.zero_notMem_utf8 (hpaths p hp)
  · unfold switchRuns at hswitch
    split at hswitch <;> simp_all
  · refine Text.zero_notMem_utf8 ?_
    cases hr : o.rootRequest with
    | none => simp
    | some root => exact hroot root hr
  · refine Text.zero_notMem_utf8 fun hzero => ?_
    exact absurd (isPrintable_packagesToJson _ _ hzero) (by decide)

theorem runs_eq_of_bytes {o o' : Options} (h : o.HasNoZero) (h' : o'.HasNoZero)
    (hbytes : o.fingerprintBytes = o'.fingerprintBytes) : o.runs = o'.runs := by
  have hne (o : Options) : o.runs ≠ [] :=
    List.append_ne_nil_of_right_ne_nil _ (List.cons_ne_nil _ _)
  have hsplit (o : Options) (h : o.HasNoZero) : o.fingerprintBytes.splitOn 0 = o.runs := by
    rw [fingerprintBytes_eq]
    exact List.splitOn_intercalate 0 (fun _ => zero_notMem_of_mem_runs h) (hne o)
  rw [← hsplit o h, ← hsplit o' h', hbytes]

theorem switch_eq_of_runs {ps ps' : List Bytes} {b b' : Bool}
    (h : ps ++ switchRuns b = ps' ++ switchRuns b') : ps = ps' ∧ b = b' := by
  have hlast := congrArg List.getLast? h
  cases b <;> cases b' <;> simp [switchRuns] at hlast h ⊢
  all_goals exact h

/-- What a fingerprint covers. -/
theorem fingerprint_eq_iff {o o' : Options} (h : o.HasNoZero) (h' : o'.HasNoZero)
    (hash : Set.InjOn Sha256.hex {o.fingerprintBytes, o'.fingerprintBytes}) :
    o.fingerprint = o'.fingerprint ↔
      o.searchPaths = o'.searchPaths ∧ o.preresolve = o'.preresolve ∧
        o.rootRequest.getD [] = o'.rootRequest.getD [] ∧ o.packages = o'.packages := by
  constructor
  · intro heq
    have hbytes : o.fingerprintBytes = o'.fingerprintBytes := hash (by simp) (by simp) heq
    have hruns := runs_eq_of_bytes h h' hbytes
    obtain ⟨hfront, hback⟩ := List.append_inj' hruns rfl
    obtain ⟨hpaths, hswitch⟩ := switch_eq_of_runs hfront
    simp only [List.cons.injEq, and_true] at hback
    have hinj : Function.Injective fun p : Path => Text.utf8 p.text := fun p q hpq =>
      congrArg Path.mk (Text.utf8_injective hpq)
    exact ⟨List.map_injective_iff.2 hinj hpaths, hswitch, Text.utf8_injective hback.1,
      packagesToJson_injective (Text.utf8_injective hback.2)⟩
  · rintro ⟨hpaths, hswitch, hroot, hpackages⟩
    simp only [fingerprint, fingerprintBytes, hpaths, hswitch, hroot, hpackages]

end Options

/-! ## Walks with options of one fingerprint -/

namespace Loader

/-- The walks with options of one fingerprint are the same, with any cache; the resolvers may be
built from the settings for packages. -/
theorem walk_of_fingerprint {o o' : Options} (h : o.HasNoZero) (h' : o'.HasNoZero)
    (hroot : o.root.isSome = o'.root.isSome)
    (hash : Set.InjOn Sha256.hex {o.fingerprintBytes, o'.fingerprintBytes})
    (heq : o.fingerprint = o'.fingerprint) (fs : FileSystem)
    (resolvers : PackageOptions → Resolvers) (budget : Nat) (cache : Option Cache) (entry : Path)
    (source : Text) :
    Walk.fromSource (Loader.mk fs o (resolvers o.packages)).setting budget cache entry source =
      Walk.fromSource (Loader.mk fs o' (resolvers o'.packages)).setting budget cache entry
        source := by
  obtain ⟨hpaths, -, hrequest, hpackages⟩ := (Options.fingerprint_eq_iff h h' hash).1 heq
  have hroots : o.rootRequest = o'.rootRequest := by
    unfold Options.rootRequest at hrequest ⊢
    cases hr : o.root <;> cases hr' : o'.root <;> simp_all
  simp only [Loader.setting, hpaths, hroots, hpackages, heq]

theorem injOn_hex_of_bytes {o o' : Options} (h : o.fingerprintBytes = o'.fingerprintBytes) :
    Set.InjOn Sha256.hex {o.fingerprintBytes, o'.fingerprintBytes} := by
  rw [h, Set.pair_eq_singleton]
  exact Set.injOn_singleton _ _

/-- A loader without packages over some files, whose resolver knows the given answers. -/
def answering (files : List (Text × Text)) (answers : List (Text × List Path)) (o : Options) :
    Loader :=
  ⟨(Memory.ofTexts "/p" files).fileSystem, o,
    ⟨(RequestTable.mk answers).resolver, RequestTable.empty.resolver⟩⟩

/-! ## A search directory that is configured in two ways -/

def pathOptions : Options := { paths := [⟨"/lib".toList⟩], root := some ⟨"/w".toList⟩ }

def includeOptions : Options :=
  { included := [⟨"/lib".toList⟩], root := some ⟨"/w".toList⟩, includeCss := true }

theorem walk_of_fingerprint_included :
    pathOptions ≠ includeOptions ∧ pathOptions.HasNoZero ∧ includeOptions.HasNoZero ∧
    Set.InjOn Sha256.hex {pathOptions.fingerprintBytes, includeOptions.fingerprintBytes} ∧
    pathOptions.fingerprint = includeOptions.fingerprint ∧
    Walk.fromSource (answering [("/lib/a.styl", "a\n")] [] pathOptions).setting 9 none
        ⟨"/p/main.styl".toList⟩ "@import 'a'" =
      Walk.fromSource (answering [("/lib/a.styl", "a\n")] [] includeOptions).setting 9 none
        ⟨"/p/main.styl".toList⟩ "@import 'a'" := by
  have hbytes : pathOptions.fingerprintBytes = includeOptions.fingerprintBytes := by
    decide +kernel
  have hpath : pathOptions.HasNoZero := by decide +kernel
  have hinclude : includeOptions.HasNoZero := by decide +kernel
  have hash := injOn_hex_of_bytes hbytes
  have heq : pathOptions.fingerprint = includeOptions.fingerprint := congrArg Sha256.hex hbytes
  refine ⟨by decide, hpath, hinclude, hash, heq, ?_⟩
  exact walk_of_fingerprint hpath hinclude rfl hash heq _ (fun _ => ⟨_, _⟩) 9 none _ _

/-! ## No root and an empty one -/

def rootlessOptions : Options := {}

def emptyRootOptions : Options := { root := some ⟨[]⟩ }

/-- Its resolver knows the request that a specifier from the root is without a root. -/
def rootlessAnswering (o : Options) : Loader :=
  answering [("/lib/a.styl", "a\n")] [(".//a.styl", [⟨"/lib/a.styl".toList⟩])] o

/-- Both leave an empty run, but only a root that is there is put before a request. -/
theorem not_walk_of_fingerprint :
    rootlessOptions.HasNoZero ∧ emptyRootOptions.HasNoZero ∧
    Set.InjOn Sha256.hex {rootlessOptions.fingerprintBytes, emptyRootOptions.fingerprintBytes} ∧
    rootlessOptions.fingerprint = emptyRootOptions.fingerprint ∧
    Walk.fromSource (rootlessAnswering rootlessOptions).setting 9 none ⟨"/p/main.styl".toList⟩
        "@import '/a.styl'" ≠
      Walk.fromSource (rootlessAnswering emptyRootOptions).setting 9 none ⟨"/p/main.styl".toList⟩
        "@import '/a.styl'" := by
  have hbytes : rootlessOptions.fingerprintBytes = emptyRootOptions.fingerprintBytes := rfl
  refine ⟨by decide, by decide, injOn_hex_of_bytes hbytes, congrArg Sha256.hex hbytes, ?_⟩
  intro heq
  have hfiles := congrArg (Option.map fun outcome => outcome.1.files.toList) heq
  revert hfiles
  decide +kernel

/-! ## A zero in a search directory -/

def twoPathOptions : Options := { paths := [⟨"/a".toList⟩, ⟨"/b".toList⟩] }

def zeroPathOptions : Options := { paths := [⟨"/a\x00/b".toList⟩] }

/-- The zero in one search directory parts the bytes as the end of another one does. -/
theorem not_walk_of_fingerprint_zero :
    Set.InjOn Sha256.hex {twoPathOptions.fingerprintBytes, zeroPathOptions.fingerprintBytes} ∧
    twoPathOptions.fingerprint = zeroPathOptions.fingerprint ∧
    Walk.fromSource (answering [("/a/c.styl", "a\n")] [] twoPathOptions).setting 9 none
        ⟨"/p/main.styl".toList⟩ "@import 'c'" ≠
      Walk.fromSource (answering [("/a/c.styl", "a\n")] [] zeroPathOptions).setting 9 none
        ⟨"/p/main.styl".toList⟩ "@import 'c'" := by
  have hbytes : twoPathOptions.fingerprintBytes = zeroPathOptions.fingerprintBytes := rfl
  refine ⟨injOn_hex_of_bytes hbytes, congrArg Sha256.hex hbytes, ?_⟩
  intro heq
  have hfiles := congrArg (Option.map fun outcome => outcome.1.files.toList) heq
  revert hfiles
  decide +kernel

end Loader

end StyleImports
