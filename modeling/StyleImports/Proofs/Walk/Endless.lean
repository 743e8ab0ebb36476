import Mathlib.Data.Set.Finite.Basic
import StyleImports.Proofs.Path.Parent
import StyleImports.Proofs.Walk.Climbing

/-!
# Walks that do not end

In a plain setting a walk terminates exactly if its entry leads to finitely many paths
(`terminates_iff_finite`), so endlessly many paths of one file are enough for a walk without an end.
A file below a directory that is called like a drive has them if it is named by the drive and its
pattern leads back to it past the root (`not_terminates_drive`): each path of the file leads to one
that climbs further (`mem_targets_driveFile`), and all of them are the same place.
-/

set_option autoImplicit false

namespace StyleImports.Walk

variable {s : Setting} {entry : Path} {source : Text}

theorem terminates_iff_finite (hs : s.IsPlain) :
    Terminates s entry source ↔
      {p | Found s (s.fs.cwd.absoluteFrom entry) source p}.Finite := by
  constructor
  · rintro ⟨_, _, budget, w, cache, hw⟩
    obtain ⟨c, hc, hdone, _⟩ := reachable_of_fromSource hw
    exact (List.finite_toSet c.state.seen).subset fun p hp => (mem_seen_iff hs hc hdone).2 hp
  · intro hfinite
    refine terminates_of_claimed hfinite.toFinset.toList fun c hc p hp => ?_
    rw [Finset.mem_toList, hfinite.mem_toFinset]
    exact (Inv.of_reachable hc).grown.found p hp

/-! ## A drive below the working directory -/

/-- A pattern that climbs to the root and goes on to the directory of its file. -/
def drivePattern : Text := "../../../p/C:/*.styl"

/-- The content of the file. -/
def driveText : Text := "@import '" ++ drivePattern ++ "'"

/-- A file below a directory that is called like a drive, with a pattern that leads back to it past
the root. -/
def driveFiles : Memory :=
  (Memory.empty ⟨"/p".toList⟩).add ⟨"C:/x.styl".toList⟩
    (Text.utf8 driveText)

def drive : Setting where
  fs := driveFiles.fileSystem
  resolvers := ⟨RequestTable.empty.resolver, RequestTable.empty.resolver⟩
  options := ⟨[], none, []⟩

/-- An entry that names the file by its drive. -/
def driveSource : Text := "@import 'C:/x'"

/-- The names of the directory of the file. -/
def driveNames : List Part := [.name "p", .name "C:"]

/-- A path of the directory that climbs so far and two more. -/
def driveDir (count : Nat) : Path := .ofParts (List.replicate (count + 2) .up ++ driveNames)

/-- The path of the file below it. -/
def driveFile (count : Nat) : Path := (driveDir count).join ⟨"x.styl".toList⟩

theorem isName_driveNames : ∀ part ∈ driveNames, part.IsName := by decide

theorem parts_driveDir (count : Nat) :
    (driveDir count).parts = List.replicate (count + 2) .up ++ driveNames :=
  Path.parts_ofParts (Path.spelled_of_isSegment (Part.isSegment_of_mem_ups isName_driveNames))

theorem text_driveDir (count : Nat) : (driveDir count).text ≠ [] :=
  Path.text_ne_nil_of_parts (by rw [parts_driveDir]; simp [driveNames])

theorem isCanonical_driveDir (count : Nat) : (driveDir count).IsCanonical :=
  Path.isCanonical_ofParts (Path.spelled_of_isSegment (Part.isSegment_of_mem_ups isName_driveNames))

theorem parts_driveFile (count : Nat) :
    (driveFile count).parts =
      List.replicate (count + 2) .up ++ (driveNames ++ [.name "x.styl"]) := by
  rw [driveFile, ((isCanonical_driveDir count).join (by decide) (by decide)).2, parts_driveDir,
    List.append_assoc]
  rfl

theorem isReported_driveFile (count : Nat) : (driveFile count).IsReported := by
  have hcanonical := ((isCanonical_driveDir count).join (n := "x.styl") (by decide) (by decide)).1
  refine ⟨hcanonical, hcanonical.isPlain fun n hn => ?_⟩
  have hnames : ∀ part ∈ driveNames ++ [.name "x.styl"], '\\' ∉ part.text := by decide
  rw [← driveFile, parts_driveFile, List.mem_append] at hn
  exact hnames _ (hn.resolve_left fun hups => by cases List.eq_of_mem_replicate hups)

theorem directoryOf_driveFile (count : Nat) :
    Setting.directoryOf (driveFile count) = driveDir count := by
  have hdir : driveDir count =
      (Path.ofParts (List.replicate (count + 2) .up ++ [.name "p"])).join ⟨"C:".toList⟩ := by
    rw [driveDir, driveNames, List.append_cons]
    exact Path.ofParts_append_singleton _ (Part.name "C:")
  have hname : Part.IsName (.name "p") := by decide
  have hfirst : Path.ofParts (List.replicate (count + 2) .up ++ [.name "p"]) =
      (Path.ofParts (List.replicate (count + 2) .up)).join ⟨"p".toList⟩ :=
    Path.ofParts_append_singleton _ (Part.name "p")
  have hlast : (Path.ofParts (List.replicate (count + 2) .up ++ [.name "p"])).text.getLast? ≠
      some '/' := by
    rw [hfirst, Path.getLast?_join hname]
    decide
  have htext : (Path.ofParts (List.replicate (count + 2) .up ++ [.name "p"])).text ≠ [] := by
    intro h
    rw [hfirst] at h
    have := Path.getLast?_join (p := Path.ofParts (List.replicate (count + 2) .up)) hname
    rw [h] at this
    cases this
  rw [Setting.directoryOf, driveFile, hdir,
    Path.parent?_join_join htext hlast (by decide) (by decide), Option.getD_some]

theorem place_of_ups {p : Path} {names : List Part} {count : Nat}
    (hp : p.parts = List.replicate (count + 1) .up ++ names)
    (hnames : ∀ part ∈ names, part.IsName) :
    driveFiles.place p = .ofParts (.root :: names) := by
  rw [Nat.add_comm] at hp
  exact Path.cleanFrom_of_ups (show driveFiles.cwd.parts = .root :: [.name "p"] from rfl)
    (by decide) hp hnames

theorem place_driveDir (count : Nat) :
    driveFiles.place (driveDir count) = driveFiles.place ⟨"/p/C:".toList⟩ :=
  (place_of_ups (parts_driveDir count) isName_driveNames).trans (by decide +kernel)

theorem place_driveFile (count : Nat) :
    driveFiles.place (driveFile count) = driveFiles.place ⟨"/p/C:/x.styl".toList⟩ :=
  (place_of_ups (parts_driveFile count) (by decide)).trans (by decide +kernel)

theorem isPattern_driveFile (count : Nat) :
    drive.isPattern (driveFile count) drivePattern = true := by
  have hups : (Path.mk drivePattern).parts =
      List.replicate (driveNames.length + 1) .up ++ (driveNames ++ [.name "*.styl"]) := by
    decide +kernel
  have hnames : ∀ part ∈ driveNames ++ [.name "*.styl"], part.IsName := by decide
  have hclean := Path.clean_join_of_ups (parts_driveDir count) isName_driveNames
    (text_driveDir count) hups hnames (by simp)
  have hparts : (Path.ofParts (List.replicate (count + 2 + 1) .up ++
      (driveNames ++ [.name "*.styl"]))).parts = _ :=
    Path.parts_ofParts (Path.spelled_of_isSegment (Part.isSegment_of_mem_ups hnames))
  have hplace : driveFiles.place ((driveDir count).join ⟨drivePattern⟩).clean =
      driveFiles.place ⟨"/p/C:/*.styl".toList⟩ := by
    rw [hclean]
    exact (place_of_ups hparts hnames).trans (by decide +kernel)
  have hstat := (Memory.fileSystem_congr hplace).2.1
  rw [Setting.isPattern, directoryOf_driveFile, Glob.isRequest, FileSystem.isDirectory,
    FileSystem.isFile]
  simp only [drive, hstat]
  decide +kernel

/-- The directory of the pattern is the same one, but climbs further. -/
theorem resolveBase_driveFile (count : Nat) :
    drive.resolveBase (driveFile count) "../../../p/C:".toList = .ok (driveDir (count + 1)) := by
  have hups : (Path.mk "../../../p/C:".toList).parts =
      List.replicate (driveNames.length + 1) .up ++ driveNames := by decide +kernel
  have hclean := Path.clean_join_of_ups (parts_driveDir count) isName_driveNames
    (text_driveDir count) hups isName_driveNames (by simp [driveNames])
  have hbeside : ((driveDir count).join ⟨"../../../p/C:".toList⟩).clean = driveDir (count + 1) :=
    hclean
  have hstat := (Memory.fileSystem_congr (place_driveDir (count + 1))).2.1
  have hdirectory : drive.fs.isDirectory (driveDir (count + 1)) = true := by
    rw [FileSystem.isDirectory]
    simp only [drive, hstat]
    decide +kernel
  have hmodule : Specifier.isModule "../../../p/C:" = false := by decide +kernel
  have hanswer : Request.resolveAll drive.resolvers.context (driveDir count) "../../../p/C:"
      (Request.candidates "../../../p/C:" drive.options.root) =
        .error (.notFound "../../../p/C:" (driveDir count) "no mapping") := by
    rw [show Request.candidates "../../../p/C:" drive.options.root = ["../../../p/C:".toList] by
      decide +kernel]
    rfl
  simp only [Setting.resolveBase, directoryOf_driveFile, hanswer, hbeside, hmodule, hdirectory,
    Bool.not_true, Bool.or_self, Bool.false_eq_true, if_false]

theorem expand_driveDir (count : Nat) :
    Glob.expand drive.fs (driveDir count) "*.styl" = .ok [driveFile count] := by
  have hlist : drive.fs.list (driveDir count) = .ok ["x.styl".toList] :=
    (Memory.fileSystem_congr (place_driveDir count)).2.2.trans (by decide +kernel)
  have hstat : drive.fs.stat (driveFile count) =
      .ok (.file (Text.utf8 driveText).length) :=
    (Memory.fileSystem_congr (place_driveFile count)).2.1.trans (by decide +kernel)
  have hdepth : drive.fs.depth = 4 := by decide +kernel
  have hpatterns : Glob.readPatterns "*.styl" =
      .ok [.star :: ".styl".toList.map .char] := by decide +kernel
  have hlimit : Glob.depthLimit "*.styl" = some 1 := by decide +kernel
  have hmatches : (Glob.isStylesheetName "x.styl" &&
      [.star :: ".styl".toList.map .char].any (Glob.matchesPath · "x.styl")) = true := by
    decide +kernel
  rw [Glob.expand, hpatterns, hdepth, hlimit]
  simp only [Glob.search, hlist, List.foldl_cons, List.foldl_nil]
  rw [← driveFile, hstat]
  simp only [List.nil_append, hmatches, if_true]
  rfl

theorem resolve_driveFile (count : Nat) (i : Sheet.Import) (hi : i.specifier = drivePattern) :
    (drive.resolve (driveFile count) i).dependency.target = .single (driveFile (count + 1)) := by
  have hglob : (Glob.ofSpecifier drivePattern).requireBase = .ok "../../../p/C:".toList := by
    decide +kernel
  have hpattern : (Glob.ofSpecifier drivePattern).pattern = "*.styl".toList := by decide +kernel
  have hreported := (isReported_driveFile (count + 1)).asDependency_eq
  rw [Setting.resolve, hi, isPattern_driveFile, if_pos rfl]
  simp only [Setting.resolvePattern, hglob, resolveBase_driveFile, Setting.expandBelow, hpattern,
    expand_driveDir, Setting.targetOf, List.map_cons, List.map_nil, hreported, Target.ofPaths]

/-- Each of the paths leads to the next one. -/
theorem mem_targets_driveFile (count : Nat) :
    driveFile (count + 1) ∈
      (drive.readingOf ⟨"/p/main.styl".toList⟩ driveSource (driveFile count)).targets := by
  have hother : (driveFile count).same ⟨"/p/main.styl".toList⟩ = false := by
    rw [Path.same, parts_driveFile, List.replicate_succ, List.cons_append]
    exact decide_eq_false fun h => by cases (List.cons.inj h).1
  have hbytes : drive.fs.read (driveFile count) = .ok (Text.utf8 driveText) :=
    (Memory.fileSystem_congr (place_driveFile count)).1.trans (by decide +kernel)
  have htext : Text.ofUtf8 (Text.utf8 driveText) = .ok driveText := by decide +kernel
  have hcontent : drive.contentOf ⟨"/p/main.styl".toList⟩ driveSource (driveFile count) =
      .ok driveText := by
    rw [Setting.contentOf, hother, if_neg Bool.false_ne_true, FileSystem.readText]
    simp only [hbytes, htext]
  have himport : ∃ i ∈ Setting.importsIn (.ok driveText), i.specifier = drivePattern := by
    decide +kernel
  obtain ⟨i, hi, hspecifier⟩ := himport
  rw [Setting.readingOf, hcontent]
  refine Setting.mem_targets_reading.2 ⟨i, hi, ?_⟩
  rw [resolve_driveFile count i hspecifier]
  exact List.mem_cons_self

theorem isPlain_drive : drive.IsPlain where
  fs := Memory.isPlain_fileSystem (by decide +kernel)
  file _ _ _ h := by cases h
  context _ _ _ h := by cases h

/-- The walk claims the same file under one path after the other. -/
theorem not_terminates_drive : ¬ Terminates drive ⟨"/p/main.styl".toList⟩ driveSource := by
  have hentry : drive.fs.cwd.absoluteFrom ⟨"/p/main.styl".toList⟩ = ⟨"/p/main.styl".toList⟩ := by
    decide +kernel
  have hfound : ∀ count, Found drive ⟨"/p/main.styl".toList⟩ driveSource (driveFile count) := by
    intro count
    induction count with
    | zero =>
      have hnamed : ⟨"C:/x.styl".toList⟩ ∈
          (drive.readingOf ⟨"/p/main.styl".toList⟩ driveSource
            ⟨"/p/main.styl".toList⟩).targets := by
        decide +kernel
      have hfirst : driveFile 0 ∈
          (drive.readingOf ⟨"/p/main.styl".toList⟩ driveSource ⟨"C:/x.styl".toList⟩).targets := by
        decide +kernel
      exact .target (.target .entry hnamed) hfirst
    | succ count ih => exact .target ih (mem_targets_driveFile count)
  have hinjective : Function.Injective driveFile := fun i j hij => by
    have hlength := congrArg (fun p : Path => p.parts.length) hij
    simp only [parts_driveFile, List.length_append, List.length_replicate] at hlength
    omega
  rw [terminates_iff_finite isPlain_drive, hentry]
  exact Set.infinite_of_injective_forall_mem hinjective hfound

end StyleImports.Walk
