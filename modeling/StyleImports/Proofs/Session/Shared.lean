import StyleImports.Loader.Basic
import StyleImports.Proofs.Walk.Closure
import StyleImports.Proofs.Walk.Stores

/-!
# What a shared cache keeps

Walks and compilations may share a cache, each with files and options of its own; between them the
cache may be asked, and entries may be dropped (`Cache.Use`). Nothing else is kept then but what one
of the walks has stored (`Cache.StoredBy`): records that all led somewhere, of imports none of which
is a pattern. So a walk resolves a file afresh if one of its imports is a pattern or if one of its
records failed, and then the next walk does too (`Cache.provenance`).
-/

set_option autoImplicit false

namespace StyleImports

open Setting (importsIn)
open Walk (freshOf isCacheable entriesOf Stored Entered Answerable)

/-- What a walk is made with. -/
structure WalkCall where
  setting : Setting
  budget : Nat
  entry : Path
  source : Text

namespace WalkCall

/-- The path of the entry of a walk. -/
def root (call : WalkCall) : Path := call.setting.fs.cwd.absoluteFrom call.entry

/-- The content of a file for a walk. -/
def contentOf (call : WalkCall) (file : Path) : Except FileError Text :=
  call.setting.contentOf call.root call.source file

/-- What the imports of a file come to when they are resolved in a walk. -/
def freshOf (call : WalkCall) (file : Path) : List Dependency :=
  Walk.freshOf call.setting file (importsIn (call.contentOf file))

def run (call : WalkCall) (cache : Cache) : Option (Walk × Option Cache) :=
  Walk.fromSource call.setting call.budget (some cache) call.entry call.source

end WalkCall

namespace Cache

/-- What is done with a shared cache. -/
inductive Use where
  | walk (call : WalkCall)
  | compile (l : Loader) (budget : Nat) (entry : Path) (source : Text)
  | get (file : Path) (content options : Text) (targetExists : Path → Bool)
  | invalidate (file : Path)
  | clear

namespace Use

def apply (cache : Cache) : Use → Cache
  | walk call => ((call.run cache).bind Prod.snd).getD cache
  | compile l budget entry source => (l.compile budget (some cache) entry source).2.getD cache
  | get file content options targetExists => (cache.get file content options targetExists).2
  | invalidate file => cache.erase file
  | clear => cache.clear

/-- The walk that a use makes. -/
def call? : Use → Option WalkCall
  | walk call => some call
  | compile l budget entry source =>
    if l.options.preresolve then some ⟨l.setting, budget, l.absolute entry, l.prepare source⟩
    else none
  | _ => none

end Use

/-- The cache after some uses, the first of them with an empty cache. -/
def afterUses (uses : List Use) : Cache := uses.foldl Use.apply empty

/-- One of some uses has made a walk that stored an entry for a file. -/
def StoredBy (uses : List Use) (file : Path) (kept : CacheEntry) : Prop :=
  ∃ before use after call w cache, uses = before ++ use :: after ∧ use.call? = some call ∧
    call.run (afterUses before) = some (w, some cache) ∧ (file, kept) ∈ cache.entries.entries ∧
    Stored call.setting call.root call.source w.index file kept

variable {cache : Cache} {use : Use} {uses : List Use} {file : Path} {kept : CacheEntry}

/-! ## One use -/

theorem Use.apply_of_call {call : WalkCall} (h : use.call? = some call) :
    use.apply cache = ((call.run cache).bind Prod.snd).getD cache := by
  cases use with
  | walk other =>
    cases h
    rfl
  | compile l budget entry source =>
    rw [call?] at h
    split at h
    case isTrue hahead =>
      cases h
      simp only [apply, Loader.compile, hahead, if_true, WalkCall.run]
      cases Walk.fromSource l.setting budget (some cache) (l.absolute entry)
        (l.prepare source) <;> rfl
    case isFalse => cases h
  | get => cases h
  | invalidate => cases h
  | clear => cases h

theorem Use.mem_of_no_call (h : use.call? = none) {e : Path × CacheEntry}
    (he : e ∈ (use.apply cache).entries.entries) : e ∈ cache.entries.entries := by
  cases use with
  | walk call => cases h
  | compile l budget entry source =>
    rw [call?] at h
    split at h
    case isTrue => cases h
    case isFalse hnot =>
      rw [apply, Loader.compile, if_neg hnot] at he
      exact he
  | get => exact mem_entries_get he
  | invalidate file => exact (List.mem_filter.1 he).1
  | clear => cases he

/-- What is kept after a use was kept before, or a walk of the use has stored it. -/
theorem Use.mem_entries_apply {e : Path × CacheEntry}
    (he : e ∈ (use.apply cache).entries.entries) : e ∈ cache.entries.entries ∨
      ∃ call w cache', use.call? = some call ∧ call.run cache = some (w, some cache') ∧
        e ∈ cache'.entries.entries ∧
        Stored call.setting call.root call.source w.index e.1 e.2 := by
  cases hcall : use.call? with
  | none => exact .inl (mem_of_no_call hcall he)
  | some call =>
    rw [apply_of_call hcall] at he
    cases hrun : call.run cache with
    | none =>
      rw [hrun] at he
      exact .inl he
    | some outcome =>
      obtain ⟨w, kept⟩ := outcome
      rw [hrun] at he
      cases kept with
      | none => exact .inl he
      | some cache' =>
        refine ((Walk.stored_of_fromSource hrun).1 e he).imp_right fun hstored => ?_
        exact ⟨call, w, cache', rfl, hrun, he, hstored⟩

/-! ## Many uses -/

/-- All that is kept after some uses was stored by one of their walks. -/
theorem storedBy_of_mem (uses : List Use) :
    ∀ e ∈ (afterUses uses).entries.entries, StoredBy uses e.1 e.2 := by
  induction uses using List.reverseRecOn with
  | nil => exact nofun
  | append_singleton uses use ih =>
    intro e he
    have hlast : afterUses (uses ++ [use]) = use.apply (afterUses uses) := List.foldl_concat ..
    rw [hlast] at he
    rcases Use.mem_entries_apply he with he | ⟨call, w, cache', hcall, hrun, hkept, hstored⟩
    · obtain ⟨before, first, after, call, w, cache', heq, hrest⟩ := ih e he
      refine ⟨before, first, after ++ [use], call, w, cache', ?_, hrest⟩
      rw [heq]
      simp
    · exact ⟨uses, use, [], call, w, cache', rfl, hcall, hrun, hkept, hstored⟩

theorem isResolved_afterUses (uses : List Use) : (afterUses uses).IsResolved := by
  intro e he
  obtain ⟨_, _, _, _, _, _, _, _, _, _, hstored⟩ := storedBy_of_mem uses e he
  exact hstored.resolved

/-- How a walk comes to the records of a file, given the caches before and after it. -/
structure ResolvesAfresh (call : WalkCall) (before after : Cache)
    (e : Path × List Dependency) : Prop where
  /-- The imports are resolved if one of them is a pattern. -/
  dynamic : (∃ i ∈ importsIn (call.contentOf e.1), Glob.isDynamic i.specifier = true) →
    e.2 = call.freshOf e.1
  /-- They were if one of the records failed. -/
  failed : (∃ d ∈ e.2, d.target.isFailed = true) → e.2 = call.freshOf e.1
  /-- They are if the cache keeps nothing for the content and the options. -/
  unkept : (∀ text, call.contentOf e.1 = .ok text →
    before.entryFor e.1 (Sha256.ofText text) call.setting.options.fingerprint = none) →
    e.2 = call.freshOf e.1
  /-- If one of the records failed, the cache keeps nothing for the content and the options after
  it, unless the walk could not ask it for a pattern. -/
  forgotten : (∃ d ∈ e.2, d.target.isFailed = true) →
    (∀ i ∈ importsIn (call.contentOf e.1), Glob.isDynamic i.specifier = false) →
    ∀ text, call.contentOf e.1 = .ok text →
      after.entryFor e.1 (Sha256.ofText text) call.setting.options.fingerprint = none

/-- A walk with the cache after some uses resolves files with patterns and with failed imports
afresh. -/
theorem resolvesAfresh_afterUses {call : WalkCall} {w : Walk} {cache' : Cache}
    (hrun : call.run (afterUses uses) = some (w, some cache')) :
    ∀ e ∈ w.index.entries, ResolvesAfresh call (afterUses uses) cache' e := by
  intro e he
  have hresolved : ∀ k, some (afterUses uses) = some k → k.IsResolved := by
    rintro k ⟨⟩
    exact isResolved_afterUses uses
  obtain ⟨hfresh, hforgotten⟩ := (Walk.stored_of_fromSource hrun).2 e he
  refine ⟨?dynamic, Walk.freshOf_of_failed hresolved hrun e he, ?unkept, ?forgotten⟩
  case dynamic =>
    rintro ⟨i, hi, hdynamic⟩
    refine Walk.freshOf_of_dynamic hrun e he ?_
    rw [isCacheable, List.all_eq_false]
    exact ⟨i, hi, by simp [hdynamic]⟩
  case unkept =>
    intro hnone
    apply hfresh
    rintro ⟨k, text, kept, hk, htext, hkept⟩
    cases hk
    rw [hnone text htext] at hkept
    cases hkept
  case forgotten =>
    intro hfailed hstatic text htext
    rw [Option.eq_none_iff_forall_ne_some]
    intro kept hkept
    refine hforgotten hresolved ?_ hfailed ⟨cache', text, kept, rfl, htext, hkept⟩
    rw [isCacheable, List.all_eq_true]
    intro i hi
    rw [Bool.not_eq_true']
    exact hstatic i hi

/-- Whatever walks and compilations share a cache, all that it keeps was stored by one of their
walks, for the digest of a text that the walk found for the file and for its options: the records of
all imports that a visit of the text collects, as they were resolved, none of them failed and none
of them a pattern. And every walk resolves a file afresh if one of its imports is a pattern or one
of its records failed. -/
theorem provenance (uses : List Use) :
    (∀ e ∈ (afterUses uses).entries.entries, StoredBy uses e.1 e.2) ∧
    ∀ call w cache', call.run (afterUses uses) = some (w, cache') →
      ∃ after, cache' = some after ∧
        ∀ e ∈ w.index.entries, ResolvesAfresh call (afterUses uses) after e := by
  refine ⟨storedBy_of_mem uses, fun call w cache' hrun => ?_⟩
  obtain ⟨after, rfl⟩ := Walk.exists_cache_of_fromSource hrun
  exact ⟨after, rfl, resolvesAfresh_afterUses hrun⟩

/-- Two walks over the ring, of which the second one stores nothing for its entry, and an entry that
is dropped. -/
def ringUses : List Use :=
  [.walk ⟨Walk.ring, 3, ⟨"main.styl".toList⟩, "@import 'd/c'"⟩,
    .walk ⟨Walk.ring, 3, ⟨"/p/a.styl".toList⟩, Walk.ringSource⟩,
    .invalidate ⟨"/p/d/c.styl".toList⟩]

/-- What is left was stored by the first walk. -/
theorem provenance_ring : ∃ e ∈ (afterUses ringUses).entries.entries, StoredBy ringUses e.1 e.2 ∧
    (e.1, e.2.dependencies) = (⟨"/p/main.styl".toList⟩,
      [⟨⟨1, 1⟩, "d/c".toList, .single ⟨"/p/d/c.styl".toList⟩⟩]) := by
  have hkept : (afterUses ringUses).entries.entries.map (fun e => (e.1, e.2.dependencies)) =
      [(⟨"/p/main.styl".toList⟩,
        [⟨⟨1, 1⟩, "d/c".toList, .single ⟨"/p/d/c.styl".toList⟩⟩])] := by
    decide +kernel
  obtain ⟨e, he, hentry⟩ := List.mem_map.1 (hkept ▸ List.mem_cons_self)
  exact ⟨e, he, (provenance ringUses).1 e he, hentry⟩

end Cache

end StyleImports
