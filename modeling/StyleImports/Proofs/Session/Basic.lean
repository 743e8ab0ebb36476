import Mathlib.Logic.Relation
import StyleImports.Proofs.Files.Memory
import StyleImports.Proofs.Graph.Static
import StyleImports.Proofs.Walk.Records

/-!
# Sessions

A session is a run of walks that share a cache, between which files change (`Session.Step`). All
that its cache keeps was found by an earlier walk, in the files as they were then
(`Session.sound_of_reaches`). So whatever a walk records is what the imports of a file come to now,
or what they came to in the files of an earlier walk (`Session.Sound.records`).
-/

set_option autoImplicit false

namespace StyleImports

open Setting (importsIn)
open Walk (freshOf isCacheable Recorded)

/-- What all walks of a session have in common: the setting of a loader without its files. -/
structure Walker where
  resolvers : Resolvers
  options : WalkOptions

/-- A walk with the given files. -/
def Walker.setting (k : Walker) (m : Memory) : Setting := ⟨m.fileSystem, k.resolvers, k.options⟩

/-- The files and the cache as they are, and the files as they were for each walk, the last walk
first. -/
structure Session where
  files : Memory
  cache : Cache
  walked : List Memory

namespace Session

def start (m : Memory) : Session := ⟨m, .empty, []⟩

/-- The files change, or a walk is made with the cache. `T` tells the sources. -/
inductive Step (k : Walker) (Changes : Memory → Memory → Prop) (T : Set Text) :
    Session → Session → Prop where
  | change {a : Session} {m : Memory} : Changes a.files m → Step k Changes T a { a with files := m }
  | walk {a : Session} {budget : Nat} {entry : Path} {source : Text} {w : Walk} {cache : Cache} :
      source ∈ T →
      Walk.fromSource (k.setting a.files) budget (some a.cache) entry source =
        some (w, some cache) →
      Step k Changes T a ⟨a.files, cache, a.files :: a.walked⟩

end Session

/-- A session gets from one state to another. -/
def Walker.Reaches (k : Walker) (Changes : Memory → Memory → Prop) (T : Set Text) :
    Session → Session → Prop :=
  Relation.ReflTransGen (Session.Step k Changes T)

namespace Session

/-- The session after a walk, if the walk ends. -/
def walk (k : Walker) (budget : Nat) (entry : Path) (source : Text) (a : Session) : Session :=
  match Walk.fromSource (k.setting a.files) budget (some a.cache) entry source with
  | some (_, some cache) => ⟨a.files, cache, a.files :: a.walked⟩
  | _ => a

variable {k : Walker} {Changes : Memory → Memory → Prop} {T : Set Text} {budget : Nat}
  {entry : Path} {source : Text} {a : Session}

theorem files_walk : (a.walk k budget entry source).files = a.files := by
  rw [walk]
  split <;> rfl

theorem reaches_walk (hsource : source ∈ T) :
    k.Reaches Changes T a (a.walk k budget entry source) := by
  rw [walk]
  split
  case h_1 hwalk => exact .single (.walk hsource hwalk)
  case h_2 => exact .refl

end Session

/-! ## What a cache keeps -/

/-- Records that were found in a setting for the imports of a text, none of them dynamic and none
failed. -/
structure Kept (s : Setting) (file : Path) (text : Text) (dependencies : List Dependency) :
    Prop where
  cacheable : isCacheable (importsIn (.ok text)) = true
  eq : dependencies = freshOf s file (importsIn (.ok text))
  resolved : ∀ d ∈ dependencies, d.target.isFailed = false

/-- A cache keeps nothing but what was found with one of some files, for texts of `T`. -/
def Cache.IsFilled (k : Walker) (T : Set Text) (memories : List Memory) (cache : Cache) : Prop :=
  ∀ e ∈ cache.entries.entries, ∃ m ∈ memories, ∃ file text, e.1.same file = true ∧ text ∈ T ∧
    e.2.content = Sha256.ofText text ∧ Kept (k.setting m) file text e.2.dependencies

/-- Records that were found with one of some files for a spelling of the file and for a text of the
same digest; all that they lead to is there. -/
structure Recalled (k : Walker) (T : Set Text) (memories : List Memory) (fs : FileSystem)
    (file : Path) (text : Text) (dependencies : List Dependency) : Prop where
  found : ∃ m ∈ memories, ∃ other past, other.same file = true ∧ past ∈ T ∧
    Sha256.ofText past = Sha256.ofText text ∧ Kept (k.setting m) other past dependencies
  live : ∀ d ∈ dependencies, ∀ p ∈ d.target.paths, fs.isFile p = true

section
variable {k : Walker} {T : Set Text} {memories : List Memory} {m : Memory} {file entry : Path}
  {text source : Text} {budget : Nat} {cache : Cache} {dependencies : List Dependency}

theorem Cache.IsFilled.cons (h : cache.IsFilled k T memories) (m : Memory) :
    cache.IsFilled k T (m :: memories) := by
  intro e he
  obtain ⟨past, hpast, hkept⟩ := h e he
  exact ⟨past, List.mem_cons_of_mem m hpast, hkept⟩

theorem Cache.IsFilled.recalled (h : cache.IsFilled k T memories)
    (hserved : (Walk.askCache (k.setting m) cache file text).1 = some dependencies) :
    Recalled k T memories m.fileSystem file text dependencies := by
  obtain ⟨e, he, hsame, hdigest, hlive, rfl⟩ := Walk.exists_entry_of_askCache hserved
  obtain ⟨past, hpast, other, pastText, hother, htext, hcontent, hfound⟩ := h e he
  exact ⟨⟨past, hpast, other, pastText, Path.same_trans (Path.same_symm hother) hsame, htext,
    hcontent.symm.trans hdigest, hfound⟩, hlive⟩

/-- The records of a file are found or recalled, and the cache keeps nothing else. -/
theorem Cache.IsFilled.recorded (h : cache.IsFilled k T memories) (hm : m ∈ memories)
    (htext : text ∈ T) {cache' : Option Cache}
    (hrecorded : Recorded (k.setting m) file text (importsIn (.ok text)) (some cache) dependencies
      cache') :
    (dependencies = freshOf (k.setting m) file (importsIn (.ok text)) ∨
      Recalled k T memories m.fileSystem file text dependencies) ∧
    ∀ c, cache' = some c → c.IsFilled k T memories := by
  have hasked : (Walk.askCache (k.setting m) cache file text).2.IsFilled k T memories :=
    fun e he => h e (Walk.entries_askCache _ cache file text e he)
  cases hrecorded with
  | uncached =>
    refine ⟨.inl rfl, ?_⟩
    rintro c ⟨⟩
    exact h
  | served hserved =>
    refine ⟨.inr (h.recalled hserved), ?_⟩
    rintro c ⟨⟩
    exact hasked
  | kept _ hcacheable hresolved =>
    refine ⟨.inl rfl, ?_⟩
    rintro c ⟨⟩ e he
    rcases PathTable.mem_entries_insert he with ⟨hsame, hnew⟩ | hold
    · rw [hnew]
      exact ⟨m, hm, file, text, hsame, htext, rfl, hcacheable, rfl, hresolved⟩
    · exact hasked e hold
  | missed =>
    refine ⟨.inl rfl, ?_⟩
    rintro c ⟨⟩
    exact hasked

/-- Recalled records are those of the imports of a text of the same digest as they were in earlier
files; all of them are static and led to files that are there. -/
theorem Recalled.exists_past (hsteady : k.resolvers.file.IsSteady)
    (h : Recalled k T memories m.fileSystem file text dependencies) :
    ∃ past ∈ memories, ∃ pastText ∈ T, Sha256.ofText pastText = Sha256.ofText text ∧
      dependencies = freshOf (k.setting past) file (importsIn (.ok pastText)) ∧
      ∀ i ∈ importsIn (.ok pastText), Glob.isDynamic i.specifier = false ∧
        ((k.setting past).resolve file i).dependency.target.isFailed = false ∧
        ∀ p ∈ ((k.setting past).resolve file i).dependency.target.paths,
          m.fileSystem.isFile p = true := by
  obtain ⟨⟨past, hpast, other, pastText, hsame, hT, hdigest, hkept⟩, hlive⟩ := h
  have hstatic : ∀ i ∈ importsIn (.ok pastText), Glob.isDynamic i.specifier = false :=
    fun i hi => by simpa using List.all_eq_true.1 hkept.cacheable i hi
  have hmem : ∀ i ∈ importsIn (.ok pastText),
      ((k.setting past).resolve other i).dependency ∈ dependencies := by
    intro i hi
    rw [hkept.eq]
    exact List.mem_map_of_mem hi
  have hfile : ∀ i ∈ importsIn (.ok pastText), ((k.setting past).resolve file i).dependency =
      ((k.setting past).resolve other i).dependency := fun i hi =>
    Setting.record_of_same hsteady (hstatic i hi) hsame (hkept.resolved _ (hmem i hi))
  refine ⟨past, hpast, pastText, hT, hdigest, ?_, fun i hi => ?_⟩
  · rw [hkept.eq]
    exact (List.map_congr_left hfile).symm
  · rw [hfile i hi]
    exact ⟨hstatic i hi, hkept.resolved _ (hmem i hi), hlive _ (hmem i hi)⟩

/-! ## Walks of a session -/

/-- What a walk may record: what the imports of a file come to, or what is recalled for it. -/
def Walker.MayRecord (k : Walker) (T : Set Text) (memories : List Memory) (m : Memory)
    (file : Path) (content : Except FileError Text) (dependencies : List Dependency) : Prop :=
  dependencies = freshOf (k.setting m) file (importsIn content) ∨
    ∃ text, content = .ok text ∧ Recalled k T memories m.fileSystem file text dependencies

theorem Walker.keeps (k : Walker) (hm : m ∈ memories) (htexts : ∀ t ∈ m.texts, t ∈ T)
    (hsource : source ∈ T) (entry : Path) :
    Walk.Keeps (k.setting m) entry source (fun c => c.IsFilled k T memories)
      (k.MayRecord T memories m) where
  none file content hnone := by
    left
    rw [hnone]
    rfl
  recorded file text cache dependencies cache' htext hrecorded hcache := by
    have hT : text ∈ T := by
      rcases Setting.reads_of_contentOf htext with rfl | ⟨p, hread⟩
      · exact hsource
      · exact htexts text (Memory.mem_texts hread)
    cases cache with
    | none =>
      cases hrecorded
      exact ⟨.inl rfl, hcache⟩
    | some cache =>
      obtain ⟨hfound, hkept⟩ := (hcache cache rfl).recorded hm hT hrecorded
      exact ⟨hfound.imp_right fun hrecalled => ⟨text, rfl, hrecalled⟩, hkept⟩

end

namespace Session

variable {k : Walker} {T : Set Text} {Changes : Memory → Memory → Prop} {m : Memory}
  {a b : Session} {entry : Path} {source : Text} {budget : Nat}

/-- A state of a session that started with the files `m`: all texts are in `T`, the files of each
walk come between the first ones and those of now, and the cache keeps what walks found. -/
structure Sound (k : Walker) (Changes : Memory → Memory → Prop) (T : Set Text) (m : Memory)
    (a : Session) : Prop where
  files : Relation.ReflTransGen Changes m a.files
  walked : ∀ past ∈ a.walked, Relation.ReflTransGen Changes m past ∧
    Relation.ReflTransGen Changes past a.files
  texts : ∀ t ∈ a.files.texts, t ∈ T
  cache : a.cache.IsFilled k T a.walked

theorem sound_start (htexts : ∀ t ∈ m.texts, t ∈ T) : (start m).Sound k Changes T m :=
  ⟨.refl, nofun, htexts, nofun⟩

/-- A walk of a session records what imports come to and what is recalled, and leaves in the cache
what walks found. -/
theorem Sound.records (h : a.Sound k Changes T m) (hsource : source ∈ T) {w : Walk}
    {cache : Option Cache}
    (hwalk : Walk.fromSource (k.setting a.files) budget (some a.cache) entry source =
      some (w, cache)) :
    (∀ e ∈ w.index.entries, k.MayRecord T (a.files :: a.walked) a.files e.1
      ((k.setting a.files).contentOf ((k.setting a.files).fs.cwd.absoluteFrom entry) source e.1)
      e.2) ∧
    ∀ c, cache = some c → c.IsFilled k T (a.files :: a.walked) := by
  refine Walk.records_of_fromSource (k.keeps List.mem_cons_self h.texts hsource _) ?_ hwalk
  rintro c ⟨⟩
  exact h.cache.cons a.files

theorem Sound.step
    (hchanges : ∀ m m', Changes m m' → (∀ t ∈ m.texts, t ∈ T) → ∀ t ∈ m'.texts, t ∈ T)
    (h : a.Sound k Changes T m) (hstep : Step k Changes T a b) : b.Sound k Changes T m := by
  cases hstep with
  | @change m' hchange =>
    refine ⟨h.files.tail hchange, fun past hpast => ?_, hchanges _ m' hchange h.texts, h.cache⟩
    obtain ⟨hbefore, hafter⟩ := h.walked past hpast
    exact ⟨hbefore, hafter.tail hchange⟩
  | walk hsource hwalk =>
    refine ⟨h.files, ?_, h.texts, (h.records hsource hwalk).2 _ rfl⟩
    intro past hpast
    rcases List.mem_cons.1 hpast with rfl | hpast
    · exact ⟨h.files, .refl⟩
    · exact h.walked past hpast

/-- Every state that a session gets to is sound. -/
theorem sound_of_reaches
    (hchanges : ∀ m m', Changes m m' → (∀ t ∈ m.texts, t ∈ T) → ∀ t ∈ m'.texts, t ∈ T)
    (htexts : ∀ t ∈ m.texts, t ∈ T) (h : k.Reaches Changes T (start m) a) :
    a.Sound k Changes T m := by
  induction h with
  | refl => exact sound_start htexts
  | tail _ hstep ih => exact ih.step hchanges hstep

end Session

/-! ## One walk and one change -/

/-- Walks with the given search paths and a table of answers. -/
def Walker.searching (paths : List Path) (answers : List (Text × List Path)) : Walker :=
  ⟨⟨(RequestTable.mk answers).resolver, RequestTable.empty.resolver⟩, ⟨paths, none, []⟩⟩

namespace Session

variable {k : Walker} {T : Set Text} {Changes : Memory → Memory → Prop} {a : Session} {entry : Path}
  {source : Text}

/-- The session after a walk from its start, with the files that there are then. -/
def after (k : Walker) (m m' : Memory) (entry : Path) (source : Text) : Session :=
  { (start m).walk k 9 entry source with files := m' }

theorem reaches_after {m m' : Memory} (hsource : source ∈ T) (hchange : Changes m m') :
    k.Reaches Changes T (start m) (after k m m' entry source) :=
  (reaches_walk hsource).tail (.change (files_walk.symm ▸ hchange))

/-- A walk leads to one graph without a cache, and to another one with that of the session. -/
def IsStale (k : Walker) (a : Session) (entry : Path) (source : Text) : Prop :=
  ∃ w cache cached kept,
    Walk.fromSource (k.setting a.files) 9 none entry source = some (w, cache) ∧
    Walk.fromSource (k.setting a.files) 9 (some a.cache) entry source = some (cached, kept) ∧
    cached.index ≠ w.index

/-- It does if one of the graphs has a file that the other one has not. -/
theorem isStale_of_contains (p : Path) (there : Bool)
    (hfresh : (Walk.fromSource (k.setting a.files) 9 none entry source).map
      (fun outcome => outcome.1.index.contains p) = some there)
    (hcached : (Walk.fromSource (k.setting a.files) 9 (some a.cache) entry source).map
      (fun outcome => outcome.1.index.contains p) = some !there) :
    a.IsStale k entry source := by
  obtain ⟨⟨w, cache⟩, hwalk, hthere⟩ := Option.map_eq_some_iff.1 hfresh
  obtain ⟨⟨cached, kept⟩, hagain, hnot⟩ := Option.map_eq_some_iff.1 hcached
  refine ⟨w, cache, cached, kept, hwalk, hagain, fun heq => ?_⟩
  dsimp only at hthere hnot
  rw [heq, hthere] at hnot
  cases there <;> cases hnot

end Session

end StyleImports
