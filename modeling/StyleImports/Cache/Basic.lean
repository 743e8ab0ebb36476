import StyleImports.Decimal.Ratio
import StyleImports.Graph.Basic

/-!
# The cache of resolved imports

An entry keeps the imports of a file as they were resolved for a content and for options, both
known by a digest. It is served while both are the same and every file that it leads to is there;
an entry that leads to a missing file is dropped when it is asked for. Questions are counted.
-/

set_option autoImplicit false

namespace StyleImports

/-- The imports of a file, for the content and the options with these digests. -/
structure CacheEntry where
  content : Text
  options : Text
  dependencies : List Dependency
  deriving DecidableEq, Repr

structure Cache where
  entries : PathTable CacheEntry
  hits : Nat
  misses : Nat
  deriving Repr

namespace Cache

def empty : Cache := ⟨.empty, 0, 0⟩

instance : Inhabited Cache := ⟨empty⟩

/-- Whether every path that an entry leads to is there. -/
def isLive (targetExists : Path → Bool) (entry : CacheEntry) : Bool :=
  entry.dependencies.all fun d => d.target.paths.all targetExists

def entryFor (cache : Cache) (file : Path) (content options : Text) : Option CacheEntry :=
  (cache.entries.get? file).filter fun entry =>
    entry.content = content && entry.options = options

/-- The imports kept for a file, with the cache after the question. -/
def get (cache : Cache) (file : Path) (content options : Text) (targetExists : Path → Bool) :
    Option (List Dependency) × Cache :=
  match cache.entryFor file content options with
  | none => (none, { cache with misses := cache.misses + 1 })
  | some entry =>
    if isLive targetExists entry then
      (some entry.dependencies, { cache with hits := cache.hits + 1 })
    else (none, { cache with entries := cache.entries.erase file, misses := cache.misses + 1 })

/-- Keeps the imports of a file, in place of what was kept for it. -/
def insert (cache : Cache) (file : Path) (entry : CacheEntry) : Cache :=
  { cache with entries := cache.entries.insert file entry }

def contains (cache : Cache) (file : Path) : Bool := cache.entries.contains file

def erase (cache : Cache) (file : Path) : Cache :=
  { cache with entries := cache.entries.erase file }

/-- Drops every entry; the counts stay. -/
def clear (cache : Cache) : Cache := { cache with entries := .empty }

def size (cache : Cache) : Nat := cache.entries.size

/-! ## Counts -/

/-- How many of the questions had an answer; zero if there were none. -/
def hitRate (cache : Cache) : Decimal.Binary :=
  Decimal.Binary.ofRatio cache.hits (cache.hits + cache.misses)

/-- The counts on one line, the share of hits in percent with one place. -/
def summary (cache : Cache) : Text :=
  Text.ofNat cache.hits ++ " hits, " ++ Text.ofNat cache.misses ++ " misses (" ++
    (cache.hitRate.times 100).fixed 1 ++ "%), " ++ Text.ofNat cache.size ++ " entries"

end Cache

end StyleImports
