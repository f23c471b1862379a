import Packrat.Parser
import Packrat.Table
import Packrat.Trace

/-!
# The state of the engine

Parsers are plain data; what they remember between and during calls is held here, under the
numbers that their nodes carry: the offsets at which a guard is busy, the alternatives that a
precedence node is trying, the depth of a clearing node, the caches, and the trace.
-/

namespace Packrat

/-! ## Caches -/

/-- What a memo node stores a result under: its own number, the offset and the left context. -/
structure CacheKey where
  node : Nat
  offset : Nat
  left : LeftKey
  deriving DecidableEq, Hashable, Repr

/-- Stored results, and how often a result was found and not found. -/
structure Cache (α : Type) where
  entries : Std.HashMap CacheKey (Option (Output α))
  hits : Nat
  misses : Nat

namespace Cache

variable {α : Type}

def empty : Cache α := ⟨∅, 0, 0⟩

instance : Inhabited (Cache α) := ⟨empty⟩

/-- Counts a lookup of a key by whether it is stored. -/
def count (cache : Cache α) (key : CacheKey) : Cache α :=
  if key ∈ cache.entries then { cache with hits := cache.hits + 1 }
  else { cache with misses := cache.misses + 1 }

def store (cache : Cache α) (key : CacheKey) (result : Option (Output α)) : Cache α :=
  { cache with entries := cache.entries.insert key result }

/-- Drops the entries and keeps the counts. -/
def clear (cache : Cache α) : Cache α := { cache with entries := ∅ }

/-- Drops the counts and keeps the entries. -/
def resetCounts (cache : Cache α) : Cache α := { cache with hits := 0, misses := 0 }

def size (cache : Cache α) : Nat := cache.entries.size

/-- A lookup finds what was stored last under its key. -/
theorem getElem?_store (cache : Cache α) (key other : CacheKey) (result : Option (Output α)) :
    (cache.store key result).entries[other]? =
      if key = other then some result else cache.entries[other]? := by
  by_cases h : key = other <;> simp [store, Std.HashMap.getElem?_insert, h]

@[simp] theorem entries_count (cache : Cache α) (key : CacheKey) :
    (cache.count key).entries = cache.entries := by
  unfold count
  split <;> rfl

/-- Every lookup is either a hit or a miss. -/
theorem hits_add_misses_count (cache : Cache α) (key : CacheKey) :
    (cache.count key).hits + (cache.count key).misses = cache.hits + cache.misses + 1 := by
  unfold count
  split <;> simp <;> omega

end Cache

/-- The line that reports the counts of a cache. -/
def statisticsLine (palette : Palette) (hits misses : Nat) : String :=
  palette.paint palette.dim
    ("cache: " ++ toString hits ++ " hits, " ++ toString misses ++ " misses")

/-! ## Rules -/

/-- What is known of a rule. -/
inductive Definition (α : Type) where
  /-- No body was given, or the rule is gone; it never matches. -/
  | missing
  | body (parser : Parser α)
  /-- The body is made at the first use, which has not come yet. -/
  | pending
  deriving Inhabited

/-- The number of nodes in the body, if there is one. -/
def Definition.size {α : Type} : Definition α → Nat
  | .body parser => parser.size
  | _ => 0

/-- The rules of a grammar by number. -/
structure Rules (α : Type) where
  entries : Array (Definition α)

namespace Rules

variable {α : Type}

def empty : Rules α := ⟨#[]⟩

instance : Inhabited (Rules α) := ⟨empty⟩

/-- The rules whose bodies are given, numbered from zero. -/
def ofBodies (bodies : List (Parser α)) : Rules α := ⟨(bodies.map .body).toArray⟩

def find (rules : Rules α) (rule : Nat) : Definition α := rules.entries.getD rule .missing

/-- The number of nodes in all bodies. -/
def size (rules : Rules α) : Nat :=
  rules.entries.toList.foldr (fun definition nodes => definition.size + nodes) 0

theorem find_ofBodies (bodies : List (Parser α)) (rule : Nat) :
    (ofBodies bodies).find rule = (bodies[rule]?.map Definition.body).getD .missing := by
  simp [find, ofBodies]

end Rules

/-! ## State and effects -/

/-- What a run remembers. -/
structure Engine (α : Type) where
  /-- The offsets at which each guard is busy. -/
  active : Table (List Nat)
  /-- The alternatives that each precedence node is trying, innermost first. -/
  climbing : Table (List Nat)
  /-- How deep each clearing node is nested in itself. -/
  depth : Table Nat
  caches : Table (Cache α)
  trace : Trace
  /-- The tag of the next operand that is put to the left of a cursor. -/
  nextTag : Nat
  /-- The size of the longest text so far; stored results lie in no longer one. -/
  horizon : Nat

namespace Engine

variable {α : Type}

def fresh : Engine α := ⟨.empty, .empty, .empty, .empty, #[], 0, 0⟩

instance : Inhabited (Engine α) := ⟨fresh⟩

end Engine

/-- Why a run ends without an answer. -/
inductive Stop where
  | fault (fault : Fault)
  /-- A rule has to be made before the run can go on. -/
  | pending (rule : Nat)
  /-- The call depth went past its bound. -/
  | tooDeep
  deriving DecidableEq, Repr

/-- The text that reports why a run ended. -/
def Stop.message : Stop → String
  | .fault cause => cause.message
  | .pending _ => "a rule is not made yet"
  | .tooDeep => "calls are nested too deep"

/-- A computation on the state of the engine that may stop early. -/
abbrev EngineM (α : Type) := StateT (Engine α) (Except Stop)

namespace Engine

variable {α : Type}

/-- Marks a guard as busy at an offset; `false` if it already was. -/
def enter (id offset : Nat) : EngineM α Bool := do
  if (← get).active.get id |>.contains offset then
    return false
  modify fun engine => { engine with active := engine.active.update id (offset :: ·) }
  return true

/-- Frees a guard at an offset. -/
def leave (id offset : Nat) : EngineM α Unit :=
  modify fun engine => { engine with active := engine.active.update id (·.erase offset) }

/-- The innermost alternative that a precedence node is trying. -/
def innermost? (id : Nat) : EngineM α (Option Nat) := do
  return ((← get).climbing.get id).head?

def pushAlternative (id index : Nat) : EngineM α Unit :=
  modify fun engine => { engine with climbing := engine.climbing.update id (index :: ·) }

def popAlternative (id : Nat) : EngineM α Unit :=
  modify fun engine => { engine with climbing := engine.climbing.update id (·.tail) }

def descend (id : Nat) : EngineM α Unit :=
  modify fun engine => { engine with depth := engine.depth.update id (· + 1) }

/-- Leaves one level of a clearing node; `true` if it was the outermost. -/
def ascend (id : Nat) : EngineM α Bool := do
  modify fun engine => { engine with depth := engine.depth.update id (· - 1) }
  return (← get).depth.get id == 0

/-- Looks a key up in a cache, and counts that. -/
def lookup? (cache : Nat) (key : CacheKey) : EngineM α (Option (Option (Output α))) := do
  let found := ((← get).caches.get cache).entries[key]?
  modify fun engine => { engine with caches := engine.caches.update cache (·.count key) }
  return found

def store (cache : Nat) (key : CacheKey) (result : Option (Output α)) : EngineM α Unit :=
  modify fun engine => { engine with caches := engine.caches.update cache (·.store key result) }

def clear (cache : Nat) : EngineM α Unit :=
  modify fun engine => { engine with caches := engine.caches.update cache .clear }

def record (event : Event) : EngineM α Unit :=
  modify fun engine => { engine with trace := engine.trace.push event }

/-- A tag that no operand has had. -/
def freshTag : EngineM α Nat := do
  let tag := (← get).nextTag
  modify fun engine => { engine with nextTag := tag + 1 }
  return tag

end Engine

end Packrat
