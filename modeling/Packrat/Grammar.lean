import Packrat.Engine.Run

/-!
# Grammars

A grammar is a set of rules with an entry parser.  It is used on one text after another, and what
its caches count adds up over them.
-/

namespace Packrat

/-- Rules, and the parser to start with. -/
structure Grammar (α : Type) where
  rules : Rules α
  entry : Parser α

namespace Grammar

variable {α : Type}

/-- Parses a whole text. -/
def parseText (grammar : Grammar α) (source : Source) : EngineM α (Except (Failure α) α) :=
  grammar.entry.parseText grammar.rules source

/-- Parses from an offset of a text, with something put to its left. -/
def parseAt (grammar : Grammar α) (source : Source) (offset : Nat) (left : LeftContent α) :
    EngineM α (Option (Output α)) :=
  grammar.entry.parseAt grammar.rules source offset left

/-! ## Observed runs -/

/-- What a run on one text leaves behind. -/
structure Observation (α : Type) where
  result : Except (Failure α) α
  trace : Trace
  /-- What the first cache counted. -/
  hits : Nat
  misses : Nat

/-- The line that reports the counts of the cache. -/
def Observation.statistics (observation : Observation α) (palette : Palette) : String :=
  statisticsLine palette observation.hits observation.misses

/-- Parses a whole text with a grammar that was not used before. -/
def observe (grammar : Grammar α) (text : String) : Except Stop (Observation α) := do
  let (result, engine) ← (grammar.parseText (.ofString text)).run .fresh
  let cache := engine.caches.get 0
  return ⟨result, engine.trace, cache.hits, cache.misses⟩

/-! ## Sequences of requests -/

/-- A text to parse, as a whole or from an offset. -/
inductive Request (α : Type) where
  | text (text : String)
  | place (text : String) (offset : Nat) (left : LeftContent α)

/-- What came of a request. -/
inductive Reply (α : Type) where
  | text (text : String) (result : Except (Failure α) α)
  | place (result : Option (Output α))

/-- Hits and misses of the first cache so far. -/
def statistics : EngineM α (Nat × Nat) := do
  let cache := (← get).caches.get 0
  return (cache.hits, cache.misses)

/-- Answers one request. -/
def answer (grammar : Grammar α) : Request α → EngineM α (Reply α)
  | .text text => return .text text (← grammar.parseText (.ofString text))
  | .place text offset left =>
      return .place (← grammar.parseAt (.ofString text) offset left)

/-- Answers requests in order, each with the statistics after it. -/
def answerAll (grammar : Grammar α) :
    List (Request α) → EngineM α (List (Reply α × Nat × Nat))
  | [] => return []
  | request :: requests => do
      let reply ← grammar.answer request
      let counts ← statistics
      return (reply, counts) :: (← grammar.answerAll requests)

/-- Answers requests with a grammar that was not used before. -/
def answerFresh (grammar : Grammar α) (requests : List (Request α)) :
    Except Stop (List (Reply α × Nat × Nat)) :=
  (grammar.answerAll requests).run' .fresh

end Grammar

end Packrat
