import Packrat.Proofs.Audit.Chronicle
import Packrat.Proofs.Mirror.Combinators
import Packrat.Proofs.Restoration

/-!
# Audited runs

An auditor notes in the trace what happens at the cached parsers of a run.  Nothing else is noted
there, and nothing else about the run changes.  What is noted is a chronicle, and the caches have
counted what is in it.
-/

namespace Packrat

variable {α : Type}

/-! ## Auditors -/

/-- Says what is noted of each visit. -/
structure Auditor (α : Type) where
  notes : Visit α → List Event

namespace Engine

/-- The state with another trace. -/
def withTrace (engine : Engine α) (trace : Trace) : Engine α := { engine with trace }

/-- Adds events to the trace. -/
def note (events : List Event) : EngineM α Unit :=
  modify fun engine => engine.withTrace (engine.trace ++ events.toArray)

theorem note_eq (events : List Event) (engine : Engine α) (trace : Trace) :
    note events (engine.withTrace trace) = .ok ((), engine.withTrace (trace ++ events.toArray)) :=
  rfl

theorem ended_withTrace (engine : Engine α) (trace : Trace) (id cache : Nat) :
    (engine.withTrace trace).ended id cache = (engine.ended id cache).withTrace trace := by
  by_cases h : (engine.ascended id).depth.get id = 0
  · have hended : engine.ended id cache = (engine.ascended id).cleared cache := if_pos h
    rw [hended]
    exact if_pos h
  · have hended : engine.ended id cache = engine.ascended id := if_neg h
    rw [hended]
    exact if_neg h

end Engine

/-- The parser, without a trace of its own. -/
def Parser.unlogged : Parser α → Parser α
  | .logged _ parser => .nested parser
  | parser => parser

namespace Auditor

/-- Runs what a cached parser wraps, and notes when that begins and ends. -/
def attend (auditor : Auditor α) (cache : Nat) (key : CacheKey) (call : Call α) : Call α :=
  fun part cursor => do
    Engine.note (auditor.notes (.began cache key))
    let found ← call part cursor
    Engine.note (auditor.notes (.finished cache key found))
    return found

/-- Runs a parser and notes all visits; there are no other events. -/
def run (auditor : Auditor α) (rules : Rules α) : Nat → Call α
  | 0, _, _ => throw .tooDeep
  | fuel + 1, .memo id cache parser, cursor => do
      let key : CacheKey := ⟨id, cursor.offset, cursor.left.key⟩
      Engine.note (auditor.notes (.asked cache key))
      let found ←
        Engine.memoMatch (auditor.attend cache key (auditor.run rules fuel)) id cache parser cursor
      Engine.note (auditor.notes (.answered cache key found))
      return found
  | fuel + 1, parser, cursor =>
      Engine.step rules fuel (auditor.run rules fuel) parser.unlogged cursor

/-- The trace behind some visits. -/
def trace (auditor : Auditor α) (before : Trace) (visits : List (Visit α)) : Trace :=
  before ++ (visits.flatMap auditor.notes).toArray

variable {auditor : Auditor α} {before : Trace} {visits more : List (Visit α)}

theorem trace_nil : auditor.trace before [] = before := by simp [trace]

theorem trace_append :
    auditor.trace before (visits ++ more) = auditor.trace (auditor.trace before visits) more := by
  simp [trace]

theorem trace_single {visit : Visit α} :
    auditor.trace before [visit] = before ++ (auditor.notes visit).toArray := by
  simp [trace]

theorem run_succ {rules : Rules α} {fuel : Nat} {parser : Parser α} (h : ¬ parser.isMemo) :
    auditor.run rules (fuel + 1) parser =
      Engine.step rules fuel (auditor.run rules fuel) parser.unlogged := by
  cases parser with
  | memo id cache parser => exact absurd rfl h
  | _ => rfl

end Auditor

/-! ## What the caches count -/

namespace Engine

/-- How often a key was not found in the cache. -/
def missesIn (engine : Engine α) (cache : Nat) : Nat := (engine.caches.get cache).misses

/-- How often a key was looked up in the cache. -/
def lookupsIn (engine : Engine α) (cache : Nat) : Nat :=
  (engine.caches.get cache).hits + (engine.caches.get cache).misses

variable {engine : Engine α} {cache cache' : Nat} {key : CacheKey} {result : Option (Output α)}

/-- A change of a cache that keeps its counts. -/
theorem counts_of_update {engine' : Engine α} (f : Cache α → Cache α)
    (hcaches : engine'.caches = engine.caches.update cache f)
    (hf : ∀ cache, (f cache).hits = cache.hits ∧ (f cache).misses = cache.misses) (cache' : Nat) :
    engine'.missesIn cache' = engine.missesIn cache' ∧
      engine'.lookupsIn cache' = engine.lookupsIn cache' := by
  simp only [missesIn, lookupsIn, hcaches, Table.get_update]
  split
  · next hcache =>
      subst hcache
      simp [hf]
  · exact ⟨rfl, rfl⟩

theorem missesIn_stored :
    (engine.stored cache key result).missesIn cache' = engine.missesIn cache' :=
  (counts_of_update (·.store key result) rfl (fun _ => ⟨rfl, rfl⟩) cache').1

theorem lookupsIn_stored :
    (engine.stored cache key result).lookupsIn cache' = engine.lookupsIn cache' :=
  (counts_of_update (·.store key result) rfl (fun _ => ⟨rfl, rfl⟩) cache').2

/-- An emptied cache keeps its counts. -/
theorem counts_ended (engine : Engine α) (id cache cache' : Nat) :
    (engine.ended id cache).missesIn cache' = engine.missesIn cache' ∧
      (engine.ended id cache).lookupsIn cache' = engine.lookupsIn cache' := by
  unfold ended
  split
  · exact counts_of_update .clear rfl (fun _ => ⟨rfl, rfl⟩) cache'
  · exact ⟨rfl, rfl⟩

theorem lookupsIn_counted :
    (engine.counted cache key).lookupsIn cache' =
      engine.lookupsIn cache' + if cache = cache' then 1 else 0 := by
  by_cases h : cache = cache'
  · subst h
    simp only [lookupsIn, counted, Table.get_update_self, if_true]
    exact Cache.hits_add_misses_count _ key
  · simp [lookupsIn, counted, h]

theorem missesIn_counted_of_some (h : engine.entryIn cache key = some result) :
    (engine.counted cache key).missesIn cache' = engine.missesIn cache' := by
  by_cases hcache : cache = cache'
  · subst hcache
    have hmem : key ∈ (engine.caches.get cache).entries := by
      rw [entryIn] at h
      rw [← Std.HashMap.isSome_getElem?_iff_mem, h]
      rfl
    simp [missesIn, counted, Cache.count, hmem]
  · simp [missesIn, counted, hcache]

theorem missesIn_counted_of_none (h : engine.entryIn cache key = none) :
    (engine.counted cache key).missesIn cache' =
      engine.missesIn cache' + if cache = cache' then 1 else 0 := by
  by_cases hcache : cache = cache'
  · subst hcache
    have hmem : key ∉ (engine.caches.get cache).entries := by
      rw [entryIn] at h
      rw [← Std.HashMap.isSome_getElem?_iff_mem, h]
      exact Bool.false_ne_true
    simp [missesIn, counted, Cache.count, hmem]
  · simp [missesIn, counted, hcache]

end Engine

end Packrat
