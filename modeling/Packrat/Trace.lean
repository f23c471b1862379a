import Packrat.Cursor
import Packrat.Palette
import Std.Data.HashMap

/-!
# Traces

A trace is the list of calls and returns of the logged parsers of a run, in order.  `callTree`
writes it as an indented tree with a line for each event, `invocations` counts the calls.
-/

namespace Packrat

/-- A call of a logged parser, or its return. -/
inductive Event where
  /-- The parser was called at an offset with a left context. -/
  | entered (rule : String) (offset : Nat) (left : LeftKey)
  /-- The call made at `offset` came back, having stopped at `stop?` if it matched. -/
  | returned (rule : String) (offset : Nat) (stop? : Option Nat)
  deriving DecidableEq, Repr

/-- The events of a run, in the order in which they happened. -/
abbrev Trace := Array Event

namespace Trace

/-! ## The call tree -/

/-- The note that tells a call with a left context from a fresh one. -/
def marker : LeftKey → String
  | .empty => ""
  | .operand _ => " (extending)"
  | .rightOperand => " (right operand)"

/-- Two spaces for each call that is open. -/
def indent (depth : Nat) : String := String.ofList (List.replicate (2 * depth) ' ')

/-- The line of one event; a return stands at the depth of its call. -/
def line (palette : Palette) (depth : Nat) : Event → String
  | .entered rule offset left =>
      indent depth ++ "> " ++ palette.paint palette.rule rule ++ " at " ++ toString offset ++
        palette.paint palette.dim (marker left) ++ "\n"
  | .returned rule offset stop? =>
      let status :=
        match stop? with
        | some stop =>
            palette.paint palette.matched ("matched " ++ toString offset ++ ".." ++ toString stop)
        | none => palette.paint palette.failed "no match"
      indent (depth - 1) ++ "< " ++ palette.paint palette.rule rule ++ " at " ++
        toString offset ++ ": " ++ status ++ "\n"

/-- The number of open calls after an event; a return without a call leaves it at zero. -/
def depthAfter (depth : Nat) : Event → Nat
  | .entered _ _ _ => depth + 1
  | .returned _ _ _ => depth - 1

/-- The lines of the events, from a number of open calls on. -/
def lines (palette : Palette) : Nat → List Event → List String
  | _, [] => []
  | depth, event :: events =>
      line palette depth event :: lines palette (depthAfter depth event) events

/-- The trace as an indented tree, one line for each event. -/
def callTree (palette : Palette) (trace : Trace) : String :=
  String.join (lines palette 0 trace.toList)

/-! ## Invocations -/

/-- One rule at one offset with one left context. -/
structure Site where
  rule : String
  offset : Nat
  left : LeftKey
  deriving DecidableEq, Hashable, Repr

/-- The site at which an event calls a rule, if it does. -/
def site? : Event → Option Site
  | .entered rule offset left => some ⟨rule, offset, left⟩
  | .returned _ _ _ => none

/-- The sites of all calls, in order. -/
def sites (trace : Trace) : List Site := trace.toList.filterMap site?

/-- Counts one more call of a site. -/
def tally (counts : Std.HashMap Site Nat) (site : Site) : Std.HashMap Site Nat :=
  counts.alter site fun count => some (count.getD 0 + 1)

/-- How often each rule was called at each offset and left context. -/
def invocations (trace : Trace) : Std.HashMap Site Nat := trace.sites.foldl tally ∅

/-- One line of a report on invocations. -/
structure Row where
  rule : String
  offset : Nat
  kind : String
  count : Nat
  deriving DecidableEq, Repr

/-- Rows are ordered by rule, then by offset, kind and count. -/
def Row.le (row other : Row) : Bool :=
  match compare row.rule other.rule with
  | .lt => true
  | .gt => false
  | .eq =>
      match compare row.offset other.offset with
      | .lt => true
      | .gt => false
      | .eq =>
          match compare row.kind other.kind with
          | .lt => true
          | .gt => false
          | .eq => row.count ≤ other.count

/-- The counts of all sites in order; operands that differ only in their tags have rows each. -/
def rows (trace : Trace) : List Row :=
  (trace.invocations.toList.map fun (site, count) =>
    ⟨site.rule, site.offset, site.left.kind, count⟩).mergeSort Row.le

/-- Whether no call was made twice. -/
def oncePerSite (trace : Trace) : Bool := trace.invocations.toList.all fun entry => entry.2 == 1

theorem getD_tally (counts : Std.HashMap Site Nat) (site other : Site) :
    (tally counts site).getD other 0 = counts.getD other 0 + [site].count other := by
  by_cases h : site = other
  · subst h
    simp [tally, Std.HashMap.getD_eq_getD_getElem?]
  · simp [tally, Std.HashMap.getD_alter, h]

theorem getElem?_tally (counts : Std.HashMap Site Nat) (site other : Site) :
    (tally counts site)[other]? =
      if site = other then some (counts.getD site 0 + 1) else counts[other]? := by
  simp [tally, Std.HashMap.getElem?_alter, Std.HashMap.getD_eq_getD_getElem?]

/-- The listed sites are counted on from the counts that there are, which stay for all others. -/
theorem getElem?_foldl_tally (sites : List Site) (counts : Std.HashMap Site Nat) (site : Site) :
    (sites.foldl tally counts)[site]? =
      if site ∈ sites then some (counts.getD site 0 + sites.count site) else counts[site]? := by
  induction sites generalizing counts with
  | nil => simp
  | cons first sites ih =>
      rw [List.foldl_cons, ih, getD_tally, getElem?_tally, Nat.add_assoc, ← List.count_append,
        List.singleton_append]
      by_cases hrest : site ∈ sites
      · simp [hrest]
      · by_cases hfirst : first = site
        · subst hfirst
          simp [hrest, List.count_eq_zero_of_not_mem]
        · simp [hrest, hfirst, Ne.symm hfirst]

/-- Every site that is called is counted as often as it is called, and nothing else is counted. -/
theorem getElem?_invocations (trace : Trace) (site : Site) :
    trace.invocations[site]? =
      if site ∈ trace.sites then some (trace.sites.count site) else none := by
  simp [invocations, getElem?_foldl_tally]

end Trace

end Packrat
