import Packrat.Cursor.Scalar
import Packrat.Trace

/-!
# Editing traces

A trace that is written event by event, and looked at in between.
-/

namespace Packrat.Trace

inductive Edit where
  /-- Add the call of a rule. -/
  | enter (rule : String) (offset : Nat) (left : LeftContent Scalar)
  /-- Add the return of a call. -/
  | leave (rule : String) (offset : Nat) (stop? : Option Nat)
  | clear
  | callTree (palette : Palette)
  | events
  | invocations

inductive EditAnswer where
  | size (size : Nat)
  | isEmpty (isEmpty : Bool)
  | callTree (tree : String)
  | events (trace : Trace)
  | invocations (rows : List Row)

/-- Carries out one edit; the tag tells a new operand from all others. -/
def Edit.apply (tag : Nat) (trace : Trace) : Edit → EditAnswer × Trace
  | .enter rule offset left =>
      let trace := trace.push (.entered rule offset (left.tagged tag).key)
      (.size trace.size, trace)
  | .leave rule offset stop? =>
      let trace := trace.push (.returned rule offset stop?)
      (.size trace.size, trace)
  | .clear => (.isEmpty true, #[])
  | .callTree palette => (.callTree (trace.callTree palette), trace)
  | .events => (.events trace, trace)
  | .invocations => (.invocations trace.rows, trace)

/-- Carries out edits in order. -/
def edit (trace : Trace) : (tag : Nat) → List Edit → List EditAnswer
  | _, [] => []
  | tag, change :: changes =>
      let (answer, trace) := change.apply tag trace
      answer :: edit trace (tag + 1) changes

end Packrat.Trace
