import Packrat.Grammar
import Packrat.Proofs.Tracking.Basic

/-!
# Watched runs

A sentinel looks at every call of a run before it is made, at the state and at the calls that are
under way, and sounds an alarm where it objects.  A run with a sentinel returns what the run without
it returns, or it stops.
-/

namespace Packrat

variable {α : Type}

/-- Tells for every call whether it may be made, given the calls that are under way. -/
structure Sentinel (α : Type) where
  objects : Engine α → (around : List (Parser α × Cursor α)) → Parser α → Cursor α → Bool

namespace Sentinel

/-- Runs a parser under the eyes of a sentinel; a call that it objects to sounds the alarm. -/
def run (sentinel : Sentinel α) (alarm : Stop) (rules : Rules α) :
    Nat → List (Parser α × Cursor α) → Call α
  | 0, _, _, _ => throw .tooDeep
  | fuel + 1, around, parser, cursor => do
      if sentinel.objects (← get) around parser cursor then
        throw alarm
      Engine.step rules fuel (sentinel.run alarm rules fuel ((parser, cursor) :: around)) parser
        cursor

end Sentinel

/-- Whether the node is a guard that is busy at the offset. -/
def Parser.isBusy (engine : Engine α) (offset : Nat) : Parser α → Bool
  | .guarded id _ => (engine.active.get id).contains offset
  | _ => false

/-- The number under which the node stores its results. -/
def Parser.memo? : Parser α → Option Nat
  | .memo id _ _ => some id
  | _ => none

namespace Sentinel

/-- Objects to calls that a guard rejects. -/
def rejections : Sentinel α where
  objects engine _ parser cursor := parser.isBusy engine cursor.offset

/--
Objects to a lookup under the key of a call that is under way.  Such a call has stored no match in
advance, and no other lookup can come upon that.
-/
def reentries : Sentinel α where
  objects _ around parser cursor := parser.memo?.isSome && around.any fun (outer, place) =>
    outer.memo? == parser.memo? && place.offset == cursor.offset &&
      place.left.key == cursor.left.key

variable {sentinel : Sentinel α} {alarm : Stop} {rules : Rules α} {fuel : Nat}
  {around : List (Parser α × Cursor α)} {parser : Parser α} {cursor : Cursor α} {engine : Engine α}

/-- A call to which nobody objects goes its way. -/
theorem run_succ (h : sentinel.objects engine around parser cursor = false) :
    sentinel.run alarm rules (fuel + 1) around parser cursor engine =
      Engine.step rules fuel (sentinel.run alarm rules fuel ((parser, cursor) :: around)) parser
        cursor engine := by
  simp only [run, Bind.bind, StateT.bind, get, getThe, MonadStateOf.get, StateT.get, Pure.pure,
    Except.pure, Except.bind, h]
  rfl

/-- A call to which nobody objects ends as a step whose calls are watched. -/
theorem tracks_run {allowed : Stop → Prop} {call : Call α}
    {post : Option (Output α) → Engine α → Prop}
    (h : sentinel.objects engine around parser cursor = false)
    (hstep : Tracks allowed (Engine.step rules fuel (sentinel.run alarm rules fuel
      ((parser, cursor) :: around)) parser cursor) (Engine.step rules fuel call parser cursor)
      engine post) :
    Tracks allowed (sentinel.run alarm rules (fuel + 1) around parser cursor)
      (Engine.step rules fuel call parser cursor) engine post :=
  ⟨(run_succ h).trans hstep.same, hstep.ends⟩

/-- A call that returns is one to which nobody objects. -/
theorem of_run_ok {result : Option (Output α)} {out : Engine α}
    (h : sentinel.run alarm rules (fuel + 1) around parser cursor engine = .ok (result, out)) :
    sentinel.objects engine around parser cursor = false ∧
      Engine.step rules fuel (sentinel.run alarm rules fuel ((parser, cursor) :: around)) parser
        cursor engine = .ok (result, out) := by
  cases hobjects : sentinel.objects engine around parser cursor with
  | false => exact ⟨rfl, run_succ hobjects ▸ h⟩
  | true =>
      simp only [run, Bind.bind, StateT.bind, get, getThe, MonadStateOf.get, StateT.get, Pure.pure,
        Except.pure, Except.bind, hobjects] at h
      cases h

/-- Parses under the eyes of a sentinel, with the depth that a parse has. -/
def parse (sentinel : Sentinel α) (alarm : Stop) (grammar : Grammar α) : Matcher α :=
  fun cursor => do
    modify fun engine => { engine with horizon := max engine.horizon cursor.source.size }
    sentinel.run alarm grammar.rules
      (Engine.depthBound grammar.rules grammar.entry (← get).horizon) [] grammar.entry cursor

/-- A parse is watched as its run is. -/
theorem tracks_parse {allowed : Stop → Prop} {grammar : Grammar α}
    {post : Option (Output α) → Engine α → Prop}
    (h : Tracks allowed
      (sentinel.run alarm grammar.rules (Engine.depthBound grammar.rules grammar.entry
        (max engine.horizon cursor.source.size)) [] grammar.entry cursor)
      (Engine.run grammar.rules (Engine.depthBound grammar.rules grammar.entry
        (max engine.horizon cursor.source.size)) grammar.entry cursor)
      { engine with horizon := max engine.horizon cursor.source.size } post) :
    Tracks allowed (sentinel.parse alarm grammar cursor)
      (grammar.entry.parse grammar.rules cursor) engine post :=
  ⟨h.same, h.ends⟩

end Sentinel

/--
The text is parsed to an end, however deep the calls are, and no guard rejects a call on the way.
-/
def Grammar.ParsesFreely (grammar : Grammar α) (source : Source) : Prop :=
  ∃ alarm fuel outcome, Sentinel.rejections.run alarm grammar.rules fuel [] grammar.entry
    (.start source) .fresh = .ok outcome

end Packrat
