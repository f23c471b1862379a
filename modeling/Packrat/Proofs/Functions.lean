import Packrat.Proofs.Mirror.Room
import Packrat.Proofs.Outcome

/-!
# Parsers that are functions of the cursor

What a parser finds may depend on what the engine remembers: on the guards that are busy, the
alternatives that are being tried and the results that are stored.  `Parser.Computes` says that it
does not, as long as the engine is in a state of some kind which the parser leaves again in a state
of that kind.  A parser that calls such a parser finds there what the function says.
-/

namespace Packrat

/-- A kind of states; how long the longest text was has no part in it. -/
structure Engine.Kind (α : Type) where
  holds : Engine α → Prop
  withHorizon : ∀ {engine : Engine α} (horizon : Nat), holds engine →
    holds { engine with horizon }

/-- All states are of this kind. -/
def Engine.Kind.any {α : Type} : Engine.Kind α := ⟨fun _ => True, fun _ _ => trivial⟩

variable {α : Type} {rules : Rules α} {parser part : Parser α} {kind : Engine.Kind α}
  {f : Cursor α → Option (Output α)} {cursor : Cursor α} {engine : Engine α} {fuel : Nat}

/--
In states of the kind, the parser finds what the function makes of the cursor, and leaves a state of
the kind behind.
-/
def Parser.Computes (rules : Rules α) (kind : Engine.Kind α) (parser : Parser α)
    (f : Cursor α → Option (Output α)) : Prop :=
  ∀ cursor engine, kind.holds engine →
    Yields (parser.parse rules cursor) engine fun found engine' =>
      found = f cursor ∧ kind.holds engine'

/-! ## Calls of parsers that are functions -/

/-- A part needs less room than the whole. -/
theorem Engine.depthBound_lt (rules : Rules α) (horizon : Nat) (hsize : part.size < parser.size) :
    depthBound rules part horizon < depthBound rules parser horizon := by
  have hnodes : rules.size + part.size + 3 < rules.size + parser.size + 3 := by omega
  unfold depthBound
  generalize rules.size + part.size + 3 = fewer at hnodes
  generalize rules.size + parser.size + 3 = nodes at hnodes
  have hsquare : fewer * fewer ≤ nodes * nodes := Nat.mul_le_mul hnodes.le hnodes.le
  have hnodes_pos := Nat.zero_lt_of_lt hnodes
  have hcube : fewer * fewer * fewer < nodes * nodes * nodes :=
    calc fewer * fewer * fewer
      _ ≤ nodes * nodes * fewer := Nat.mul_le_mul_right fewer hsquare
      _ < nodes * nodes * nodes :=
        Nat.mul_lt_mul_of_pos_left hnodes (Nat.mul_pos hnodes_pos hnodes_pos)
  exact Nat.mul_lt_mul_of_pos_right hcube (Nat.succ_pos horizon)

/-- Where there is room for it and the text is not too long, a call finds what the function says. -/
theorem Parser.Computes.yields_run (h : parser.Computes rules kind f) (hkind : kind.holds engine)
    (hsize : cursor.source.size ≤ engine.horizon)
    (hfuel : Engine.depthBound rules parser engine.horizon ≤ fuel) :
    Yields (Engine.run rules fuel parser cursor) engine fun found engine' =>
      found = f cursor ∧ kind.holds engine' ∧ engine'.horizon = engine.horizon := by
  obtain ⟨found, engine', hparse, hfound, hkind'⟩ := h cursor engine hkind
  have hwidened : parser.parse rules cursor engine =
      Engine.run rules (Engine.depthBound rules parser engine.horizon) parser cursor engine := by
    rw [show parser.parse rules cursor engine =
      Engine.run rules (Engine.depthBound rules parser (max engine.horizon cursor.source.size))
        parser cursor { engine with horizon := max engine.horizon cursor.source.size } from rfl,
      Nat.max_eq_left hsize]
  obtain ⟨hrun, hhorizon⟩ := run_of_le hfuel (hwidened.symm.trans hparse)
  exact Yields.of_eq hrun ⟨hfound, hkind', hhorizon⟩

/-- What a parser makes of a cursor is what its node makes of it, with room for all its calls. -/
theorem Parser.yields_parse_of_step {post : Option (Output α) → Engine α → Prop}
    (h : ∀ fuel horizon, cursor.source.size ≤ horizon →
      Engine.depthBound rules parser horizon = fuel + 1 →
        Yields (Engine.step rules fuel (Engine.run rules fuel) parser cursor)
          { engine with horizon } post) :
    Yields (parser.parse rules cursor) engine post := by
  obtain ⟨fuel, hfuel⟩ := Nat.exists_eq_add_of_lt (Engine.add_lt_depthBound rules parser
    (Nat.zero_le (max engine.horizon cursor.source.size)))
  apply yields_parse
  rw [hfuel]
  exact h _ _ (Nat.le_max_right _ _) hfuel

/-- What is known of a parser's outcome is seen of it. -/
theorem Parser.seen_of_yields {found : Option (Output α)}
    (h : Yields (parser.parse rules cursor) .fresh fun output _ => output = found) :
    parser.seen rules cursor =
      .ok (found.map fun output => (output.payload, output.next.offset)) := by
  obtain ⟨output, houtcome, rfl⟩ := outcome_of_yields h
  rw [seen, houtcome]
  rfl

/-! ## Some parsers that are functions -/

/-- A parser that calls no other is a function in all states. -/
theorem Parser.computes_of_step
    (h : ∀ fuel call cursor, Engine.step rules fuel call parser cursor = pure (f cursor)) :
    parser.Computes rules .any f := by
  intro cursor engine _
  apply yields_parse_of_step
  intro fuel horizon _ _
  rw [h]
  exact Yields.pure ⟨rfl, trivial⟩

/-- What an optional parser finds at a cursor, by what its part finds there. -/
def Output.optional (wrap : Option α → α) (cursor : Cursor α) : Option (Output α) → Output α
  | some output => { output with payload := wrap (some output.payload) }
  | none => ⟨wrap none, cursor⟩

theorem Parser.Computes.optional (h : parser.Computes rules kind f) (wrap : Option α → α) :
    (Parser.optional parser wrap).Computes rules kind fun cursor =>
      some (Output.optional wrap cursor (f cursor)) := by
  intro cursor engine hkind
  apply yields_parse_of_step
  intro fuel horizon hsize hfuel
  have hroom : Engine.depthBound rules parser horizon ≤ fuel := by
    have hlt := Engine.depthBound_lt rules horizon
      (show parser.size < (Parser.optional parser wrap).size from Nat.lt_succ_self _)
    omega
  refine Yields.bind ((h.yields_run (kind.withHorizon horizon hkind) hsize hroom).mono ?_)
  rintro found engine' ⟨hfound, hkind', -⟩
  have hfound' := congrArg (fun found => some (Output.optional wrap cursor found)) hfound
  cases found with
  | some output => exact Yields.pure ⟨hfound', hkind'⟩
  | none => exact Yields.pure ⟨hfound', hkind'⟩

end Packrat
