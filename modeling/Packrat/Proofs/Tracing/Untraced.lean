import Packrat.Proofs.Caching.Uncached
import Packrat.Proofs.Reuse.Shift

/-!
# Grammars without their traces

`untraced` takes all logged parsers for what they wrap.  Two grammars that are the same without
their traces differ in nothing but where calls are recorded.  A step of a node that records nothing
makes the same calls without its traces, on parts without theirs, and a parser marks a group exactly
if it does so without its traces, given room to look through them.
-/

namespace Packrat

variable {α : Type}

namespace Parser

mutual

/-- The parser without the records of its calls. -/
def untraced : Parser α → Parser α
  | .satisfy accepts payload => .satisfy accepts payload
  | .literal chars payload => .literal chars payload
  | .endOfInput payload => .endOfInput payload
  | .except parser excluded => .except parser.untraced (untracedAll excluded)
  | .firstOf alternatives => .firstOf (untracedAll alternatives)
  | .longestOf alternatives => .longestOf (untracedAll alternatives)
  | .sequence parts combine => .sequence (untracedAll parts) combine
  | .foldLeft left middle right combine =>
      .foldLeft left.untraced (untracedAll middle) right.untraced combine
  | .repeated parser atLeast atMost collect => .repeated parser.untraced atLeast atMost collect
  | .optional parser wrap => .optional parser.untraced wrap
  | .convert parser f => .convert parser.untraced f
  | .guarded id parser => .guarded id parser.untraced
  | .climb id alternatives => .climb id (untracedAll alternatives)
  | .nested parser => .nested parser.untraced
  | .memo id cache parser => .memo id cache parser.untraced
  | .clearing id cache parser => .clearing id cache parser.untraced
  | .logged _ parser => parser.untraced
  | .call rule => .call rule
  | .redirected move parser => .redirected move parser.untraced

/-- The parsers without the records of their calls. -/
def untracedAll : List (Parser α) → List (Parser α)
  | [] => []
  | parser :: parsers => parser.untraced :: untracedAll parsers

end

theorem untracedAll_eq_map (parsers : List (Parser α)) :
    untracedAll parsers = parsers.map untraced := by
  induction parsers with
  | nil => rfl
  | cons parser parsers ih => rw [untracedAll, ih, List.map_cons]

/-- How often the calls of the parser are recorded one right inside the other. -/
def logs : Parser α → Nat
  | .logged _ parser => parser.logs + 1
  | _ => 0

theorem exists_of_logs_succ {parser : Parser α} {count : Nat} (h : parser.logs = count + 1) :
    ∃ name part, parser = .logged name part ∧ part.logs = count := by
  cases parser with
  | logged name part => exact ⟨name, part, rfl, Nat.succ.inj h⟩
  | _ => cases h

end Parser

/-! ## Rules and grammars -/

def Definition.untraced : Definition α → Definition α
  | .body parser => .body parser.untraced
  | .missing => .missing
  | .pending => .pending

def Rules.untraced (rules : Rules α) : Rules α := ⟨rules.entries.map Definition.untraced⟩

/-- The grammar without the records of its calls. -/
def Grammar.untraced (grammar : Grammar α) : Grammar α :=
  ⟨grammar.rules.untraced, grammar.entry.untraced⟩

theorem Rules.find_untraced (rules : Rules α) (rule : Nat) :
    rules.untraced.find rule = (rules.find rule).untraced := by
  simp only [Rules.find, Rules.untraced, Array.getD_eq_getD_getElem?, Array.getElem?_map]
  cases rules.entries[rule]? <;> rfl

theorem Rules.untraced_ofBodies (bodies : List (Parser α)) :
    (ofBodies bodies).untraced = ofBodies (bodies.map Parser.untraced) := by
  rw [untraced, ofBodies, ofBodies, List.map_toArray, List.map_map, List.map_map]
  rfl

/-- In a grammar, records are kept right inside each other no more than so often. -/
theorem Grammar.exists_logs_le (grammar : Grammar α) :
    ∃ most, ∀ node ∈ grammar.nodes, node.logs ≤ most := by
  induction grammar.nodes with
  | nil => exact ⟨0, nofun⟩
  | cons parser parsers ih =>
      obtain ⟨most, hmost⟩ := ih
      refine ⟨max parser.logs most, List.forall_mem_cons.mpr ⟨Nat.le_max_left _ _, ?_⟩⟩
      exact fun node hnode => Nat.le_trans (hmost node hnode) (Nat.le_max_right _ _)

/-! ## Steps without traces -/

namespace Engine

variable {call : Call α} {f : Parser α → Parser α} {cursor : Cursor α} {rules : Rules α}
  {fuel : Nat}

theorem attemptAll_map (id index : Nat) (parsers : List (Parser α)) :
    attemptAll call id index (parsers.map f) cursor =
      attemptAll (fun part => call (f part)) id index parsers cursor := by
  induction parsers generalizing index with
  | nil => rfl
  | cons parser parsers ih => simp only [List.map_cons, attemptAll, attempt, ih]

theorem climbMatch_map (restarts : Parser α → Except Stop Bool) (id : Nat)
    (parsers : List (Parser α)) :
    climbMatch call restarts id (parsers.map f) cursor =
      climbMatch (fun part => call (f part)) (fun part => restarts (f part)) id parsers cursor := by
  simp only [climbMatch, attemptAll_map, ← List.map_drop]
  congr 1
  funext active?
  cases active? with
  | none => rfl
  | some active =>
      simp only
      cases parsers.drop active with
      | nil => rfl
      | cons alternative tighter => simp only [List.map_cons, attemptAll_map, attempt]

/-- A precedence node does without traces what it does on parts without theirs. -/
theorem step_untraced_climb (id : Nat) (alternatives : List (Parser α)) :
    step rules.untraced fuel call (Parser.climb id alternatives).untraced cursor =
      climbMatch (fun part => call part.untraced)
        (fun part => restarts rules.untraced fuel part.untraced) id alternatives cursor := by
  simp only [Parser.untraced, Parser.untracedAll_eq_map, step, climbMatch_map]

/-- A node that records nothing does without traces what it does on parts without theirs. -/
theorem step_untraced {parser : Parser α} (hlogs : parser.logs = 0)
    (hclimb : ∀ id alternatives, parser ≠ .climb id alternatives) :
    step rules.untraced fuel call parser.untraced cursor =
      step rules fuel (fun part => call part.untraced) parser cursor := by
  cases parser with
  | except parser excluded =>
      simp only [Parser.untraced, Parser.untracedAll_eq_map, step, unlessMatch, firstMatch_map]
  | firstOf alternatives =>
      simp only [Parser.untraced, Parser.untracedAll_eq_map, step, firstMatch_map]
  | longestOf alternatives =>
      simp only [Parser.untraced, Parser.untracedAll_eq_map, step, longestMatch_map]
  | sequence parts combine =>
      simp only [Parser.untraced, Parser.untracedAll_eq_map, step, inSequence_map]
  | foldLeft left middle right combine =>
      simp only [Parser.untraced, Parser.untracedAll_eq_map, step, foldStep, inSequence_map]
      rfl
  | repeated parser atLeast atMost collect =>
      simp only [Parser.untraced, step, repetition, repeatMatch_map]
  | climb id alternatives => exact absurd rfl (hclimb id alternatives)
  | logged name part => cases hlogs
  | call rule =>
      simp only [Parser.untraced, step, Rules.find_untraced]
      cases rules.find rule <;> rfl
  | _ => rfl

end Engine

/-! ## Groups -/

namespace Rules

variable {rules : Rules α} {parser part : Parser α} {fuel fuel' : Nat} {answer : Bool}

/-- What marks no group by itself wraps the same without traces. -/
theorem wrapped?_untraced (h : parser.logs = 0) :
    rules.untraced.wrapped? parser.untraced = (rules.wrapped? parser).map Parser.untraced := by
  cases parser with
  | logged name part => cases h
  | call rule =>
      simp only [Parser.untraced, wrapped?, find_untraced]
      cases rules.find rule <;> rfl
  | _ => rfl

theorem restarts_untraced_of_none (hlogs : parser.logs = 0) (h : rules.wrapped? parser = none) :
    Engine.restarts rules.untraced (fuel + 1) parser.untraced =
      Engine.restarts rules (fuel' + 1) parser := by
  cases parser with
  | logged name part => cases hlogs
  | call rule =>
      simp only [Parser.untraced, Engine.restarts, find_untraced]
      simp only [wrapped?] at h
      cases hfind : rules.find rule with
      | body parser => rw [hfind] at h; cases h
      | missing => rfl
      | pending => rfl
  | convert parser f => cases h
  | guarded id parser => cases h
  | memo id cache parser => cases h
  | clearing id cache parser => cases h
  | _ => rfl

/-- Without traces less room is needed to find out whether a parser marks a group. -/
theorem restarts_untraced (h : Engine.restarts rules fuel parser = .ok answer)
    (hle : fuel ≤ fuel') :
    Engine.restarts rules.untraced fuel' parser.untraced = .ok answer := by
  induction fuel generalizing fuel' parser with
  | zero => cases h
  | succ fuel ih =>
      cases hlogs : parser.logs with
      | succ count =>
          obtain ⟨name, part, rfl, -⟩ := Parser.exists_of_logs_succ hlogs
          have hpart : Engine.restarts rules fuel part = .ok answer := h
          have hall := ih hpart (Nat.le_of_succ_le hle)
          exact hall
      | zero =>
          obtain ⟨room, rfl⟩ := Nat.exists_eq_succ_of_ne_zero (Nat.ne_of_gt (Nat.zero_lt_of_lt hle))
          cases hwrapped : rules.wrapped? parser with
          | none => exact (restarts_untraced_of_none hlogs hwrapped).trans h
          | some part =>
              have hwrapped' : rules.untraced.wrapped? parser.untraced = some part.untraced := by
                rw [wrapped?_untraced hlogs, hwrapped, Option.map_some]
              rw [restarts_of_some hwrapped] at h
              rw [restarts_of_some hwrapped']
              exact ih h (Nat.le_of_succ_le_succ hle)

end Rules

/-- With room to look through the records as well, a parser with traces marks what it marks. -/
theorem Grammar.restarts_of_untraced {grammar : Grammar α} {most : Nat}
    (hmost : ∀ node ∈ grammar.nodes, node.logs ≤ most) {parser : Parser α}
    (hnode : parser ∈ grammar.nodes) {fuel room : Nat} {answer : Bool}
    (h : Engine.restarts grammar.rules.untraced fuel parser.untraced = .ok answer)
    (hroom : fuel * (most + 1) ≤ room) :
    Engine.restarts grammar.rules room parser = .ok answer := by
  induction fuel generalizing parser room with
  | zero => cases h
  | succ fuel ih =>
      -- the records around the parser take as much room as there are
      have hinner : fuel * (most + 1) + parser.logs < room := by
        have hlogs := hmost parser hnode
        rw [Nat.succ_mul] at hroom
        omega
      clear hroom
      induction hlogs : parser.logs generalizing parser room with
      | succ count ihcount =>
          obtain ⟨name, part, rfl, hcount⟩ := Parser.exists_of_logs_succ hlogs
          obtain ⟨room, rfl⟩ := Nat.exists_eq_add_of_lt hinner
          have hpart : part ∈ grammar.nodes := child_mem_nodes hnode List.mem_cons_self
          have hsame : Engine.restarts grammar.rules.untraced (fuel + 1) part.untraced =
              .ok answer := h
          exact ihcount hpart hsame (by omega) hcount
      | zero =>
          obtain ⟨room, rfl⟩ := Nat.exists_eq_add_of_lt hinner
          cases hwrapped : grammar.rules.wrapped? parser with
          | none => exact (Rules.restarts_untraced_of_none hlogs hwrapped).symm.trans h
          | some part =>
              have hwrapped' : grammar.rules.untraced.wrapped? parser.untraced =
                  some part.untraced := by
                rw [Rules.wrapped?_untraced hlogs, hwrapped, Option.map_some]
              rw [Rules.restarts_of_some hwrapped'] at h
              rw [Rules.restarts_of_some hwrapped]
              exact ih (wrapped_mem_nodes hnode hwrapped) h (by omega)

end Packrat
