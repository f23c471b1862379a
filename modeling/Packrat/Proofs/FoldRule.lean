import Packrat.Proofs.FoldRule.Run

/-!
# What left-associative rules find

A left-associative rule fails if it has no atom, and else folds the first atom with all the steps
behind it, on every text and from every place of it.  Folds inside the atom or the last operand
break this: one takes up the operand that the rule has left for itself, and the other refuses to be
a right operand.
-/

namespace Packrat

variable {α : Type}

namespace FoldRule

variable {rule : FoldRule α} {cursor : Cursor α} {engine : Engine α}

/-- A step matches no empty text if one of its parts does not. -/
theorem Proper.of_consuming
    (hfronted : ∀ before after, rule.middle ++ [rule.last] = before ++ .self :: after →
      ∃ front parser, before = front ++ [.own parser] ∧ parser.Consuming rule.grammar.rules)
    {parser : Parser α} (hmem : parser ∈ rule.parts)
    (hconsuming : parser.Consuming rule.grammar.rules) : rule.Proper where
  fronted := hfronted
  consumes _ _ _ hleft hstep :=
    hstep.offset_lt rule.direct (fun _ => rule.mem_nodes_of_part) hmem hconsuming hleft

/-! ## Folds to the left -/

/--
Where no fold but its own sees its operands, a left-associative rule folds the first atom with all
the steps behind it, and fails if there is no atom.
-/
theorem parse_folds_left (rule : FoldRule α) (hproper : rule.Proper) (hfree : rule.FoldFree)
    (hleft : cursor.left = .empty) (hrested : engine.Rested) :
    Yields (rule.grammar.entry.parse rule.grammar.rules cursor) engine fun output engine' =>
      rule.Folds cursor output ∧ engine'.Rested := by
  have hrested' := hrested.withHorizon (max engine.horizon cursor.source.size)
  have hfuel : rule.depth (cursor.source.size - cursor.offset + 1) ≤
      Engine.depthBound rule.grammar.rules rule.grammar.entry
        (max engine.horizon cursor.source.size) := by
    apply depth_le_depthBound
    omega
  apply yields_parse
  apply ((runs_below hproper hfree _).alone (Nat.lt_succ_self _) hfuel hleft
    (.of_rested hrested' _) (hrested'.not_mem_active _ _)).mono
  rintro output engine' ⟨hfolds, hsame⟩
  exact ⟨hfolds, hrested'.untouched hsame⟩

/-- Choices over letters: `E := E ? E : E | a | … | z`. -/
def choices : FoldRule String where
  guard := 0
  middle := [.own (.literal ['?'] "?"), .self, .own (.literal [':'] ":")]
  last := .self
  combine payloads := "(" ++ String.join payloads ++ ")"
  atom := .satisfy Char.isLower String.singleton
  plain := rfl
  guard_unused := List.not_mem_nil

theorem choices_proper : choices.Proper := by
  have hquestion : (Parser.literal ['?'] "?").Consuming choices.grammar.rules :=
    Parser.consuming_literal _ _ (by decide)
  have hcolon : (Parser.literal [':'] ":").Consuming choices.grammar.rules :=
    Parser.consuming_literal _ _ (by decide)
  apply Proper.of_consuming _ List.mem_cons_self hquestion
  intro before after h
  match before, h with
  | [], h => cases h
  | [_], h =>
      cases h
      exact ⟨[], _, rfl, hquestion⟩
  | [_, _], h => cases h
  | [_, _, _], h =>
      cases h
      exact ⟨[.own (.literal ['?'] "?"), .self], _, rfl, hcolon⟩
  | _ :: _ :: _ :: _ :: before, h => simp [choices] at h

theorem choices_free : choices.FoldFree := ⟨rfl, rfl⟩

/-- A choice in the middle is folded on its own, and behind a colon stands a letter. -/
theorem choices_folded :
    choices.Proper ∧ choices.FoldFree ∧ (Engine.fresh : Engine String).Rested ∧
      ∃ output engine', choices.grammar.entry.parse choices.grammar.rules
          (.start (.ofString "a?b?c:d:e?f:g")) .fresh = .ok (some output, engine') ∧
        output.payload = "((a?(b?c:d):e)?f:g)" ∧ output.next.offset = 13 ∧
          choices.Folds (.start (.ofString "a?b?c:d:e?f:g")) (some output) ∧ engine'.Rested := by
  refine ⟨choices_proper, choices_free, Engine.rested_fresh, ?_⟩
  have hseen : choices.grammar.entry.seen choices.grammar.rules
      (.start (.ofString "a?b?c:d:e?f:g")) = .ok (some ("((a?(b?c:d):e)?f:g)", 13)) := by
    decide +kernel
  obtain ⟨found, engine', hrun, hfolds, hrested⟩ := parse_folds_left choices choices_proper
    choices_free (show (Cursor.start (.ofString "a?b?c:d:e?f:g")).left = .empty from rfl)
    Engine.rested_fresh
  obtain ⟨output, houtcome, hmap⟩ := Parser.seen_eq_ok hseen
  obtain ⟨output, rfl, hpair⟩ := Option.map_eq_some_iff.mp hmap
  obtain ⟨hpayload, hoffset⟩ := Prod.mk.inj hpair
  rw [Parser.outcome, StateT.run', hrun] at houtcome
  obtain rfl : found = some output := Except.ok.inj houtcome
  exact ⟨output, engine', hrun, hpayload, hoffset, hfolds, hrested⟩

/-! ## Folds inside the atom and the last operand -/

/-- A call that ends somewhere else does not find what the rule should fold. -/
theorem not_yields_of_seen {expected : Output α} {payload : α} {offset : Nat}
    (hfolds : rule.Folds cursor (some expected))
    (hseen : rule.grammar.entry.seen rule.grammar.rules cursor = .ok (some (payload, offset)))
    (hne : offset ≠ expected.next.offset) :
    ¬ Yields (rule.grammar.entry.parse rule.grammar.rules cursor) .fresh fun output _ =>
      rule.Folds cursor output := by
  intro h
  obtain ⟨output, houtcome, hfolds'⟩ := Parser.outcome_of_yields h
  obtain rfl := hfolds'.unique hfolds
  rw [Parser.seen, houtcome] at hseen
  cases hseen
  exact hne rfl

/-- Two operands with a sign between them, in brackets. -/
def bracketed : List String → String
  | [x, sign, y] => "(" ++ x ++ " " ++ sign ++ " " ++ y ++ ")"
  | _ => ""

/-- Differences: `E := E - last | atom`. -/
def differences (atom last : Parser String)
    (hplain : Parser.plainAll [atom, .literal ['-'] "-", last] = true)
    (hguard : 0 ∉ Parser.guardsAll [atom, .literal ['-'] "-", last]) : FoldRule String where
  guard := 0
  middle := [.own (.literal ['-'] "-")]
  last := .own last
  combine := bracketed
  atom := atom
  plain := hplain
  guard_unused := hguard

/-- A place of a text with nothing to its left. -/
def placeIn (text : String) (offset : Nat) (h : offset ≤ (Source.ofString text).size) :
    Cursor String where
  source := .ofString text
  offset := offset
  rest := Text.dropBytes offset (Source.ofString text).chars
  left := .empty
  rest_eq := rfl
  offset_le := h

theorem outcome_placeIn {rule : FoldRule String} {parser : Parser String}
    (hnode : parser ∈ rule.grammar.nodes) {text payload : String} {start behind : Nat}
    {hstart : start ≤ (Source.ofString text).size} (hbehind : behind ≤ (Source.ofString text).size)
    (h : parser.seen rule.grammar.rules (placeIn text start hstart) =
      .ok (some (payload, behind))) :
    parser.outcome rule.grammar.rules (placeIn text start hstart) =
      .ok (some ⟨payload, placeIn text behind hbehind⟩) := by
  have hsource : (placeIn text behind hbehind).source = (placeIn text start hstart).source := rfl
  exact Parser.outcome_of_seen rule.direct hnode rfl hsource rfl h

section Differences

variable {atom last : Parser String}
  {hplain : Parser.plainAll [atom, .literal ['-'] "-", last] = true}
  {hguard : 0 ∉ Parser.guardsAll [atom, .literal ['-'] "-", last]}

theorem differences_proper : (differences atom last hplain hguard).Proper := by
  have hminus := Parser.consuming_literal (differences atom last hplain hguard).grammar.rules "-"
    (show ['-'] ≠ [] by decide)
  apply Proper.of_consuming _ List.mem_cons_self hminus
  intro before after h
  have hself : .self ∈ [Element.own (.literal ['-'] "-"), .own last] := by
    rw [show [Element.own (.literal ['-'] "-"), .own last] = before ++ .self :: after from h]
    exact List.mem_append_right _ List.mem_cons_self
  simp at hself

/-- One step is taken behind the first atom, and no more. -/
theorem differences_folds {rule : FoldRule String}
    (hrule : rule = differences atom last hplain hguard) {text x y : String}
    {first second third : Nat}
    (hfirst : first ≤ (Source.ofString text).size) (hsecond : second ≤ (Source.ofString text).size)
    (hthird : third ≤ (Source.ofString text).size)
    (hatom : atom.seen rule.grammar.rules (placeIn text 0 (Nat.zero_le _)) = .ok (some (x, first)))
    (hsign : (Parser.literal ['-'] "-").seen rule.grammar.rules (placeIn text first hfirst) =
      .ok (some ("-", second)))
    (hlast : last.seen rule.grammar.rules (placeIn text second hsecond) = .ok (some (y, third)))
    (hend : (Parser.literal ['-'] "-").seen rule.grammar.rules (placeIn text third hthird) =
      .ok none) :
    rule.Folds (placeIn text 0 (Nat.zero_le _))
      (some ⟨bracketed [x, "-", y], placeIn text third hthird⟩) := by
  subst hrule
  have hsignnode : .literal ['-'] "-" ∈ (differences atom last hplain hguard).grammar.nodes :=
    mem_nodes_of_part _ List.mem_cons_self
  have hlastnode : last ∈ (differences atom last hplain hguard).grammar.nodes :=
    mem_nodes_of_part _ (List.mem_cons_of_mem _ List.mem_cons_self)
  have hstep : (differences atom last hplain hguard).Step (placeIn text first hfirst) ["-", y]
      (placeIn text third hthird) :=
    .cons (outcome_placeIn hsignnode hsecond hsign)
      (.cons (outcome_placeIn hlastnode hthird hlast) (.nil _))
  have hended : (differences atom last hplain hguard).Ended (placeIn text third hthird) := by
    rintro payloads next (_ | ⟨h, -⟩)
    obtain ⟨output, hoks, hnone⟩ := Parser.seen_eq_ok hend
    cases h.symm.trans hoks
    cases hnone
  exact ⟨_, outcome_placeIn (atom_mem_nodes _) hfirst hatom,
    ⟨[["-", y]], .cons hstep (.nil _), rfl⟩, hended, rfl⟩

end Differences

def digit : Parser String := .satisfy Char.isDigit String.singleton

/-- Sums of two digits or more, which call no rule. -/
def digitSum : Parser String :=
  -- 2 ^ 64, which the table of guards hashes as it does 0: the kernel can run rules with both
  .foldedLeft 18446744073709551616 digit [.literal ['+'] "+"] digit bracketed

/-- Differences of digits from a sum; the sum takes up the operand that the rule has left. -/
def fromSums : FoldRule String := differences digitSum digit rfl (by decide)

/-- Differences of sums from a digit; a sum is never a right operand. -/
def ofSums : FoldRule String := differences digit digitSum rfl (by decide)

/-- Neither the atom nor the last operand may be a fold. -/
theorem parse_not_folds_left :
    (fromSums.Proper ∧ fromSums.lastOperand.foldFree = true ∧
      ¬ Yields (fromSums.grammar.entry.parse fromSums.grammar.rules
          (placeIn "1+2-3+4" 0 (Nat.zero_le _))) .fresh fun output _ =>
        fromSums.Folds (placeIn "1+2-3+4" 0 (Nat.zero_le _)) output) ∧
      ofSums.Proper ∧ ofSums.atom.foldFree = true ∧
        ¬ Yields (ofSums.grammar.entry.parse ofSums.grammar.rules
            (placeIn "1-2+3" 0 (Nat.zero_le _))) .fresh fun output _ =>
          ofSums.Folds (placeIn "1-2+3" 0 (Nat.zero_le _)) output := by
  refine ⟨⟨differences_proper, rfl, ?_⟩, differences_proper, rfl, ?_⟩
  · have hfolds : fromSums.Folds (placeIn "1+2-3+4" 0 (Nat.zero_le _))
        (some ⟨"((1 + 2) - 3)", placeIn "1+2-3+4" 5 (by decide)⟩) := by
      apply differences_folds (x := "(1 + 2)") (y := "3") rfl (show 3 ≤ 7 by decide)
        (show 4 ≤ 7 by decide)
      · decide +kernel
      · decide +kernel
      · decide +kernel
      · decide +kernel
    have hseen : fromSums.grammar.entry.seen fromSums.grammar.rules
        (placeIn "1+2-3+4" 0 (Nat.zero_le _)) = .ok (some ("(((1 + 2) - 3) + 4)", 7)) := by
      decide +kernel
    exact not_yields_of_seen hfolds hseen (by decide)
  · have hfolds : ofSums.Folds (placeIn "1-2+3" 0 (Nat.zero_le _))
        (some ⟨"(1 - (2 + 3))", placeIn "1-2+3" 5 (by decide)⟩) := by
      apply differences_folds (x := "1") (y := "(2 + 3)") rfl (show 1 ≤ 5 by decide)
        (show 2 ≤ 5 by decide)
      · decide +kernel
      · decide +kernel
      · decide +kernel
      · decide +kernel
    have hseen : ofSums.grammar.entry.seen ofSums.grammar.rules
        (placeIn "1-2+3" 0 (Nat.zero_le _)) = .ok (some ("1", 1)) := by
      decide +kernel
    exact not_yields_of_seen hfolds hseen (by decide)

end FoldRule

end Packrat
