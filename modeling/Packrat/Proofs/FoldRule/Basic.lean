import Packrat.Proofs.Plain.Settles

/-!
# Left-associative rules

A left-associative rule takes a fold, whose left operand is the rule itself, or else an atom.  What
a fold should come to is told by steps: behind the first atom, all that stands behind the left
operand is matched over and over, for as long as it matches in full.  In the middle the rule itself
stands for all that it matches, and at the end for an atom.
-/

namespace Packrat

variable {α : Type}

/-! ## Rules -/

/-- What stands behind the left operand of a fold. -/
inductive FoldRule.Element (α : Type) where
  /-- A parser that calls no rule. -/
  | own (parser : Parser α)
  /-- The rule itself. -/
  | self

namespace FoldRule.Element

/-- The parser that stands in the grammar. -/
def parser : Element α → Parser α
  | own parser => parser
  | self => .call 0

def own? : Element α → Option (Parser α)
  | own parser => some parser
  | self => none

end FoldRule.Element

/--
The parts of a left-associative rule.  Atom and elements call no rule, apart from the elements that
are the rule itself, and the guard of the left operand is an instance of its own.
-/
structure FoldRule (α : Type) where
  guard : Nat
  middle : List (FoldRule.Element α)
  last : FoldRule.Element α
  combine : List α → α
  atom : Parser α
  plain : Parser.plainAll (atom :: (middle ++ [last]).filterMap FoldRule.Element.own?) = true
  guard_unused :
    guard ∉ Parser.guardsAll (atom :: (middle ++ [last]).filterMap FoldRule.Element.own?)

namespace FoldRule

/-- All parsers of the rule that call no rule. -/
def owns (rule : FoldRule α) : List (Parser α) :=
  rule.atom :: (rule.middle ++ [rule.last]).filterMap Element.own?

/-- The fold over the rule itself. -/
def fold (rule : FoldRule α) : Parser α :=
  .foldedLeft rule.guard (.call 0) (rule.middle.map Element.parser) rule.last.parser rule.combine

/-- The body of the rule. -/
def expression (rule : FoldRule α) : Parser α := .firstOf [rule.fold, rule.atom]

/-- The grammar of the one rule. -/
def grammar (rule : FoldRule α) : Grammar α := ⟨.ofBodies [rule.expression], .call 0⟩

/-- The one rule of the grammar. -/
theorem find_rules (rule : FoldRule α) : rule.grammar.rules.find 0 = .body rule.expression := by
  rw [grammar, Rules.find_ofBodies]
  rfl

/-! ## Steps -/

/-- What a right operand is: of the rule itself, an atom. -/
def lastOperand (rule : FoldRule α) : Parser α :=
  match rule.last with
  | .own parser => parser
  | .self => rule.atom

/-- What is matched in one step. -/
def parts (rule : FoldRule α) : List (Parser α) :=
  rule.middle.map Element.parser ++ [rule.lastOperand]

/-- One step behind a left operand, with the payloads that it gives. -/
def Step (rule : FoldRule α) (cursor : Cursor α) (payloads : List α) (next : Cursor α) : Prop :=
  InRow rule.grammar.rules rule.parts cursor payloads next

/-- Steps one after another. -/
inductive Steps (rule : FoldRule α) : Cursor α → List (List α) → Cursor α → Prop
  | nil (cursor : Cursor α) : Steps rule cursor [] cursor
  | cons {cursor mid next : Cursor α} {payloads : List α} {steps : List (List α)}
      (h : rule.Step cursor payloads mid) (hs : Steps rule mid steps next) :
      Steps rule cursor (payloads :: steps) next

/-- No step can be taken here. -/
def Ended (rule : FoldRule α) (cursor : Cursor α) : Prop :=
  ∀ payloads next, ¬ rule.Step cursor payloads next

/-- An operand is folded to the left with all the steps that can be taken behind it. -/
structure Folded (rule : FoldRule α) (x : α) (cursor : Cursor α) (output : Output α) : Prop where
  exists_steps : ∃ steps, rule.Steps cursor steps output.next ∧
    output.payload = steps.foldl (fun x payloads => rule.combine (x :: payloads)) x
  ended : rule.Ended output.next
  left : output.next.left = .empty

/--
What a left-associative rule finds: nothing if there is no atom, and else the first atom folded with
all the steps behind it.
-/
def Folds (rule : FoldRule α) (cursor : Cursor α) : Option (Output α) → Prop
  | none => rule.atom.outcome rule.grammar.rules cursor = .ok none
  | some output => ∃ first, rule.atom.outcome rule.grammar.rules cursor = .ok (some first) ∧
      rule.Folded first.payload first.next output

/-! ## Conditions -/

/-- The rule cannot come back to itself at one place, neither in a step nor by taking steps. -/
structure Proper (rule : FoldRule α) : Prop where
  /-- In front of the rule itself there is a parser of its own that matches no empty text. -/
  fronted : ∀ before after, rule.middle ++ [rule.last] = before ++ .self :: after →
    ∃ front parser, before = front ++ [.own parser] ∧ parser.Consuming rule.grammar.rules
  /-- A step does not match the empty text. -/
  consumes : ∀ cursor payloads next, cursor.left = .empty → rule.Step cursor payloads next →
    cursor.offset < next.offset

/-- No fold but that of the rule sees the operands of the rule. -/
structure FoldFree (rule : FoldRule α) : Prop where
  atom : rule.atom.foldFree = true
  last : rule.lastOperand.foldFree = true

/-! ## What can be taken is determined -/

variable {rule : FoldRule α} {cursor next next' : Cursor α} {steps steps' : List (List α)}

/-- Where steps have come to an end, all others that could be taken are among them. -/
theorem Steps.exists_append (h : rule.Steps cursor steps next) (hended : rule.Ended next)
    (h' : rule.Steps cursor steps' next') :
    ∃ more, steps = steps' ++ more ∧ rule.Steps next' more next := by
  induction h' generalizing steps with
  | nil cursor => exact ⟨steps, rfl, h⟩
  | cons hstep _ ih =>
      cases h with
      | nil => exact absurd hstep (hended _ _)
      | cons hstep' hs' =>
          obtain ⟨rfl, rfl⟩ := hstep'.unique hstep
          obtain ⟨more, rfl, hmore⟩ := ih hs'
          exact ⟨more, rfl, hmore⟩

/-- No step can be taken where the middle elements do not match. -/
theorem ended_of_middle (h : ∀ payloads behind,
    ¬ InRow rule.grammar.rules (rule.middle.map Element.parser) cursor payloads behind) :
    rule.Ended cursor := by
  intro payloads next hstep
  obtain ⟨_, _, _, hmiddle, -⟩ := InRow.exists_of_append_one hstep
  exact h _ _ hmiddle

/-- No step can be taken where there is no right operand behind the middle elements. -/
theorem ended_of_last {payloads : List α} {behind : Cursor α}
    (hmiddle : InRow rule.grammar.rules (rule.middle.map Element.parser) cursor payloads behind)
    (hlast : rule.lastOperand.outcome rule.grammar.rules behind = .ok none) : rule.Ended cursor := by
  intro payloads' next hstep
  obtain ⟨_, mid, output, hmiddle', hlast', -⟩ := InRow.exists_of_append_one hstep
  obtain ⟨-, rfl⟩ := hmiddle'.unique hmiddle
  cases hlast.symm.trans hlast'

/-- A step in front of folded steps is folded with them. -/
theorem Folded.of_step {x : α} {payloads : List α} {output : Output α}
    (hstep : rule.Step cursor payloads next)
    (h : rule.Folded (rule.combine (x :: payloads)) next output) : rule.Folded x cursor output := by
  obtain ⟨steps, hsteps, hpayload⟩ := h.exists_steps
  exact ⟨⟨payloads :: steps, .cons hstep hsteps, hpayload⟩, h.ended, h.left⟩

theorem Folded.unique {x : α} {output output' : Output α} (h : rule.Folded x cursor output)
    (h' : rule.Folded x cursor output') : output = output' := by
  obtain ⟨steps, hsteps, hpayload⟩ := h.exists_steps
  obtain ⟨steps', hsteps', hpayload'⟩ := h'.exists_steps
  obtain ⟨more, rfl, hmore⟩ := hsteps.exists_append h.ended hsteps'
  cases output
  cases output'
  cases hmore with
  | nil =>
      rw [List.append_nil] at hpayload
      cases hpayload.trans hpayload'.symm
      rfl
  | cons hstep _ => exact absurd hstep (h'.ended _ _)

/-- What a left-associative rule finds is determined. -/
theorem Folds.unique {output output' : Option (Output α)} (h : rule.Folds cursor output)
    (h' : rule.Folds cursor output') : output = output' := by
  cases output with
  | none =>
      cases output' with
      | none => rfl
      | some output' =>
          obtain ⟨first, hfirst, -⟩ := h'
          cases h.symm.trans hfirst
  | some output =>
      obtain ⟨first, hfirst, hfolded⟩ := h
      cases output' with
      | none => cases hfirst.symm.trans h'
      | some output' =>
          obtain ⟨first', hfirst', hfolded'⟩ := h'
          cases hfirst.symm.trans hfirst'
          rw [hfolded.unique hfolded']

/-! ## The nodes of the grammar -/

theorem mem_owns_of_own {parser : Parser α} (h : .own parser ∈ rule.middle ++ [rule.last]) :
    parser ∈ rule.owns :=
  List.mem_cons_of_mem _ (List.mem_filterMap.mpr ⟨.own parser, h, rfl⟩)

theorem atom_mem_owns (rule : FoldRule α) : rule.atom ∈ rule.owns := List.mem_cons_self

theorem lastOperand_mem_owns (rule : FoldRule α) : rule.lastOperand ∈ rule.owns := by
  rw [lastOperand]
  split
  · rename_i parser hlast
    apply mem_owns_of_own
    rw [← hlast]
    exact List.mem_append_right _ List.mem_cons_self
  · exact rule.atom_mem_owns

theorem plain_of_mem_owns {parser : Parser α} (h : parser ∈ rule.owns) : parser.plain = true :=
  Parser.plain_of_mem rule.plain h

section Nodes

variable (rule : FoldRule α)

theorem expression_mem_nodes : rule.expression ∈ rule.grammar.nodes :=
  Grammar.body_mem_nodes rule.find_rules

theorem atom_mem_nodes : rule.atom ∈ rule.grammar.nodes :=
  Grammar.child_mem_nodes rule.expression_mem_nodes (by simp [expression, Parser.children])

theorem fold_mem_nodes : rule.fold ∈ rule.grammar.nodes :=
  Grammar.child_mem_nodes rule.expression_mem_nodes List.mem_cons_self

theorem mem_nodes_of_element {element : Element α} (h : element ∈ rule.middle ++ [rule.last]) :
    element.parser ∈ rule.grammar.nodes := by
  apply Grammar.child_mem_nodes rule.fold_mem_nodes
  apply List.mem_cons_of_mem
  rw [← List.map_singleton, ← List.map_append]
  exact List.mem_map_of_mem h

theorem mem_nodes_of_part {parser : Parser α} (h : parser ∈ rule.parts) :
    parser ∈ rule.grammar.nodes := by
  rcases List.mem_append.mp h with h | h
  · obtain ⟨element, helement, rfl⟩ := List.mem_map.mp h
    exact rule.mem_nodes_of_element (List.mem_append_left _ helement)
  · obtain rfl := List.mem_singleton.mp h
    rw [lastOperand]
    split
    · rename_i parser hlast
      have hmem := rule.mem_nodes_of_element (List.mem_append_right _ List.mem_cons_self)
      rw [hlast] at hmem
      exact hmem
    · exact rule.atom_mem_nodes

/-- No node moves a cursor by hand. -/
theorem direct : rule.grammar.Direct := by
  intro move part hmem
  have hplain : ∀ {parser : Parser α}, parser.plain = true →
      Parser.redirected move part ∉ parser.nodes :=
    fun hplain hmem => Bool.false_ne_true (Parser.plain_of_mem_nodes hplain hmem)
  have helement : ∀ element ∈ rule.middle ++ [rule.last],
      Parser.redirected move part ∉ element.parser.nodes := by
    intro element hin
    cases element with
    | own parser => exact hplain (plain_of_mem_owns (mem_owns_of_own hin))
    | self => simp [Element.parser, Parser.nodes]
  simp only [grammar, Grammar.nodes, Rules.nodes, Rules.ofBodies, expression, fold,
    Parser.foldedLeft, List.map_cons, List.map_nil, List.flatMap_cons, List.flatMap_nil,
    Definition.nodes, Parser.nodes, Parser.nodesAll, List.append_nil, List.mem_append,
    List.mem_cons, List.not_mem_nil, reduceCtorEq, false_or, or_false] at hmem
  rcases hmem with (hmiddle | hlast) | hatom
  · rw [Parser.nodesAll_eq_flatMap] at hmiddle
    obtain ⟨_, hparser, hnode⟩ := List.mem_flatMap.mp hmiddle
    obtain ⟨element, hin, rfl⟩ := List.mem_map.mp hparser
    exact helement element (List.mem_append_left _ hin) hnode
  · exact helement rule.last (List.mem_append_right _ List.mem_cons_self) hlast
  · exact hplain (plain_of_mem_owns rule.atom_mem_owns) hatom

end Nodes

/-! ## Elements in a row -/

section Rows

variable {start here : Cursor α} {before after : List (Element α)} {payloads : List α}

theorem leads_elements (helements : rule.middle ++ [rule.last] = before ++ after)
    (hstart : start.left = .empty)
    (hrow : InRow rule.grammar.rules (before.map Element.parser) start payloads here) :
    start.Leads here ∧ here.left = .empty := by
  apply hrow.leads rule.direct _ hstart
  intro parser hmem
  obtain ⟨element, hin, rfl⟩ := List.mem_map.mp hmem
  apply rule.mem_nodes_of_element
  rw [helements]
  exact List.mem_append_left _ hin

theorem Step.leads {next : Cursor α} (hstart : start.left = .empty)
    (hstep : rule.Step start payloads next) : start.Leads next ∧ next.left = .empty :=
  InRow.leads rule.direct (fun _ => rule.mem_nodes_of_part) hstart hstep

/-- In front of the rule itself a parser has moved on. -/
theorem Proper.offset_lt (hproper : rule.Proper)
    (helements : rule.middle ++ [rule.last] = before ++ .self :: after)
    (hstart : start.left = .empty)
    (hrow : InRow rule.grammar.rules (before.map Element.parser) start payloads here) :
    start.offset < here.offset := by
  obtain ⟨front, parser, rfl, hconsuming⟩ := hproper.fronted before after helements
  rw [List.map_append, List.map_singleton] at hrow
  obtain ⟨_, mid, output, hfront, houtcome, -, rfl⟩ := hrow.exists_of_append_one
  rw [List.append_assoc] at helements
  obtain ⟨hleads, hleft⟩ := leads_elements helements hstart hfront
  exact Nat.lt_of_le_of_lt hleads.reaches.offset_le (hconsuming mid output hleft houtcome)

end Rows

end FoldRule

end Packrat
