import Mathlib.Logic.Relation
import Packrat.Proofs.Discipline

/-!
# What can match nothing

`Nullable` says of a node, by its form, that it may match without taking anything.  A match that
takes nothing is one of a nullable node, or it has taken up the operand that the cursor carried.  So
the calls that can follow one another at one place, as long as no operand is taken up, are known
from the grammar (`Slips`).
-/

namespace Packrat

variable {α : Type}

/-- A grammar gives every instance of a combinator a number of its own. -/
structure Grammar.Numbered (grammar : Grammar α) : Prop where
  memo : ∀ {id cache cache' parser parser'}, Parser.memo id cache parser ∈ grammar.nodes →
    Parser.memo id cache' parser' ∈ grammar.nodes → cache = cache' ∧ parser = parser'
  climb : ∀ {id alternatives alternatives'}, Parser.climb id alternatives ∈ grammar.nodes →
    Parser.climb id alternatives' ∈ grammar.nodes → alternatives = alternatives'

/-! ## Nullable nodes -/

/-- The node may match without taking anything, as far as its form tells. -/
inductive Nullable (rules : Rules α) : Parser α → Prop
  | literal {payload : α} : Nullable rules (.literal [] payload)
  | endOfInput {payload : α} : Nullable rules (.endOfInput payload)
  | passed {parser part : Parser α} (hpart : part ∈ parser.passed) (h : Nullable rules part) :
      Nullable rules parser
  | sequence {parts : List (Parser α)} {combine : List α → α}
      (h : ∀ part ∈ parts, Nullable rules part) : Nullable rules (.sequence parts combine)
  | foldLeft {left right : Parser α} {middle : List (Parser α)} {combine : List α → α}
      (hleft : Nullable rules left) (hmiddle : ∀ part ∈ middle, Nullable rules part)
      (hright : Nullable rules right) : Nullable rules (.foldLeft left middle right combine)
  | unasked {parser : Parser α} {atMost : Option Nat} {collect : List α → α} :
      Nullable rules (.repeated parser 0 atMost collect)
  | repeated {parser : Parser α} {atLeast : Nat} {atMost : Option Nat} {collect : List α → α}
      (h : Nullable rules parser) : Nullable rules (.repeated parser atLeast atMost collect)
  | optional {parser : Parser α} {wrap : Option α → α} : Nullable rules (.optional parser wrap)
  | convert {parser : Parser α} {f : α → Option α} (h : Nullable rules parser) :
      Nullable rules (.convert parser f)
  | call {rule : Nat} {parser : Parser α} (hfind : rules.find rule = .body parser)
      (h : Nullable rules parser) : Nullable rules (.call rule)

/-- Whether the node calls its parts in a row, each where the one before it has led to. -/
def Parser.InRow : Parser α → Prop
  | .sequence _ _ | .foldLeft _ _ _ _ => True
  | _ => False

/-- The first node may call the second one at the place of its own call, having taken nothing. -/
inductive Slips (rules : Rules α) : Parser α → Parser α → Prop
  | part {parser part : Parser α} {before after : List (Parser α)}
      (hchildren : parser.children = before ++ part :: after)
      (hbefore : parser.InRow → ∀ earlier ∈ before, Nullable rules earlier) :
      Slips rules parser part
  | body {rule : Nat} {parser : Parser α} (hfind : rules.find rule = .body parser) :
      Slips rules (.call rule) parser

theorem Slips.of_mem {rules : Rules α} {parser part : Parser α} (hpart : part ∈ parser.children)
    (hrow : ¬ parser.InRow) : Slips rules parser part := by
  obtain ⟨before, after, hchildren⟩ := List.append_of_mem hpart
  exact .part hchildren fun h => absurd h hrow

/-- The calls that begin at the entry of the grammar may come to the node. -/
inductive Grammar.Reached (grammar : Grammar α) : Parser α → Prop
  | entry : Reached grammar grammar.entry
  | child {parser part : Parser α} (h : Reached grammar parser) (hpart : part ∈ parser.children) :
      Reached grammar part
  | body {rule : Nat} {parser : Parser α} (h : Reached grammar (.call rule))
      (hfind : grammar.rules.find rule = .body parser) : Reached grammar parser

theorem Grammar.Reached.mem_nodes {grammar : Grammar α} {parser : Parser α}
    (h : grammar.Reached parser) : parser ∈ grammar.nodes := by
  induction h with
  | entry => exact entry_mem_nodes
  | child _ hpart ih => exact child_mem_nodes ih hpart
  | body _ hfind _ => exact body_mem_nodes hfind

theorem Slips.reached {grammar : Grammar α} {parser part : Parser α}
    (h : Slips grammar.rules parser part) (hreached : grammar.Reached parser) :
    grammar.Reached part := by
  cases h with
  | part hchildren _ =>
      refine hreached.child ?_
      rw [hchildren]
      exact List.mem_append_right _ List.mem_cons_self
  | body hfind => exact hreached.body hfind

/-! ## Matches that take nothing -/

/-- A match that takes nothing is one of a nullable node, or has taken up a carried operand. -/
def Goodness.progress (rules : Rules α) : Goodness α := fun _ parser cursor output =>
  cursor.Leads output.next ∧
    (output.next.offset = cursor.offset →
      Nullable rules parser ∨ cursor.left.isOperand = true ∧ output.next.left = .empty)

section Contract

variable {rules : Rules α} {grammar : Grammar α} {place : Nat} {cursor here behind : Cursor α}

/--
If parts in a row take nothing, all of them are nullable or one has taken up a carried operand.
-/
theorem Chain.progress {parsers : List (Parser α)} {payloads : List α}
    (h : Chain (.progress rules) place cursor here parsers payloads behind)
    (hoffset : behind.offset = here.offset) :
    (∀ part ∈ parsers, Nullable rules part) ∨
      here.left.isOperand = true ∧ behind.left = .empty := by
  induction h with
  | nil here => exact Or.inl nofun
  | @cons here behind parser parsers output payloads hhead htail ih =>
      have hrest := (htail.leads And.left).reaches.offset_le
      have hfirst := hhead.1.reaches.offset_le
      rcases hhead.2 (by omega) with hnullable | ⟨hoperand, hempty⟩
      · rcases ih (by omega) with hall | ⟨hoperand, hempty⟩
        · exact Or.inl (List.forall_mem_cons.mpr ⟨hnullable, hall⟩)
        · rcases hhead.1.left with hsame | hnone
          · exact Or.inr ⟨hsame ▸ hoperand, hempty⟩
          · rw [hnone] at hoperand
            cases hoperand
      · refine Or.inr ⟨hoperand, ?_⟩
        rcases (htail.leads And.left).left with hsame | hnone
        · exact hsame.trans hempty
        · exact hnone

/-- If a step of a fold takes nothing, it is nullable or has taken up a carried operand. -/
theorem FoldParts.progress {left right : Parser α} {middle : List (Parser α)}
    {first last : Output α}
    {payloads : List α} {combine : List α → α}
    (h : FoldParts (.progress rules) place cursor left middle right first payloads behind last)
    (hoffset : last.next.offset ≤ cursor.offset) :
    Nullable rules (.foldLeft left middle right combine) ∨ cursor.left.isOperand = true := by
  rcases h.operand with ⟨hempty, hfirst⟩ | ⟨tag, value, hleft, -⟩
  · have hmiddle := (h.middle.leads And.left).reaches.offset_le
    have hlast : behind.offset ≤ last.next.offset := h.last.1.reaches.offset_le
    have hbegin := hfirst.1.reaches.offset_le
    have hnone : first.next.left = .empty := hfirst.1.left.elim (fun hsame => hsame.trans hempty) id
    refine Or.inl (.foldLeft ?_ ?_ ?_)
    · rcases hfirst.2 (by omega) with hnullable | ⟨hoperand, -⟩
      · exact hnullable
      · rw [hempty] at hoperand
        cases hoperand
    · rcases h.middle.progress (by omega) with hall | ⟨hoperand, -⟩
      · exact hall
      · rw [hnone] at hoperand
        cases hoperand
    · rcases h.last.2 (show last.next.offset = behind.offset by omega) with hnullable |
      ⟨hoperand, -⟩
      · exact hnullable
      · cases hoperand
  · rw [hleft]
    exact Or.inr rfl

/-- Every match takes something, or is one of a nullable node, or takes up a carried operand. -/
theorem progress_contract (hnumbered : grammar.Numbered) :
    Contract grammar .idle (.progress grammar.rules) where
  leads h := h.1
  satisfy _ h := by
    obtain ⟨c, htakes, hleft, -, -⟩ := Engine.leads_takeChar h
    refine ⟨⟨⟨_, htakes⟩, Or.inl hleft⟩, fun hoffset => ?_⟩
    have hsum := htakes.offset_eq
    have hpos := c.utf8Size_pos
    rw [Text.byteLength_cons] at hsum
    omega
  literal {chars _ _ _ _} _ h := by
    obtain ⟨htakes, hleft, -⟩ := Engine.leads_takeLiteral h
    refine ⟨⟨⟨_, htakes⟩, Or.inl hleft⟩, fun hoffset => Or.inl ?_⟩
    have hsum := htakes.offset_eq
    have hnone : Text.byteLength chars = 0 := by omega
    obtain rfl := Text.byteLength_eq_zero_iff.mp hnone
    exact .literal
  endOfInput _ _ := ⟨.refl _, fun _ => Or.inl .endOfInput⟩
  passed _ hpart h := ⟨h.1, fun hoffset => (h.2 hoffset).imp_left (.passed hpart)⟩
  afresh _ hpart hplain h := by
    refine ⟨(Cursor.Leads.withoutLeft _).trans h.1, fun hoffset => ?_⟩
    rcases h.2 hoffset with hnullable | ⟨hoperand, -⟩
    · exact Or.inl (.passed hpart hnullable)
    · cases hoperand
  sequence _ h := ⟨h.leads And.left, fun hoffset => (h.progress hoffset).imp_left .sequence⟩
  folded _ h _ := by
    refine ⟨h.leads And.left, fun hoffset => ?_⟩
    exact (h.progress (Nat.le_of_eq hoffset)).imp_right fun hoperand => ⟨hoperand, rfl⟩
  extended _ h hextended hempty _ := by
    refine ⟨(h.leads And.left).trans (hextended.1.replaced hempty), fun hoffset => ?_⟩
    have hle := hextended.1.reaches.offset_le
    exact (h.progress (Nat.le_trans hle (Nat.le_of_eq hoffset))).imp_right
      fun hoperand => ⟨hoperand, hempty⟩
  repeated {parser atLeast _ _ _ _ count _ _} _ h hcount := by
    refine ⟨h.leads And.left, fun hoffset => (h.progress hoffset).imp_left fun hall => ?_⟩
    cases count with
    | zero =>
        obtain rfl := Nat.le_zero.mp hcount
        exact .unasked
    | succ count => exact .repeated (hall parser List.mem_cons_self)
  present _ h := ⟨h.1, fun hoffset => (h.2 hoffset).imp_left fun _ => .optional⟩
  absent _ := ⟨.refl _, fun _ => Or.inl .optional⟩
  converted _ h _ := ⟨h.1, fun hoffset => (h.2 hoffset).imp_left .convert⟩
  called _ hfind h := ⟨h.1, fun hoffset => (h.2 hoffset).imp_left (.call hfind)⟩
  shared hmemo hmemo' h := by
    obtain ⟨-, rfl⟩ := hnumbered.memo hmemo hmemo'
    exact h

end Contract

end Packrat
