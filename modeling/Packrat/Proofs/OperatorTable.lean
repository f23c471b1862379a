import Packrat.Proofs.Ladder.Descent
import Packrat.Proofs.Ladder.Primaries

/-!
# Operator tables

A table lists levels of operators from loosest to tightest, and above them groups and atoms.  It
makes a grammar of calls of one precedence node, with or without a cache, and it makes a parser by
recursive descent.  The grammar answers as the parser does if no operator of a level is a beginning
of another one; otherwise the cache may change its answers, and this says when.
-/

namespace Packrat

open Text (byteLength)

variable {α : Type}

/-- What stands above the operators: an expression between two symbols, or a plain parser. -/
inductive Item (α : Type) where
  | group (memo : Nat) (name opening closing : String) (payload payload' : α)
  | atom (memo : Nat) (name : String) (parser : Parser α)

namespace Item

def memo : Item α → Nat
  | group memo _ _ _ _ _ => memo
  | atom memo _ _ => memo

/-- The item as a rule. -/
def primary (filler : α) : Item α → Primary α
  | group memo name opening closing payload payload' =>
      .group filler memo name opening closing payload payload'
  | atom memo name parser => .atom memo name parser

/-- What the item reads, given what an expression is. -/
def reading : Item α → Reader α → Reader α
  | group _ _ opening closing _ _, expression => .between opening closing expression
  | atom _ _ parser, _ => parser.read

/--
A group begins with a symbol that is not empty; an atom calls no rule and is not part of the
operators, whose precedence node and guards are given.
-/
def Fits (node : Nat) (guards : List Nat) : Item α → Prop
  | group _ _ opening _ _ _ => opening ≠ ""
  | atom _ _ parser =>
      parser.plain = true ∧ (∀ id ∈ parser.guards, id ∉ guards) ∧ node ∉ parser.climbs

end Item

/-- Operators and items; no two of the rules are one, and no two of the guards are. -/
structure OperatorTable (α : Type) where
  node : Nat
  filler : α
  levels : List (Level α)
  items : List (Item α)
  guards_nodup : (levels.flatMap Level.guards).Nodup
  memos_nodup : (levels.flatMap Level.memos ++ items.map Item.memo).Nodup
  fits : ∀ item ∈ items, item.Fits node (levels.flatMap Level.guards)

namespace OperatorTable

/-- The grammar of the table as a ladder. -/
def ladder (table : OperatorTable α) (cached traced : Bool) : Ladder α where
  node := table.node
  cached := cached
  traced := traced
  filler := table.filler
  levels := table.levels
  primaries := table.items.map (·.primary table.filler)
  around := []
  guards_nodup := by
    rw [List.append_nil]
    exact table.guards_nodup
  memos_nodup := by
    have hmemo : (table.items.map (·.primary table.filler)).map (·.memo) =
        table.items.map Item.memo := by
      rw [List.map_map]
      refine List.map_congr_left fun item _ => ?_
      cases item <;> rfl
    rw [hmemo]
    exact table.memos_nodup

/--
One precedence node over the levels, the groups and the atoms, in which every operand is a call of
the node.  A cached grammar stores the results of all its rules in one cache.
-/
def grammar (table : OperatorTable α) (cached traced : Bool) : Grammar α :=
  (table.ladder cached traced).grammar

/-- What the first of the items reads that reads anything. -/
def item (table : OperatorTable α) (expression : Reader α) : Reader α :=
  .first (table.items.map (·.reading expression))

/-- Recursive descent from the loosest level to the items, in which precedence starts over. -/
def reading (table : OperatorTable α) : Reader α :=
  .recursive fun expression => Ladder.descents table.levels (table.item expression)

/--
Recursive descent that chooses, after the first operand of a left-associative level, among all
operators of the level that fit there.
-/
def choosing (table : OperatorTable α) (choice : Choice) : Reader α :=
  .recursive fun expression => Ladder.strata choice table.levels (table.item expression)

/-! ## The grammar as a ladder -/

variable {table : OperatorTable α} {cached traced : Bool}

theorem bare_eq (expression : Reader α) :
    Ladder.bare (table.ladder cached traced).primaries expression = table.item expression := by
  change Reader.first ((table.items.map _).map _) = _
  rw [List.map_map]
  refine congrArg Reader.first (List.map_congr_left fun item _ => ?_)
  cases item <;> rfl

theorem proper (table : OperatorTable α) (cached traced : Bool) :
    ∀ primary ∈ (table.ladder cached traced).primaries, primary.Proper := by
  refine List.forall_mem_map.mpr fun item hmem => ?_
  have hfits := table.fits item hmem
  cases item with
  | group memo name opening closing payload payload' => exact Primary.group_proper hfits
  | atom memo name parser => exact Primary.atom_proper _ _ _

theorem runs (table : OperatorTable α) (cached traced : Bool) :
    ∀ primary ∈ (table.ladder cached traced).primaries,
      primary.Runs (table.ladder cached traced) := by
  refine List.forall_mem_map.mpr fun item hmem => ?_
  have hfits := table.fits item hmem
  cases item with
  | group memo name opening closing payload payload' =>
      exact Primary.group_runs hfits (Ladder.expression_shrinks (table.proper cached traced))
  | atom memo name parser =>
      obtain ⟨hplain, hguards, hclimbs⟩ := hfits
      have hatomic : (table.ladder cached traced).Atomic parser := by
        refine ⟨hplain, fun id hid => ?_, hclimbs⟩
        rw [ladder, List.append_nil]
        exact hguards id hid
      exact Primary.atom_runs hatomic

/-- Without overlaps there is nothing to choose. -/
theorem choosing_eq_reading (hapart : ∀ level ∈ table.levels, level.Apart) (choice : Choice) :
    table.choosing choice = table.reading := by
  have hproper := table.proper true true
  refine Reader.recursive_congr_of_shrinks (fun expression h => ?_) fun expression h => ?_
  · rw [← bare_eq]
    exact Ladder.strata_shrinks (Ladder.bare_shrinks hproper h)
  · rw [← bare_eq]
    exact Ladder.strata_eq_descents hapart (Ladder.bare_shrinks hproper h)

/-- With the cache the last operator that fits goes first, without it the first of oddly many. -/
theorem reads_choosing (table : OperatorTable α) (cached traced : Bool) :
    (table.grammar cached traced).Reads
      (table.choosing (if cached then .last else .firstOfOdd)) := by
  have hreads := Ladder.reads_grammar (table.proper cached traced) (table.runs cached traced)
  rw [Ladder.expression] at hreads
  simp only [bare_eq] at hreads
  exact hreads

/-! ## Two tables of letters -/

/-- An operator whose trees are written with parentheses. -/
def joining (number : Nat) (c : Char) (cs : List Char) : Infix String where
  text := String.ofList (c :: cs)
  payload := String.ofList (c :: cs)
  combine payloads := "(" ++ String.join payloads ++ ")"
  nonempty := by simp
  guard := number
  memo := number
  name := String.ofList (c :: cs)

/-- An operator in front of its operand, whose trees are written with parentheses. -/
def leading (memo : Nat) (c : Char) : Prefix String where
  text := String.singleton c
  payload := String.singleton c
  combine payloads := "(" ++ String.join payloads ++ ")"
  nonempty := by simp
  memo := memo
  name := String.singleton c

/-- A letter, or an expression in parentheses. -/
def letters (memo : Nat) : List (Item String) :=
  [ .group memo "group" "(" ")" "(" ")",
    .atom (memo + 1) "letter" (.satisfy Char.isLower String.singleton) ]

theorem fits_letters {memo node : Nat} {guards : List Nat} :
    ∀ item ∈ letters memo, item.Fits node guards := by
  simp [letters, Item.Fits, Parser.plain, Parser.guards, Parser.climbs]

/-- Sums, differences and powers, and a minus that binds tighter than a sum. -/
def formulas : OperatorTable String where
  node := 0
  filler := ""
  levels :=
    [ .left false [joining 0 '+' [], joining 1 '-' []],
      .prefixed false [leading 2 '-'],
      .right (joining 3 '^' []) [] ]
  items := letters 4
  guards_nodup := by decide
  memos_nodup := by decide
  fits := fits_letters

/-- Sums whose operators overlap, and a minus that binds tighter. -/
def overlapping : OperatorTable String where
  node := 0
  filler := ""
  levels :=
    [ .left false [joining 0 '+' [], joining 1 '+' ['-']],
      .prefixed false [leading 2 '-'] ]
  items := letters 3
  guards_nodup := by decide
  memos_nodup := by decide
  fits := fits_letters

/-! ## Answers -/

/-- Where no operator of a level is a beginning of another one, a table means what it says. -/
theorem answers_as_reading (table : OperatorTable α) (hapart : ∀ level ∈ table.levels, level.Apart)
    (cached traced : Bool) : (table.grammar cached traced).Answers table.reading := by
  have hreads := table.reads_choosing cached traced
  rw [choosing_eq_reading hapart] at hreads
  exact hreads.answers

theorem formulas_answers :
    (∀ level ∈ formulas.levels, level.Apart) ∧
      (formulas.grammar true false).Answers formulas.reading ∧
      (formulas.grammar false false).Answers formulas.reading ∧
      formulas.reading.answer "a - -b^c^d + (a - b)".toList =
        .ok "((a-(-(b^(c^d))))+(a-b))" := by
  have hapart : ∀ level ∈ formulas.levels, level.Apart := by
    simp [formulas, Level.Apart, Reader.Apart, joining, Infix.binary]
  refine ⟨hapart, answers_as_reading formulas hapart true false,
    answers_as_reading formulas hapart false false, ?_⟩
  decide +kernel

/--
With the cache, the last of the operators that fit goes first; without it, the first one does if
their number is odd, and none if it is even.  The cache changes no answer to a text if and only if
these choices make no difference to it.
-/
theorem cached_eq_uncached_iff (table : OperatorTable α) (traced : Bool) :
    (table.grammar true traced).Answers (table.choosing .last) ∧
      (table.grammar false traced).Answers (table.choosing .firstOfOdd) ∧
      ∀ text : String,
        ((table.grammar true traced).observe text).map (·.result) =
            ((table.grammar false traced).observe text).map (·.result) ↔
          (table.choosing .last).answer text.toList =
            (table.choosing .firstOfOdd).answer text.toList := by
  have hcached : (table.grammar true traced).Reads (table.choosing .last) :=
    table.reads_choosing true traced
  have huncached : (table.grammar false traced).Reads (table.choosing .firstOfOdd) :=
    table.reads_choosing false traced
  refine ⟨hcached.answers, huncached.answers, fun text => ?_⟩
  rw [hcached.observe, huncached.observe, Except.ok.injEq]

/-- The cache does change answers: two operators fit behind the first operand of `a+-b`. -/
theorem overlapping_observe :
    ((overlapping.grammar true false).observe "a+-b").map (·.result) = .ok (.ok "(a+-b)") ∧
      ((overlapping.grammar false false).observe "a+-b").map (·.result) =
        .ok (.error (.leftover 1 "a")) := by
  rw [(overlapping.reads_choosing true false).observe,
    (overlapping.reads_choosing false false).observe]
  decide +kernel

end OperatorTable

end Packrat
