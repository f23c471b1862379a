import Packrat.Proofs.Termination.Room
import Packrat.Proofs.Termination.Settling

/-!
# Paths through a grammar at one place

The path to a call holds the nodes that were called at its place since a guard was entered, a cached
parser began a run or an operand was taken up.  If no circle of calls at one place avoids all these,
the path meets no node twice, and every call has less left to it than the one that it comes from.
-/

namespace Packrat

open Relation

variable {α : Type}

/-- The node limits how often it is passed through at one place. -/
def Parser.Checks (lasting : Nat → Prop) : Parser α → Prop
  | .guarded _ _ => True
  | .memo _ cache _ => lasting cache
  | _ => False

/--
The first node may call the second one at the place of its own call, as often as it is called.
-/
def Grammar.Falls (grammar : Grammar α) (lasting : Nat → Prop) (parser part : Parser α) : Prop :=
  Slips grammar.rules parser part ∧ ¬ parser.Checks lasting

/-- Every circle of calls that can be followed without taking anything is checked somewhere. -/
def Grammar.Checked (grammar : Grammar α) (lasting : Nat → Prop) : Prop :=
  ∀ node, grammar.Reached node → ¬ TransGen (grammar.Falls lasting) node node

/-- A path through the grammar to a node: the nodes on it are distinct and all fall to that node. -/
structure Grammar.Trail (grammar : Grammar α) (lasting : Nat → Prop) (parser : Parser α)
    (path : List (Parser α)) : Prop where
  nodup : path.Nodup
  reached : ∀ node ∈ path, grammar.Reached node
  falls : ∀ node ∈ path, node = parser ∨ TransGen (grammar.Falls lasting) node parser

namespace Grammar.Trail

variable {grammar : Grammar α} {lasting : Nat → Prop} {parser part : Parser α}
  {path : List (Parser α)}

theorem single (hreached : grammar.Reached parser) : grammar.Trail lasting parser [parser] where
  nodup := List.nodup_singleton parser
  reached node hmem := by
    obtain rfl := List.mem_singleton.mp hmem
    exact hreached
  falls node hmem := Or.inl (List.mem_singleton.mp hmem)

theorem cons (hchecked : grammar.Checked lasting) (h : grammar.Trail lasting parser path)
    (hfalls : grammar.Falls lasting parser part) (hreached : grammar.Reached part) :
    grammar.Trail lasting part (part :: path) where
  nodup := by
    refine List.nodup_cons.mpr ⟨fun hmem => hchecked part hreached ?_, h.nodup⟩
    rcases h.falls part hmem with rfl | hpath
    · exact .single hfalls
    · exact hpath.tail hfalls
  reached := List.forall_mem_cons.mpr ⟨hreached, h.reached⟩
  falls := by
    refine List.forall_mem_cons.mpr ⟨Or.inl rfl, fun node hmem => Or.inr ?_⟩
    rcases h.falls node hmem with rfl | hpath
    · exact .single hfalls
    · exact hpath.tail hfalls

theorem length_le (h : grammar.Trail lasting parser path) : path.length ≤ grammar.nodes.length :=
  Grammar.length_le_of_nodup h.nodup fun node hmem => (h.reached node hmem).mem_nodes

end Grammar.Trail

/-! ## States that leave no more to do -/

/-- In the later state no entry is gone from a cache that lasts. -/
def Engine.Retains (lasting : Nat → Prop) (engine later : Engine α) : Prop :=
  ∀ cache key, lasting cache → later.entryIn cache key = none → engine.entryIn cache key = none

section Counts

variable {grammar : Grammar α} {lasting : Nat → Prop} {engine later : Engine α}
  {cursor next : Cursor α} {offset : Nat} {left : LeftKey}

theorem isMissing_of_retains (h : engine.Retains lasting later) (node : Parser α)
    (hmissing : node.isMissing lasting later offset left = true) :
    node.isMissing lasting engine offset left = true := by
  cases node with
  | memo id cache parser =>
      simp only [Parser.isMissing, Bool.and_eq_true, decide_eq_true_eq, Option.isNone_iff_eq_none]
        at hmissing ⊢
      exact ⟨hmissing.1, h cache _ hmissing.1 hmissing.2⟩
  | _ => cases hmissing

theorem missing_le_of_retains (h : engine.Retains lasting later) :
    grammar.nodes.countP (Parser.isMissing lasting later offset left) ≤
      grammar.nodes.countP (Parser.isMissing lasting engine offset left) :=
  List.countP_mono_left fun node _ => isMissing_of_retains h node

theorem keys_of_plain (h : cursor.left.isOperand = false) :
    engine.keys grammar lasting cursor =
      grammar.nodes.countP (Parser.isMissing lasting engine cursor.offset .empty) +
        grammar.nodes.countP (Parser.isMissing lasting engine cursor.offset .rightOperand) := by
  unfold Engine.keys
  cases hleft : cursor.left with
  | operand tag value => rw [hleft] at h; cases h
  | empty => rfl
  | rightOperand => rfl

theorem keys_of_operand {tag : Nat} (h : cursor.left.key = .operand tag) :
    engine.keys grammar lasting cursor =
      grammar.nodes.countP (Parser.isMissing lasting engine cursor.offset (.operand tag)) := by
  unfold Engine.keys
  rw [h]

/-- Two cursors have the same left context, or neither carries an operand. -/
def Cursor.Alike (cursor next : Cursor α) : Prop :=
  next.left = cursor.left ∨ cursor.left.isOperand = false ∧ next.left.isOperand = false

theorem Cursor.Alike.refl (cursor : Cursor α) : cursor.Alike cursor := Or.inl rfl

theorem Cursor.Alike.of_plain (h : cursor.left.isOperand = false)
    (hnext : next.left.isOperand = false) : cursor.Alike next :=
  Or.inr ⟨h, hnext⟩

theorem Cursor.Alike.isOperand_eq (h : cursor.Alike next) :
    next.left.isOperand = cursor.left.isOperand := by
  rcases h with hsame | ⟨hplain, hplain'⟩
  · rw [hsame]
  · rw [hplain, hplain']

theorem Cursor.Alike.trans {further : Cursor α} (h : cursor.Alike next) (h' : next.Alike further) :
    cursor.Alike further := by
  rcases h' with hsame | ⟨hplain, hplain'⟩
  · rw [Alike, hsame]
    exact h
  · exact .of_plain (h.isOperand_eq.symm.trans hplain) hplain'

theorem keys_le_of_retains (h : engine.Retains lasting later)
    (hoffset : next.offset = cursor.offset)
    (halike : cursor.Alike next) :
    later.keys grammar lasting next ≤ engine.keys grammar lasting cursor := by
  have hle := fun left => @missing_le_of_retains α grammar lasting engine later cursor.offset left h
  cases hplain : cursor.left.isOperand with
  | false =>
      rw [keys_of_plain (halike.isOperand_eq.trans hplain), keys_of_plain hplain, hoffset]
      exact Nat.add_le_add (hle .empty) (hle .rightOperand)
  | true =>
      obtain ⟨tag, value, hleft⟩ := Left.isOperand_iff.mp hplain
      have hsame : next.left = cursor.left := halike.resolve_right fun hboth => by
        rw [hboth.1] at hplain
        cases hplain
      have hkey : cursor.left.key = .operand tag := by rw [hleft]; rfl
      have hkey' : next.left.key = .operand tag := by rw [hsame, hkey]
      rw [keys_of_operand hkey', keys_of_operand hkey, hoffset]
      exact hle (.operand tag)

theorem isFree_eq (hactive : ∀ id, later.active.get id = engine.active.get id) :
    Parser.isFree later offset = Parser.isFree (α := α) engine offset := by
  funext node
  cases node with
  | guarded id parser => simp only [Parser.isFree, hactive]
  | _ => rfl

theorem level_eq (hactive : ∀ id, later.active.get id = engine.active.get id)
    (hoffset : next.offset = cursor.offset)
    (hoperand : next.left.isOperand = cursor.left.isOperand) :
    later.level grammar next = engine.level grammar cursor := by
  unfold Engine.level
  rw [hoffset, isFree_eq hactive, hoperand]

/-- A guard that is entered is free no more. -/
theorem free_entered_lt {id : Nat} {parser : Parser α} (hnode : .guarded id parser ∈ grammar.nodes)
    (hfree : offset ∉ engine.active.get id) :
    grammar.nodes.countP (Parser.isFree (engine.entered id offset) offset) <
      grammar.nodes.countP (Parser.isFree engine offset) := by
  refine countP_lt_countP hnode (by simpa [Parser.isFree] using hfree)
    (by simp [Parser.isFree]) fun node => ?_
  cases node with
  | guarded other parser =>
      by_cases hid : id = other
      · subst hid
        simp [Parser.isFree]
      · simp [Parser.isFree, Engine.active_entered_of_ne _ hid]
  | _ => exact nofun

/-- A key under which something is stored is missing no more. -/
theorem keys_stored_lt {id cache : Nat} {parser : Parser α} {result : Option (Output α)}
    (hnode : .memo id cache parser ∈ grammar.nodes) (hlasting : lasting cache)
    (hmissing : engine.entryIn cache ⟨id, cursor.offset, cursor.left.key⟩ = none) :
    ((engine.counted cache ⟨id, cursor.offset, cursor.left.key⟩).stored cache
        ⟨id, cursor.offset, cursor.left.key⟩ result).keys grammar lasting cursor <
      engine.keys grammar lasting cursor := by
  generalize hlater : (engine.counted cache ⟨id, cursor.offset, cursor.left.key⟩).stored cache
    ⟨id, cursor.offset, cursor.left.key⟩ result = later
  have hentry : ∀ cache' key, later.entryIn cache' key =
      if cache = cache' ∧ ⟨id, cursor.offset, cursor.left.key⟩ = key then some result
      else engine.entryIn cache' key := by
    intro cache' key
    rw [← hlater, Engine.entryIn_stored, Engine.entryIn_counted]
  have hretains : engine.Retains lasting later := by
    intro cache' key _ hnone
    rw [hentry] at hnone
    split at hnone
    · cases hnone
    · exact hnone
  have hall := fun left => @missing_le_of_retains α grammar lasting engine later cursor.offset left
    hretains
  have hless : grammar.nodes.countP (Parser.isMissing lasting later cursor.offset cursor.left.key) <
      grammar.nodes.countP (Parser.isMissing lasting engine cursor.offset cursor.left.key) :=
    countP_lt_countP hnode (by simp [Parser.isMissing, hlasting, hmissing])
      (by simp [Parser.isMissing, hentry]) (isMissing_of_retains hretains)
  cases hleft : cursor.left with
  | empty =>
      rw [hleft] at hless
      rw [keys_of_plain (by rw [hleft]; rfl), keys_of_plain (by rw [hleft]; rfl)]
      exact Nat.add_lt_add_of_lt_of_le hless (hall .rightOperand)
  | rightOperand =>
      rw [hleft] at hless
      rw [keys_of_plain (by rw [hleft]; rfl), keys_of_plain (by rw [hleft]; rfl)]
      exact Nat.add_lt_add_of_le_of_lt (hall .empty) hless
  | operand tag value =>
      rw [hleft] at hless
      have hkey : cursor.left.key = .operand tag := by rw [hleft]; rfl
      rw [keys_of_operand hkey, keys_of_operand hkey]
      exact hless

end Counts

end Packrat
