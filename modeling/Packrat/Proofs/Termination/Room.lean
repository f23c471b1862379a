import Mathlib.Algebra.Order.Ring.Unbundled.Basic
import Mathlib.Tactic.Linarith
import Packrat.Proofs.Termination.Progress

/-!
# The room that calls need

Calls inside each other move on in the text or stay at one place.  At one place every guard is
entered once, between two such entries an operand is taken up once, between two of these steps every
cached parser begins a run for each left context once, and between two of all these a path through
the grammar meets no node twice.  `Engine.need` counts what is left of all this at a call; it bounds
how deep the calls inside that call can be nested.
-/

namespace Packrat

variable {α : Type}

/-! ## The count -/

/--
What is left at a call: by the bytes ahead, the guards and the operand that can still be used up at
the place (`level`), the keys under which nothing is stored (`keys`), and the nodes of the grammar
that the path to the call has `visited`.
-/
def room (nodes memos ahead level keys visited : Nat) : Nat :=
  (nodes + 3) * (nodes + 3) * (nodes + 3) * ahead + level * ((2 * memos + 1) * (nodes + 1)) +
    keys * (nodes + 1) + (nodes - visited) + (nodes + 4)

section Room

variable {nodes guards memos ahead ahead' level level' keys keys' visited visited' : Nat}

/-- What can be left at one place is less than what a byte of text counts. -/
theorem room_at_place_le (h : guards + memos ≤ nodes) :
    (2 * guards + 1) * ((2 * memos + 1) * (nodes + 1)) + 2 * memos * (nodes + 1) + 3 * nodes + 4 ≤
      (nodes + 3) * (nodes + 3) * (nodes + 3) := by
  have hproduct : (2 * guards + 1) * (2 * memos + 1) ≤ (nodes + 1) * (nodes + 1) := by
    have hmean := four_mul_le_sq_add (2 * guards + 1) (2 * memos + 1)
    have hsum : (2 * guards + 1 + (2 * memos + 1)) ^ 2 ≤ (2 * (nodes + 1)) ^ 2 :=
      Nat.pow_le_pow_left (by omega) 2
    nlinarith
  have hlevels := Nat.mul_le_mul_right (nodes + 1) hproduct
  have hkeys : 2 * memos * (nodes + 1) ≤ 2 * nodes * (nodes + 1) :=
    Nat.mul_le_mul_right _ (by omega)
  nlinarith

theorem ahead_lt_room : ahead + 1 < room nodes memos ahead level keys visited := by
  have hle : 1 * ahead ≤ (nodes + 3) * (nodes + 3) * (nodes + 3) * ahead :=
    Nat.mul_le_mul_right _ (Nat.mul_pos (Nat.mul_pos (by omega) (by omega)) (by omega))
  unfold room
  omega

theorem nodes_lt_room : nodes + 3 < room nodes memos ahead level keys visited := by
  unfold room
  omega

theorem nodes_le_depth (bytes : Nat) :
    nodes ≤ (nodes + 3) * (nodes + 3) * (nodes + 3) * (bytes + 1) := by
  have hpos : 0 < (nodes + 3) * (nodes + 3) * (bytes + 1) :=
    Nat.mul_pos (Nat.mul_pos (Nat.succ_pos _) (Nat.succ_pos _)) (Nat.succ_pos _)
  calc nodes ≤ nodes + 3 := Nat.le_add_right nodes 3
    _ ≤ (nodes + 3) * ((nodes + 3) * (nodes + 3) * (bytes + 1)) := Nat.le_mul_of_pos_right _ hpos
    _ = (nodes + 3) * (nodes + 3) * (nodes + 3) * (bytes + 1) := by simp only [Nat.mul_assoc]

theorem room_lt_of_ahead (h : guards + memos ≤ nodes) (hahead : ahead' < ahead)
    (hlevel : level' ≤ 2 * guards + 1) (hkeys : keys' ≤ 2 * memos) :
    room nodes memos ahead' level' keys' visited' < room nodes memos ahead level keys visited := by
  have hplace := room_at_place_le h
  have hbytes := Nat.mul_le_mul_left ((nodes + 3) * (nodes + 3) * (nodes + 3)) hahead
  have hlevels := Nat.mul_le_mul_right ((2 * memos + 1) * (nodes + 1)) hlevel
  have hall := Nat.mul_le_mul_right (nodes + 1) hkeys
  rw [Nat.mul_succ] at hbytes
  unfold room
  omega

/-- What is won at a level makes up for two calls. -/
theorem room_lt_of_level (hlevel : level' < level) (hkeys : keys' ≤ 2 * memos)
    (hvisited : 0 < visited') (hle : visited' ≤ nodes) :
    room nodes memos ahead level' keys' visited' + 1 <
      room nodes memos ahead level keys visited := by
  have hlevels := Nat.mul_le_mul_right ((2 * memos + 1) * (nodes + 1)) hlevel
  have hall := Nat.mul_le_mul_right (nodes + 1) hkeys
  have hblock := Nat.add_one_mul (2 * memos) (nodes + 1)
  rw [Nat.succ_mul level'] at hlevels
  unfold room
  omega

theorem room_lt_of_keys (hlevel : level' ≤ level) (hkeys : keys' < keys) :
    room nodes memos ahead level' keys' visited' < room nodes memos ahead level keys visited := by
  have hlevels := Nat.mul_le_mul_right ((2 * memos + 1) * (nodes + 1)) hlevel
  have hall := Nat.mul_le_mul_right (nodes + 1) hkeys
  rw [Nat.succ_mul] at hall
  unfold room
  omega

theorem room_lt_of_visited (hlevel : level' ≤ level) (hkeys : keys' ≤ keys)
    (hvisited : visited < visited') (hle : visited' ≤ nodes) :
    room nodes memos ahead level' keys' visited' < room nodes memos ahead level keys visited := by
  have hlevels := Nat.mul_le_mul_right ((2 * memos + 1) * (nodes + 1)) hlevel
  have hall := Nat.mul_le_mul_right (nodes + 1) hkeys
  unfold room
  omega

/-- There is room for all that can be left anywhere, and for a path through the grammar besides. -/
theorem room_add_le (h : guards + memos ≤ nodes) (hlevel : level ≤ 2 * guards + 1)
    (hkeys : keys ≤ 2 * memos) :
    room nodes memos ahead level keys visited + nodes ≤
      (nodes + 3) * (nodes + 3) * (nodes + 3) * (ahead + 1) := by
  have hplace := room_at_place_le h
  have hlevels := Nat.mul_le_mul_right ((2 * memos + 1) * (nodes + 1)) hlevel
  have hall := Nat.mul_le_mul_right (nodes + 1) hkeys
  rw [Nat.mul_succ]
  unfold room
  omega

end Room

/-! ## What is left at a call -/

/-- Whether the node is a guard that is not busy at an offset. -/
def Parser.isFree (engine : Engine α) (offset : Nat) : Parser α → Bool
  | .guarded id _ => !(engine.active.get id).contains offset
  | _ => false

open Classical in
/-- Whether the node keeps its results in a cache that lasts, which has none for the given key. -/
noncomputable def Parser.isMissing (lasting : Nat → Prop) (engine : Engine α) (offset : Nat)
    (left : LeftKey) : Parser α → Bool
  | .memo id cache _ => decide (lasting cache) && (engine.entryIn cache ⟨id, offset, left⟩).isNone
  | _ => false

def Parser.isGuard : Parser α → Bool
  | .guarded _ _ => true
  | _ => false

namespace Engine

variable (grammar : Grammar α) (lasting : Nat → Prop) (engine : Engine α) (cursor : Cursor α)

/-- The guards that can be entered at a place, twice each, and the operand that can be taken up. -/
def level : Nat :=
  2 * grammar.nodes.countP (Parser.isFree engine cursor.offset) +
    if cursor.left.isOperand then 1 else 0

/-- The keys at a place for which a run can begin.  An operand, once taken up, is gone. -/
noncomputable def keys : Nat :=
  match cursor.left.key with
  | .operand tag =>
      grammar.nodes.countP (Parser.isMissing lasting engine cursor.offset (.operand tag))
  | _ =>
      grammar.nodes.countP (Parser.isMissing lasting engine cursor.offset .empty) +
        grammar.nodes.countP (Parser.isMissing lasting engine cursor.offset .rightOperand)

/-- How deep calls inside a call can be nested, if the path to it has visited some nodes. -/
noncomputable def need (visited : Nat) : Nat :=
  room grammar.nodes.length (grammar.nodes.countP Parser.isMemo)
    (cursor.source.size - cursor.offset) (engine.level grammar cursor)
    (engine.keys grammar lasting cursor) visited

end Engine

section Counts

variable {grammar : Grammar α} {lasting : Nat → Prop} {engine engine' : Engine α}
  {cursor cursor' : Cursor α}

theorem countP_add_countP_le {β : Type} {p q : β → Bool} (l : List β)
    (h : ∀ x, p x = true → q x = false) : l.countP p + l.countP q ≤ l.length := by
  induction l with
  | nil => exact Nat.le_refl _
  | cons x xs ih =>
      rw [List.countP_cons, List.countP_cons, List.length_cons]
      cases hp : p x with
      | true =>
          rw [h x hp, if_pos rfl, if_neg Bool.false_ne_true]
          omega
      | false =>
          rw [if_neg Bool.false_ne_true]
          split <;> omega

theorem countP_lt_countP {β : Type} {p q : β → Bool} {l : List β} {y : β} (hy : y ∈ l)
    (hp : p y = true) (hq : q y = false) (h : ∀ x, q x = true → p x = true) :
    l.countP q < l.countP p := by
  induction l with
  | nil => cases hy
  | cons x xs ih =>
      have hle := List.countP_mono_left (l := xs) fun x _ => h x
      rw [List.countP_cons, List.countP_cons]
      rcases List.mem_cons.mp hy with rfl | hy
      · rw [hp, hq, if_pos rfl, if_neg Bool.false_ne_true]
        omega
      · have hlt := ih hy
        cases hx : q x with
        | true =>
            rw [h x hx]
            omega
        | false =>
            rw [if_neg Bool.false_ne_true]
            omega

theorem guards_add_memos_le (grammar : Grammar α) :
    grammar.nodes.countP Parser.isGuard + grammar.nodes.countP Parser.isMemo ≤
      grammar.nodes.length :=
  countP_add_countP_le grammar.nodes fun node hguard => by
    cases node <;> first | rfl | cases hguard

theorem level_le : engine.level grammar cursor ≤ 2 * grammar.nodes.countP Parser.isGuard + 1 := by
  have hle : grammar.nodes.countP (Parser.isFree engine cursor.offset) ≤
      grammar.nodes.countP Parser.isGuard :=
    List.countP_mono_left fun node _ hfree => by
      cases node <;> first | rfl | cases hfree
  unfold Engine.level
  split <;> omega

theorem missing_le {offset : Nat} {left : LeftKey} :
    grammar.nodes.countP (Parser.isMissing lasting engine offset left) ≤
      grammar.nodes.countP Parser.isMemo :=
  List.countP_mono_left fun node _ hmissing => by
    cases node <;> first | rfl | cases hmissing

theorem keys_le : engine.keys grammar lasting cursor ≤ 2 * grammar.nodes.countP Parser.isMemo := by
  have hle := fun left => @missing_le α grammar lasting engine cursor.offset left
  unfold Engine.keys
  split
  · next tag _ =>
      have hoperand := hle (.operand tag)
      omega
  · have hempty := hle .empty
    have hright := hle .rightOperand
    omega

end Counts

end Packrat
