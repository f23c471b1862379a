import Mathlib.Data.List.ProdSigma
import Packrat.Proofs.Caching.Bare
import Packrat.Proofs.Termination

/-!
# The room that calls without rejections need

No call is made inside another call of the same node on the same cursor if the run returns: it would
be made again and again.  So the calls that are under way at one place differ in their nodes or in
what stands to their left, which is one operand for all of them, or none.  To put another operand
there, a fold enters a guard that was free.
-/

namespace Packrat

variable {α : Type}

/-! ## Cursors that follow -/

/-- A cursor that is reached from `cursor` with the same operand to its left, or with none. -/
structure Cursor.Follows (cursor here : Cursor α) : Prop where
  reaches : cursor.Reaches here
  left : here.left = cursor.left ∨ here.left.isOperand = false

namespace Cursor.Follows

variable {cursor here next : Cursor α}

theorem refl (cursor : Cursor α) : cursor.Follows cursor := ⟨.refl cursor, Or.inl rfl⟩

theorem trans (h : cursor.Follows here) (h' : here.Follows next) : cursor.Follows next := by
  refine ⟨h.reaches.trans h'.reaches, ?_⟩
  rcases h'.left with hsame | hplain
  · exact hsame ▸ h.left
  · exact Or.inr hplain

theorem withLeft (h : cursor.Follows here) {left : Left α} (hplain : left.isOperand = false) :
    cursor.Follows (here.withLeft left) :=
  ⟨h.reaches.withLeft left, Or.inr hplain⟩

theorem consume (h : cursor.Follows here) {taken rest : List Char}
    (hrest : here.rest = taken ++ rest) : cursor.Follows (here.consume taken rest hrest) :=
  ⟨h.reaches.trans ⟨taken, .consume hrest⟩, h.left⟩

/-- What follows a cursor in scope is in scope. -/
theorem covers (h : cursor.Follows here) {scope : Scope α} {tags place : Nat}
    (hcovers : scope.Covers tags place cursor) : ∃ place', scope.Covers tags place' here := by
  have hreaches := hcovers.reaches.trans h.reaches
  cases hoperand : here.left.isOperand with
  | false => exact ⟨here.offset, .of_plain hreaches hoperand⟩
  | true =>
      rcases h.left with hsame | hplain
      · refine ⟨place, hreaches, fun tag value heq => ?_, ?_⟩
        · exact hcovers.operand tag value (hsame ▸ heq)
        · rw [hoperand]
          exact nofun
      · rw [hoperand] at hplain
        cases hplain

end Cursor.Follows

/-! ## The count -/

/--
What is left at a call: by the bytes ahead, the guards and the operand that can still be used up at
the place (`spare`), and the calls at the place that are under way.
-/
def callRoom (nodes ahead spare visited : Nat) : Nat :=
  (nodes + 3) * (nodes + 3) * (nodes + 3) * ahead + spare * (2 * nodes + 1) +
    (2 * nodes - visited) + 3

section Count

variable {nodes ahead ahead' spare spare' visited visited' : Nat}

theorem ahead_lt_callRoom : ahead + 1 < callRoom nodes ahead spare visited := by
  have hle : 1 * ahead ≤ (nodes + 3) * (nodes + 3) * (nodes + 3) * ahead :=
    Nat.mul_le_mul_right _ (Nat.mul_pos (Nat.mul_pos (by omega) (by omega)) (by omega))
  unfold callRoom
  omega

theorem callRoom_le (hspare : spare ≤ 2 * nodes + 1) :
    callRoom nodes ahead spare visited + 1 ≤
      (nodes + 3) * (nodes + 3) * (nodes + 3) * (ahead + 1) := by
  have hspares := Nat.mul_le_mul_right (2 * nodes + 1) hspare
  have hplace : (2 * nodes + 1) * (2 * nodes + 1) + 2 * nodes + 4 ≤
      (nodes + 3) * (nodes + 3) * (nodes + 3) := by nlinarith
  rw [Nat.mul_succ]
  unfold callRoom
  omega

theorem callRoom_lt_of_ahead (hahead : ahead' < ahead) (hspare : spare' ≤ 2 * nodes + 1) :
    callRoom nodes ahead' spare' visited' < callRoom nodes ahead spare visited := by
  have hle := @callRoom_le nodes ahead' spare' visited' hspare
  have hbytes := Nat.mul_le_mul_left ((nodes + 3) * (nodes + 3) * (nodes + 3)) hahead
  have hroom : (nodes + 3) * (nodes + 3) * (nodes + 3) * ahead ≤
      callRoom nodes ahead spare visited := by
    unfold callRoom
    omega
  rw [Nat.succ_eq_add_one] at hbytes
  omega

theorem callRoom_lt_of_spare (hspare : spare' < spare) :
    callRoom nodes ahead spare' visited' < callRoom nodes ahead spare visited := by
  have hspares := Nat.mul_le_mul_right (2 * nodes + 1) hspare
  rw [Nat.succ_mul] at hspares
  unfold callRoom
  omega

theorem callRoom_lt_of_visited (hspare : spare' ≤ spare) (hvisited : visited < visited')
    (hle : visited' ≤ 2 * nodes) :
    callRoom nodes ahead spare' visited' < callRoom nodes ahead spare visited := by
  have hspares := Nat.mul_le_mul_right (2 * nodes + 1) hspare
  unfold callRoom
  omega

end Count

/-! ## Guards that are left -/

/-- The number of the guard that the node is, behind its caches. -/
def Parser.guard? : Parser α → Option Nat
  | .guarded id _ => some id
  | .memo _ _ parser => parser.guard?
  | _ => none

/-- What is a guard without its caches leads to it. -/
theorem Parser.guard?_of_uncached {parser part : Parser α} {id : Nat}
    (h : parser.uncached = .guarded id part) : parser.guard? = some id := by
  induction hsize : parser.size using Nat.strongRecOn generalizing parser with
  | ind size ih =>
      cases parser with
      | guarded other inner =>
          obtain ⟨rfl, -⟩ := Parser.guarded.inj h
          rfl
      | memo other cache inner =>
          have hinner : inner.guard? = some id :=
            ih inner.size (hsize ▸ Nat.lt_succ_self _) h rfl
          exact hinner
      | _ => cases h

/-- Whether the node is a free guard, and not the one to which a call leads. -/
def Parser.isSpare (engine : Engine α) (offset : Nat) (leads : Option Nat) (node : Parser α) :
    Bool :=
  node.isFree engine offset && node.guard? != leads

namespace Engine

variable (grammar : Grammar α) (engine : Engine α)

/-- The number of guards that a call can enter besides the one to which it leads. -/
def spareGuards (parser : Parser α) (offset : Nat) : Nat :=
  grammar.nodes.countP (Parser.isSpare engine offset parser.guard?)

/-- The guards that can be entered, twice each, and the operand that can be taken up. -/
def spare (parser : Parser α) (cursor : Cursor α) : Nat :=
  2 * engine.spareGuards grammar parser cursor.offset + if cursor.left.isOperand then 1 else 0

end Engine

section Guards

variable {grammar : Grammar α} {engine engine' : Engine α} {parser part : Parser α}
  {cursor : Cursor α} {offset id cache : Nat}

theorem spare_le : engine.spare grammar parser cursor ≤ 2 * grammar.nodes.length + 1 := by
  have hle : engine.spareGuards grammar parser cursor.offset ≤ grammar.nodes.length :=
    List.countP_le_length
  unfold Engine.spare
  split <;> omega

/-- A node that leads to no guard itself leaves to its parts what it can enter. -/
theorem spareGuards_le (hguard : parser.guard? = none) :
    engine.spareGuards grammar part offset ≤ engine.spareGuards grammar parser offset := by
  apply List.countP_mono_left
  intro node _ hspare
  simp only [Parser.isSpare, Bool.and_eq_true] at hspare ⊢
  refine ⟨hspare.1, ?_⟩
  rw [hguard]
  cases node with
  | guarded id part => rfl
  | _ => cases hspare.1

/-- A guard that is entered is the one to which the call led. -/
theorem spareGuards_entered_le :
    (engine.entered id offset).spareGuards grammar part offset ≤
      engine.spareGuards grammar (.guarded id parser) offset := by
  apply List.countP_mono_left
  intro node _ hspare
  simp only [Parser.isSpare, Bool.and_eq_true] at hspare ⊢
  cases node with
  | guarded other part =>
      by_cases hid : id = other
      · subst hid
        simp [Parser.isFree] at hspare
      · simpa [Parser.isFree, Engine.active_entered_of_ne _ hid, Parser.guard?, Ne.symm hid]
          using hspare.1
  | _ => cases hspare.1

theorem guarded_mem_nodes (hnode : parser ∈ grammar.nodes) (hguard : parser.guard? = some id) :
    ∃ part, Parser.guarded id part ∈ grammar.nodes := by
  induction hsize : parser.size using Nat.strongRecOn generalizing parser with
  | ind size ih =>
      cases parser with
      | guarded other part =>
          obtain rfl := Option.some.inj hguard
          exact ⟨part, hnode⟩
      | memo other cache part =>
          have hpart := Grammar.child_mem_nodes hnode List.mem_cons_self
          exact ih part.size (hsize ▸ Nat.lt_succ_self _) hpart hguard rfl
      | _ => cases hguard

/-- A call that leads to a free guard leaves fewer guards than one that leads to none. -/
theorem spareGuards_lt (hnode : part ∈ grammar.nodes) (hguard : parser.guard? = none)
    (hpart : part.guard? = some id) (hfree : offset ∉ engine.active.get id) :
    engine.spareGuards grammar part offset < engine.spareGuards grammar parser offset := by
  obtain ⟨inner, hinner⟩ := guarded_mem_nodes hnode hpart
  unfold Engine.spareGuards
  rw [hguard, hpart]
  refine countP_lt_countP hinner ?_ ?_ fun node hspare => ?_
  · simp [Parser.isSpare, Parser.isFree, Parser.guard?, hfree]
  · simp [Parser.isSpare, Parser.guard?]
  · simp only [Parser.isSpare, Bool.and_eq_true] at hspare ⊢
    refine ⟨hspare.1, ?_⟩
    cases node with
    | guarded id part => rfl
    | _ => cases hspare.1

end Guards

/-! ## Calls that are under way -/

/-- The calls under way at the place of a cursor, as far as it could still be their own. -/
structure Visits (grammar : Grammar α) (around : List (Parser α × Cursor α)) (cursor : Cursor α)
    (visited : List (Parser α × Left α)) : Prop where
  nodup : visited.Nodup
  node : ∀ {parser left}, (parser, left) ∈ visited → parser ∈ grammar.nodes
  around : ∀ {parser left}, (parser, left) ∈ visited → (parser, cursor.withLeft left) ∈ around
  left : ∀ {parser left}, (parser, left) ∈ visited →
    left = cursor.left ∨ left.isOperand = false ∧ cursor.left.isOperand = false

/-- The calls that are under way leave room for the calls inside another one. -/
def LeavesRoom (grammar : Grammar α) (fuel : Nat) (engine : Engine α)
    (around : List (Parser α × Cursor α)) (parser : Parser α) (cursor : Cursor α) : Prop :=
  ∃ visited, Visits grammar around cursor visited ∧
    callRoom grammar.nodes.length (cursor.source.size - cursor.offset)
      (engine.spare grammar parser cursor) visited.length ≤ fuel

section Calls

variable {grammar : Grammar α} {around : List (Parser α × Cursor α)} {cursor here : Cursor α}
  {visited : List (Parser α × Left α)} {engine engine' : Engine α} {parser part : Parser α}
  {fuel : Nat}

theorem Visits.nil : Visits grammar around cursor [] :=
  ⟨List.nodup_nil, nofun, nofun, nofun⟩

/-- At one place there are at most two calls of every node. -/
theorem Visits.length_le (h : Visits grammar around cursor visited) :
    visited.length ≤ 2 * grammar.nodes.length := by
  have hsubset : ∃ one other : Left α, visited ⊆ grammar.nodes ×ˢ [one, other] := by
    cases hoperand : cursor.left.isOperand with
    | true =>
        refine ⟨cursor.left, cursor.left, fun (node, left) hmem => ?_⟩
        have hleft : left = cursor.left := (h.left hmem).resolve_right fun hplain => by
          rw [hoperand] at hplain
          cases hplain.2
        exact List.mem_product.mpr ⟨h.node hmem, by simp [hleft]⟩
    | false =>
        refine ⟨.empty, .rightOperand, fun (node, left) hmem => ?_⟩
        have hplain : left.isOperand = false := (h.left hmem).elim (· ▸ hoperand) And.left
        refine List.mem_product.mpr ⟨h.node hmem, ?_⟩
        cases left with
        | operand tag value => cases hplain
        | empty => simp
        | rightOperand => simp
  obtain ⟨one, other, hsubset⟩ := hsubset
  have hle := (h.nodup.subperm hsubset).length_le
  rw [List.length_product] at hle
  simpa [Nat.mul_comm] using hle

/-- One more call is under way, of a node that was not called on its cursor before. -/
theorem Visits.cons (h : Visits grammar around cursor visited) (hnode : parser ∈ grammar.nodes)
    (hnew : (parser, cursor) ∉ around) (hsource : here.source = cursor.source)
    (hoffset : here.offset = cursor.offset) (halike : cursor.Alike here) :
    Visits grammar ((parser, cursor) :: around) here ((parser, cursor.left) :: visited) where
  nodup := List.nodup_cons.mpr ⟨fun hmem => hnew (h.around hmem), h.nodup⟩
  node hmem := by
    rcases List.mem_cons.mp hmem with heq | hmem
    · obtain ⟨rfl, -⟩ := Prod.mk.inj heq
      exact hnode
    · exact h.node hmem
  around {node left} hmem := by
    have hsame : here.withLeft left = cursor.withLeft left := Cursor.ext hsource hoffset rfl
    rw [hsame]
    rcases List.mem_cons.mp hmem with heq | hmem
    · obtain ⟨rfl, rfl⟩ := Prod.mk.inj heq
      exact List.mem_cons_self
    · exact List.mem_cons_of_mem _ (h.around hmem)
  left {node left} hmem := by
    have hleft : left = cursor.left ∨ left.isOperand = false ∧ cursor.left.isOperand = false := by
      rcases List.mem_cons.mp hmem with heq | hmem
      · exact Or.inl (Prod.mk.inj heq).2
      · exact h.left hmem
    rcases halike with hsame | ⟨hplain, hplain'⟩
    · rwa [hsame]
    · exact Or.inr ⟨hleft.elim (· ▸ hplain) And.left, hplain'⟩

namespace LeavesRoom

theorem ahead_lt (h : LeavesRoom grammar (fuel + 1) engine around parser cursor) :
    cursor.source.size - cursor.offset < fuel := by
  obtain ⟨visited, -, hroom⟩ := h
  exact Nat.lt_of_succ_lt_succ (Nat.lt_of_lt_of_le ahead_lt_callRoom hroom)

theorem pos (h : LeavesRoom grammar fuel engine around parser cursor) :
    ∃ fewer, fuel = fewer + 1 := by
  obtain ⟨visited, -, hroom⟩ := h
  exact Nat.exists_eq_succ_of_ne_zero
    (Nat.ne_of_gt (Nat.lt_of_lt_of_le (Nat.zero_lt_of_lt ahead_lt_callRoom) hroom))

/-- There is room for a call further on. -/
theorem ahead (h : LeavesRoom grammar (fuel + 1) engine around parser cursor)
    (hsource : here.source = cursor.source) (hoffset : cursor.offset < here.offset)
    (around' : List (Parser α × Cursor α)) : LeavesRoom grammar fuel engine' around' part here := by
  obtain ⟨visited, -, hroom⟩ := h
  refine ⟨[], .nil, Nat.le_of_lt_succ (Nat.lt_of_lt_of_le (callRoom_lt_of_ahead ?_ spare_le) hroom)⟩
  have hle := here.offset_le
  rw [hsource] at hle ⊢
  omega

/-- There is room for a call at the same place that leaves fewer guards, or no operand. -/
theorem spared (h : LeavesRoom grammar (fuel + 1) engine around parser cursor)
    (hsource : here.source = cursor.source) (hoffset : here.offset = cursor.offset)
    (hspare : engine'.spare grammar part here < engine.spare grammar parser cursor)
    (around' : List (Parser α × Cursor α)) : LeavesRoom grammar fuel engine' around' part here := by
  obtain ⟨visited, -, hroom⟩ := h
  rw [← hsource, ← hoffset] at hroom
  exact ⟨[], .nil, Nat.le_of_lt_succ (Nat.lt_of_lt_of_le (callRoom_lt_of_spare hspare) hroom)⟩

/-- There is room for what a new call makes of the cursor that it got. -/
theorem next (h : LeavesRoom grammar (fuel + 1) engine around parser cursor)
    (hnode : parser ∈ grammar.nodes) (hnew : (parser, cursor) ∉ around)
    (hfollows : cursor.Follows here)
    (hspare : engine'.spareGuards grammar part cursor.offset ≤
      engine.spareGuards grammar parser cursor.offset) :
    LeavesRoom grammar fuel engine' ((parser, cursor) :: around) part here := by
  have hsource := hfollows.reaches.source_eq
  rcases Nat.lt_or_eq_of_le hfollows.reaches.offset_le with hlt | heq
  · exact h.ahead hsource hlt _
  by_cases halike : cursor.Alike here
  · obtain ⟨visited, hvisits, hroom⟩ := h
    have hvisits' := hvisits.cons hnode hnew hsource heq.symm halike
    have hspare' : engine'.spare grammar part here ≤ engine.spare grammar parser cursor := by
      unfold Engine.spare
      rw [halike.isOperand_eq, ← heq]
      omega
    rw [← hsource, heq] at hroom
    exact ⟨_, hvisits', Nat.le_of_lt_succ (Nat.lt_of_lt_of_le
      (callRoom_lt_of_visited hspare' (Nat.lt_succ_self _) hvisits'.length_le) hroom)⟩
  -- the operand was taken up
  · have hplain : here.left.isOperand = false :=
      hfollows.left.resolve_left fun hsame => halike (Or.inl hsame)
    have hoperand : cursor.left.isOperand = true := by
      cases hoperand : cursor.left.isOperand with
      | true => rfl
      | false => exact absurd (.of_plain hoperand hplain) halike
    refine h.spared hsource heq.symm ?_ _
    unfold Engine.spare
    rw [hplain, hoperand, ← heq, if_pos rfl, if_neg Bool.false_ne_true]
    omega

/-- There is room for a new operand at a free guard. -/
theorem offered {id tag : Nat} {value : Option α}
    (h : LeavesRoom grammar (fuel + 1) engine around parser cursor)
    (hpart : part ∈ grammar.nodes) (hguard : parser.guard? = none) (hleads : part.guard? = some id)
    (hreaches : cursor.Reaches here) (hfree : here.offset ∉ engine.active.get id)
    (around' : List (Parser α × Cursor α)) :
    LeavesRoom grammar fuel engine around' part (here.withLeft (.operand tag value)) := by
  have hreaches' := hreaches.withLeft (.operand tag value)
  rcases Nat.lt_or_eq_of_le hreaches.offset_le with hlt | heq
  · exact h.ahead hreaches'.source_eq hlt _
  · refine h.spared hreaches'.source_eq heq.symm ?_ _
    have hlt := spareGuards_lt hpart hguard hleads hfree
    unfold Engine.spare
    rw [Cursor.offset_withLeft, heq]
    split <;> omega

end LeavesRoom

/-- The depth of calls for a text leaves room for its parse. -/
theorem leavesRoom_start (source : Source) :
    LeavesRoom grammar (Engine.depthBound grammar.rules grammar.entry source.size) engine [] parser
      (.start source) := by
  refine ⟨[], .nil, ?_⟩
  rw [depthBound_eq]
  exact Nat.le_of_succ_le (callRoom_le spare_le)

end Calls

end Packrat
