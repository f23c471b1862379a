import Packrat.Proofs.Termination.Trail

/-!
# Calls that fit a bound

A call fits a bound if what is left to it is within the bound.  Whatever it calls in turn fits the
next smaller bound: further on in the text, or at the same place by one of the ways in which a call
has less left to it than its caller.
-/

namespace Packrat

variable {α : Type}

/-- A path leads to the call, and what is left to it is within the bound. -/
def HasRoom (grammar : Grammar α) (lasting : Nat → Prop) (bound : Nat) (parser : Parser α)
    (cursor : Cursor α) (engine : Engine α) : Prop :=
  ∃ path, grammar.Trail lasting parser path ∧
    engine.need grammar lasting cursor path.length ≤ bound

namespace HasRoom

variable {grammar : Grammar α} {lasting : Nat → Prop} {bound : Nat} {parser part : Parser α}
  {cursor next : Cursor α} {engine later : Engine α}

theorem nodes_lt (h : HasRoom grammar lasting bound parser cursor engine) :
    grammar.nodes.length + 3 < bound :=
  let ⟨_, _, hneed⟩ := h
  Nat.lt_of_lt_of_le nodes_lt_room hneed

theorem ahead_lt (h : HasRoom grammar lasting bound parser cursor engine) :
    cursor.source.size - cursor.offset + 1 < bound :=
  let ⟨_, _, hneed⟩ := h
  Nat.lt_of_lt_of_le ahead_lt_room hneed

/-- A call at the same place, of a node that is not checked. -/
theorem falls (hchecked : grammar.Checked lasting)
    (h : HasRoom grammar lasting (bound + 1) parser cursor engine)
    (hfalls : grammar.Falls lasting parser part) (hreached : grammar.Reached part)
    (hactive : ∀ id, later.active.get id = engine.active.get id)
    (hretains : engine.Retains lasting later) (hsource : next.source = cursor.source)
    (hoffset : next.offset = cursor.offset) (halike : cursor.Alike next) :
    HasRoom grammar lasting bound part next later := by
  obtain ⟨path, htrail, hneed⟩ := h
  have htrail' := htrail.cons hchecked hfalls hreached
  refine ⟨part :: path, htrail', Nat.le_of_lt_succ (Nat.lt_of_lt_of_le ?_ hneed)⟩
  rw [Engine.need, hsource, hoffset]
  exact room_lt_of_visited (Nat.le_of_eq (level_eq hactive hoffset halike.isOperand_eq))
    (keys_le_of_retains hretains hoffset halike) (Nat.lt_succ_self _) htrail'.length_le

/-- A call further on in the text. -/
theorem ahead (h : HasRoom grammar lasting (bound + 1) parser cursor engine)
    (hreached : grammar.Reached part) (hsource : next.source = cursor.source)
    (hoffset : cursor.offset < next.offset) : HasRoom grammar lasting bound part next later := by
  obtain ⟨path, htrail, hneed⟩ := h
  refine ⟨[part], .single hreached, Nat.le_of_lt_succ (Nat.lt_of_lt_of_le ?_ hneed)⟩
  have hle := next.offset_le
  rw [hsource] at hle
  refine room_lt_of_ahead (guards_add_memos_le grammar) ?_ level_le keys_le
  rw [hsource]
  omega

/-- A call at the same place where the operand was taken up. -/
theorem taken (h : HasRoom grammar lasting (bound + 1) parser cursor engine)
    (hreached : grammar.Reached part)
    (hactive : ∀ id, later.active.get id = engine.active.get id)
    (hsource : next.source = cursor.source) (hoffset : next.offset = cursor.offset)
    (hoperand : cursor.left.isOperand = true) (hplain : next.left.isOperand = false) :
    HasRoom grammar lasting bound part next later := by
  obtain ⟨path, htrail, hneed⟩ := h
  have hlevel : later.level grammar next < engine.level grammar cursor := by
    unfold Engine.level
    rw [hoffset, isFree_eq hactive, hoperand, hplain, if_neg Bool.false_ne_true, if_pos rfl]
    exact Nat.lt_succ_self _
  refine ⟨[part], .single hreached, Nat.le_of_lt_succ (Nat.lt_of_lt_of_le ?_ hneed)⟩
  rw [Engine.need, hsource, hoffset]
  exact Nat.lt_of_succ_lt (room_lt_of_level hlevel keys_le Nat.zero_lt_one
    (Grammar.Trail.single hreached : grammar.Trail lasting part [part]).length_le)

/-- The call behind a guard that is entered. -/
theorem entered {id : Nat}
    (h : HasRoom grammar lasting (bound + 1) (.guarded id part) cursor engine)
    (hguard : grammar.Reached (.guarded id part)) (hfree : cursor.offset ∉ engine.active.get id) :
    HasRoom grammar lasting bound part cursor (engine.entered id cursor.offset) := by
  obtain ⟨path, htrail, hneed⟩ := h
  have hreached := hguard.child List.mem_cons_self
  refine ⟨[part], .single hreached, Nat.le_of_lt_succ (Nat.lt_of_lt_of_le ?_ hneed)⟩
  have hless := free_entered_lt hguard.mem_nodes hfree
  refine Nat.lt_of_succ_lt (room_lt_of_level ?_ keys_le Nat.zero_lt_one
    (Grammar.Trail.single hreached : grammar.Trail lasting part [part]).length_le)
  unfold Engine.level
  omega

/-- The call behind a guard that is entered with a new operand, two calls further down. -/
theorem renewed {id : Nat} (h : HasRoom grammar lasting (bound + 2) parser cursor engine)
    (hguard : grammar.Reached (.guarded id part)) (hfree : next.offset ∉ later.active.get id)
    (hactive : ∀ id, later.active.get id = engine.active.get id)
    (hsource : next.source = cursor.source) (hoffset : next.offset = cursor.offset) :
    HasRoom grammar lasting bound part next (later.entered id next.offset) := by
  obtain ⟨path, htrail, hneed⟩ := h
  have hreached := hguard.child List.mem_cons_self
  refine ⟨[part], .single hreached, ?_⟩
  have hless := free_entered_lt hguard.mem_nodes hfree
  have hlevel : (later.entered id next.offset).level grammar next < engine.level
    grammar cursor := by
    rw [isFree_eq hactive] at hless
    unfold Engine.level
    rw [hoffset] at hless ⊢
    split <;> split <;> omega
  have hroom : (later.entered id next.offset).need grammar lasting next 1 + 1 <
      engine.need grammar lasting cursor path.length := by
    unfold Engine.need
    rw [hsource, hoffset]
    rw [hoffset] at hlevel
    exact room_lt_of_level hlevel keys_le Nat.zero_lt_one
      (Grammar.Trail.single hreached : grammar.Trail lasting part [part]).length_le
  exact Nat.le_of_lt_succ (Nat.lt_of_succ_lt_succ (Nat.lt_of_lt_of_le hroom hneed))

/-- The call behind a cached parser that begins its run. -/
theorem stored {id cache : Nat} {result : Option (Output α)}
    (h : HasRoom grammar lasting (bound + 1) (.memo id cache part) cursor engine)
    (hmemo : grammar.Reached (.memo id cache part)) (hlasting : lasting cache)
    (hmissing : engine.entryIn cache ⟨id, cursor.offset, cursor.left.key⟩ = none) :
    HasRoom grammar lasting bound part cursor
      ((engine.counted cache ⟨id, cursor.offset, cursor.left.key⟩).stored cache
        ⟨id, cursor.offset, cursor.left.key⟩ result) := by
  obtain ⟨path, htrail, hneed⟩ := h
  have hreached := hmemo.child List.mem_cons_self
  refine ⟨[part], .single hreached, Nat.le_of_lt_succ (Nat.lt_of_lt_of_le ?_ hneed)⟩
  exact room_lt_of_keys (Nat.le_of_eq (level_eq (fun _ => rfl) rfl rfl))
    (keys_stored_lt hmemo.mem_nodes hlasting hmissing)

/-- Wherever a call comes from, it fits the depth for the text in front of it. -/
theorem of_reached (hreached : grammar.Reached parser)
    (hbound : (grammar.nodes.length + 3) * (grammar.nodes.length + 3) * (grammar.nodes.length + 3) *
      (cursor.source.size - cursor.offset + 1) ≤ bound + grammar.nodes.length) :
    HasRoom grammar lasting bound parser cursor engine :=
  ⟨[parser], .single hreached, Nat.le_of_add_le_add_right
    (Nat.le_trans (room_add_le (guards_add_memos_le grammar) level_le keys_le) hbound)⟩

end HasRoom

end Packrat
