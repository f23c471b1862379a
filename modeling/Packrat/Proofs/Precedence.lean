import Packrat.Proofs.Restoration

/-!
# The discipline of precedence

While a precedence node tries an alternative, further calls of the node take that one and tighter
ones only, until a group starts over.  Only the alternative that is taken again sees what stands to
the left.  What counts as a group is an alternative that is marked as one, if need be behind nodes
that only wrap it; a mark on a part of an alternative is not looked for.
-/

namespace Packrat

variable {α : Type}

/-- The number belongs to one precedence node only. -/
def Grammar.Climbs (grammar : Grammar α) (id : Nat) (alternatives : List (Parser α)) : Prop :=
  ∀ others, Parser.climb id others ∈ grammar.nodes → others = alternatives

section Discipline

variable {grammar : Grammar α} {id : Nat} {alternatives : List (Parser α)} {parser : Parser α}
  {engine : Engine α} {cursor : Cursor α}

/-! ## Indices and left contexts -/

/-- An alternative may be tried inside another one that is not tighter, or that is a group. -/
def Rules.Within (rules : Rules α) (alternatives : List (Parser α)) (inner outer : Nat) : Prop :=
  outer ≤ inner ∨
    ∃ alternative, alternatives[outer]? = some alternative ∧ rules.Restarts alternative

/--
What may stand to the left where an alternative is tried: something only if the same alternative is
tried right outside, and no mark of a right operand if it is a group.
-/
structure Rules.Hands (rules : Rules α) (outside : List Nat) (index : Nat) (part : Parser α)
    (left : Left α) : Prop where
  operand : left.isOperand = true → outside.head? = some index
  rightOperand : left = .rightOperand → outside.head? = some index ∧ ¬ rules.Restarts part
  outermost : outside = [] → left = .empty

/--
The indices of a precedence node are in order, and the next call hands an alternative what it may
see, if it is the node that makes the call.
-/
structure Rules.Orderly (rules : Rules α) (id : Nat) (alternatives : List (Parser α))
    (stack : List Nat) (around : List (Parser α × Cursor α)) (parser : Parser α)
    (cursor : Cursor α) : Prop where
  within : stack.IsChain (rules.Within alternatives)
  hands : ∀ place, around.head? = some (.climb id alternatives, place) →
    ∃ index outside, stack = index :: outside ∧ alternatives[index]? = some parser ∧
      rules.Hands outside index parser cursor.left

open Classical in
/-- Objects to a call at which a precedence node is not in order. -/
noncomputable def Sentinel.precedence (rules : Rules α) (id : Nat)
    (alternatives : List (Parser α)) : Sentinel α where
  objects engine around parser cursor :=
    !decide (rules.Orderly id alternatives (engine.climbing.get id) around parser cursor)

variable {stack : List Nat} {index : Nat} {part : Parser α} {next : Cursor α}
  {rules : Rules α}

/-- An alternative that is tried may be tried inside the innermost one. -/
theorem Rules.Attempts.isChain (h : rules.Attempts alternatives stack cursor index part next)
    (hstack : stack.IsChain (rules.Within alternatives)) :
    (index :: stack).IsChain (rules.Within alternatives) := by
  cases stack with
  | nil => exact .singleton index
  | cons active outside =>
      refine hstack.cons_cons ?_
      cases h with
      | afresh _ _ heligible =>
          obtain ⟨alternative, hget, hrestarts | hlt⟩ := heligible active rfl
          · exact Or.inr ⟨alternative, hget, hrestarts⟩
          · exact Or.inl (Nat.le_of_lt hlt)
      | again _ hactive _ => exact Or.inl (Nat.le_of_eq (Option.some.inj hactive))

/-- An alternative that is tried sees what it may see. -/
theorem Rules.Attempts.hands (h : rules.Attempts alternatives stack cursor index part next) :
    rules.Hands stack index part next.left := by
  cases h with
  | afresh _ _ _ => exact ⟨nofun, nofun, fun _ => rfl⟩
  | again _ hactive hgroup =>
      refine ⟨fun _ => hactive, fun hleft => ⟨hactive, fun hrestarts => ?_⟩, ?_⟩
      · have hoperand := hgroup hrestarts
        rw [hleft] at hoperand
        cases hoperand
      · rintro rfl
        cases hactive

/-- A precedence node is in order at every call. -/
def Sentinel.precedenceWatch (grammar : Grammar α) (id : Nat) (alternatives : List (Parser α))
    (hunique : grammar.Climbs id alternatives) :
    (Sentinel.precedence grammar.rules id alternatives).Watch grammar.rules where
  ready engine around parser cursor := parser ∈ grammar.nodes ∧
    grammar.rules.Orderly id alternatives (engine.climbing.get id) around parser cursor
  quiet h := by simpa [precedence] using h.2
  congr hsame h := by rwa [hsame]
  called {engine around parser cursor part next} h hcalls hclimb := by
    refine ⟨Grammar.mem_nodes_of_calls h.1 hcalls, h.2.within, ?_⟩
    rintro place ⟨⟩
    cases hclimb
  attempted {engine around other others cursor index part next} h hattempts := by
    have hpart : part ∈ grammar.nodes :=
      Grammar.child_mem_nodes h.1 (List.mem_of_getElem? hattempts.getElem?_eq)
    by_cases hid : other = id
    · subst hid
      obtain rfl := hunique others h.1
      rw [Engine.climbing_pushed_self]
      refine ⟨hpart, hattempts.isChain h.2.within, fun place _ => ?_⟩
      exact ⟨index, _, rfl, hattempts.getElem?_eq, hattempts.hands⟩
    · rw [Engine.climbing_pushed_of_ne _ hid]
      refine ⟨hpart, h.2.within, ?_⟩
      rintro place ⟨⟩
      exact absurd rfl hid

/--
In a run that begins while a precedence node tries nothing, every index stands on one that is not
larger or that is of a group, and an alternative sees an operand or the mark of a right operand only
where it is taken again, the mark only if it is no group; the outermost alternative sees neither.
-/
theorem run_in_order (hunique : grammar.Climbs id alternatives) (hnode : parser ∈ grammar.nodes)
    (hstart : engine.climbing.get id = []) (alarm : Stop) (fuel : Nat) :
    (Sentinel.precedence grammar.rules id alternatives).run alarm grammar.rules fuel [] parser
      cursor engine = Engine.run grammar.rules fuel parser cursor engine := by
  have hready : (Sentinel.precedenceWatch grammar id alternatives hunique).ready engine [] parser
      cursor := by
    refine ⟨hnode, ?_, nofun⟩
    rw [hstart]
    exact .nil
  exact (Sentinel.Watch.tracks_run _ alarm hready).same

end Discipline

/-- Signs in front of what one of the tighter alternatives matches. -/
def signs (primaries : List (Parser Unit)) : Grammar Unit where
  rules := .ofBodies [.climb 0 (.sequence [.literal ['-'] (), .call 0] (fun _ => ()) :: primaries)]
  entry := .call 0

namespace signs

def letter : Parser Unit := .literal ['a'] ()

/-- A parser between brackets. -/
def bracketed (parser : Parser Unit) : Parser Unit :=
  .sequence [.literal ['('] (), parser, .literal [')'] ()] fun _ => ()

/-- A bracket that is a group, and a letter. -/
def groups : List (Parser Unit) := [.nested (bracketed (.call 0)), letter]

theorem climbs : (signs groups).Climbs 0
    (.sequence [.literal ['-'] (), .call 0] (fun _ => ()) :: groups) := by
  intro others h
  simpa [Grammar.nodes, signs, Rules.nodes, Rules.ofBodies, Definition.nodes, Parser.nodes,
    Parser.nodesAll, groups, bracketed, letter] using h

/-- How far a run gets that ends. -/
def reach (outcome : Except Stop (Option (Output Unit) × Engine Unit)) : Except Stop (Option Nat) :=
  outcome.map fun (found, _) => found.map fun output => output.next.offset

end signs

/-- Signs, brackets and letters are tried in order. -/
theorem signs_in_order :
    (Engine.fresh : Engine Unit).climbing.get 0 = [] ∧
      ∀ alarm, (Sentinel.precedence (signs signs.groups).rules 0
          (.sequence [.literal ['-'] (), .call 0] (fun _ => ()) :: signs.groups)).run alarm
          (signs signs.groups).rules 20 [] (.call 0) (.start (.ofString "-(-a)")) .fresh =
        Engine.run (signs signs.groups).rules 20 (.call 0) (.start (.ofString "-(-a)")) .fresh := by
  have hidle : (Engine.fresh : Engine Unit).climbing.get 0 = [] := Table.get_empty 0
  exact ⟨hidle, fun alarm => run_in_order signs.climbs Grammar.entry_mem_nodes hidle alarm 20⟩

/-! ## Where a precedence node starts over -/

namespace Engine

variable {rules : Rules α} {fuel id index : Nat} {alternatives : List (Parser α)}
  {part : Parser α} {engine : Engine α} {cursor : Cursor α} {answer : Except Stop Bool}

/-- A node that tries nothing yet tries all its alternatives, if there is no operand to take. -/
theorem run_climb_of_idle (hidle : engine.climbing.get id = [])
    (hplain : cursor.left.isOperand = false) :
    run rules (fuel + 1) (.climb id alternatives) cursor engine =
      attemptAll (run rules fuel) id 0 alternatives cursor.withoutLeft engine := by
  simp only [run, step, climbMatch, Bind.bind, StateT.bind, innermost?_eq, Except.bind, hidle,
    List.head?_nil, hplain]
  rfl

/-- Tries one alternative as it is, and then tighter ones without anything to the left. -/
def attemptFrom (call : Call α) (id index : Nat) (part : Parser α) (tighter : List (Parser α)) :
    Matcher α := fun cursor => do
  match ← attempt call id index part cursor with
  | some output => return some output
  | none => attemptAll call id (index + 1) tighter cursor.withoutLeft

/-- What a node does that tries an alternative depends on whether that is a group. -/
theorem run_climb_of_active (htop : (engine.climbing.get id).head? = some index)
    (hget : alternatives[index]? = some part) (hplain : cursor.left.isOperand = false) :
    run rules (fuel + 1) (.climb id alternatives) cursor engine =
      match restarts rules fuel part with
      | .error stop => .error stop
      | .ok true => attemptAll (run rules fuel) id 0 alternatives cursor.withoutLeft engine
      | .ok false =>
          attemptFrom (run rules fuel) id index part (alternatives.drop (index + 1)) cursor
            engine := by
  have hdrop : alternatives.drop index = part :: alternatives.drop (index + 1) := by
    obtain ⟨hlt, rfl⟩ := List.getElem?_eq_some_iff.mp hget
    exact List.drop_eq_getElem_cons hlt
  simp only [run, step, climbMatch, Bind.bind, StateT.bind, innermost?_eq, Except.bind, htop, hdrop,
    hplain]
  cases restarts rules fuel part with
  | error stop => rfl
  | ok answer => cases answer <;> rfl

/--
The precedence node tries all its alternatives from the first one on, on the cursor without anything
to its left, given room to find out that it has to.
-/
def StartsOver (rules : Rules α) (id : Nat) (alternatives : List (Parser α)) (cursor : Cursor α)
    (engine : Engine α) : Prop :=
  ∃ bound, ∀ fuel, run rules (fuel + 1) (.climb id alternatives) cursor engine =
    if bound ≤ fuel then
      attemptAll (run rules fuel) id 0 alternatives cursor.withoutLeft engine
    else .error .tooDeep

/--
The precedence node tries the alternative of the given index again, on the cursor as it is, and then
tighter ones on the cursor without anything to its left.
-/
def GoesOn (rules : Rules α) (id : Nat) (alternatives : List (Parser α)) (index : Nat)
    (part : Parser α) (cursor : Cursor α) (engine : Engine α) : Prop :=
  ∀ fuel, restarts rules fuel part = .ok false →
    run rules (fuel + 1) (.climb id alternatives) cursor engine =
      attemptFrom (run rules fuel) id index part (alternatives.drop (index + 1)) cursor engine

theorem startsOver_of_group (htop : (engine.climbing.get id).head? = some index)
    (hget : alternatives[index]? = some part) (hplain : cursor.left.isOperand = false)
    (hgroup : rules.Restarts part) : StartsOver rules id alternatives cursor engine := by
  obtain ⟨bound, hbound⟩ := hgroup.restarts_eq
  refine ⟨bound + 1, fun fuel => ?_⟩
  rw [run_climb_of_active htop hget hplain, hbound]
  by_cases hroom : bound < fuel
  · simp only [hroom, if_true, Nat.succ_le_of_lt hroom]
  · simp only [hroom, if_false, Nat.succ_le_iff]

theorem goesOn_of_active (htop : (engine.climbing.get id).head? = some index)
    (hget : alternatives[index]? = some part) (hplain : cursor.left.isOperand = false) :
    GoesOn rules id alternatives index part cursor engine := by
  intro fuel hanswer
  rw [run_climb_of_active htop hget hplain, hanswer]

end Engine

/--
What a precedence node does at a cursor without an operand, by the alternatives of it that are tried
along the path of calls: it starts over if there is none, or if the innermost one is a group, and
else it goes on with that one.
-/
def Rules.Resumes (rules : Rules α) (id : Nat) (alternatives : List (Parser α))
    (path : List (Parser α)) (cursor : Cursor α) (engine : Engine α) : Prop :=
  match (Parser.tried id path).head? with
  | none => Engine.StartsOver rules id alternatives cursor engine
  | some (_, part) =>
      (rules.Restarts part → Engine.StartsOver rules id alternatives cursor engine) ∧
        (¬ rules.Restarts part → ∃ index, alternatives[index]? = some part ∧
          Engine.GoesOn rules id alternatives index part cursor engine)

open Classical in
/--
Objects to a call of a precedence node, at a cursor without an operand, at which it does not do what
the innermost alternative asks for.
-/
noncomputable def Sentinel.groups (rules : Rules α) (id : Nat) (alternatives : List (Parser α)) :
    Sentinel α where
  objects engine around parser cursor :=
    !decide (parser = .climb id alternatives → cursor.left.isOperand = false →
      rules.Resumes id alternatives (parser :: around.map Prod.fst) cursor engine)

section Groups

variable {grammar : Grammar α} {rules : Rules α} {id : Nat} {alternatives path : List (Parser α)}
  {parser : Parser α} {engine : Engine α} {cursor : Cursor α} {stack : List Nat}

/-- What a path tells of the innermost index of a precedence node. -/
theorem Tells.head?_eq (h : Tells id [] path stack)
    (hnode : ∀ tried ∈ Parser.tried id path, tried.1 = .climb id alternatives) :
    match (Parser.tried id path).head? with
    | none => stack = []
    | some (_, part) => ∃ index, stack.head? = some index ∧ alternatives[index]? = some part := by
  obtain ⟨indices, rfl, hall⟩ := h
  rw [List.append_nil]
  cases htried : Parser.tried id path with
  | nil =>
      rw [htried] at hall
      exact List.forall₂_nil_right_iff.mp hall
  | cons tried rest =>
      rw [htried] at hall hnode
      obtain ⟨index, indices, hget, -, rfl⟩ := List.forall₂_cons_right_iff.mp hall
      obtain ⟨node, part⟩ := tried
      obtain rfl : node = .climb id alternatives := hnode _ List.mem_cons_self
      exact ⟨index, rfl, hget⟩

/-- A precedence node whose indices tell what it tries does what the innermost one asks for. -/
theorem Tells.resumes (h : Tells id [] path (engine.climbing.get id))
    (hnode : ∀ tried ∈ Parser.tried id path, tried.1 = .climb id alternatives)
    (hplain : cursor.left.isOperand = false) :
    rules.Resumes id alternatives path cursor engine := by
  have hhead := h.head?_eq hnode
  unfold Rules.Resumes
  cases htried : (Parser.tried id path).head? with
  | none =>
      rw [htried] at hhead
      refine ⟨0, fun fuel => ?_⟩
      rw [if_pos (Nat.zero_le fuel)]
      exact Engine.run_climb_of_idle hhead hplain
  | some tried =>
      rw [htried] at hhead
      obtain ⟨index, htop, hget⟩ := hhead
      exact ⟨Engine.startsOver_of_group htop hget hplain,
        fun _ => ⟨index, hget, Engine.goesOn_of_active htop hget hplain⟩⟩

/-- A precedence node does at every call what its innermost alternative asks for. -/
def Sentinel.groupsWatch (grammar : Grammar α) (id : Nat) (alternatives : List (Parser α))
    (hunique : grammar.Climbs id alternatives) :
    (Sentinel.groups grammar.rules id alternatives).Watch grammar.rules where
  ready engine around parser _ := parser ∈ grammar.nodes ∧
    (∀ tried ∈ Parser.tried id (parser :: around.map Prod.fst), tried.1 = .climb id alternatives) ∧
      Tells id [] (parser :: around.map Prod.fst) (engine.climbing.get id)
  quiet h := by
    simp only [groups, Bool.not_eq_false', decide_eq_true_eq]
    exact fun _ hplain => h.2.2.resumes h.2.1 hplain
  congr hsame h := by rwa [hsame]
  called {engine around parser cursor part next} h hcalls hclimb := by
    have hother : parser.climb? ≠ some id := by rw [hclimb]; nofun
    refine ⟨Grammar.mem_nodes_of_calls h.1 hcalls, ?_, h.2.2.called hother⟩
    rw [List.map_cons, Parser.tried_of_other hother]
    exact h.2.1
  attempted {engine around other others cursor index part next} h hattempts := by
    have hpart : part ∈ grammar.nodes :=
      Grammar.child_mem_nodes h.1 (List.mem_of_getElem? hattempts.getElem?_eq)
    by_cases hid : other = id
    · subst hid
      obtain rfl := hunique others h.1
      rw [Engine.climbing_pushed_self, List.map_cons, Parser.tried_of_climb]
      refine ⟨hpart, List.forall_mem_cons.mpr ⟨rfl, h.2.1⟩, ?_⟩
      exact h.2.2.attempted hattempts.getElem?_eq
    · have hother : (Parser.climb other others).climb? ≠ some id := by
        simpa [Parser.climb?] using hid
      rw [Engine.climbing_pushed_of_ne _ hid, List.map_cons, Parser.tried_of_other hother]
      refine ⟨hpart, h.2.1, ?_⟩
      rw [Tells, Parser.tried_of_other hother]
      exact h.2.2

/--
In a run that begins while a precedence node tries nothing, a call of the node inside a group, on a
cursor without an operand, tries all alternatives from the first one on with nothing to the left.
The group may be the alternative itself or stand behind nodes that only wrap it.  Inside any other
alternative, whatever marks there are on its parts, the call goes on with that one and tighter ones.
-/
theorem run_starts_over (hunique : grammar.Climbs id alternatives) (hnode : parser ∈ grammar.nodes)
    (hstart : engine.climbing.get id = []) (alarm : Stop) (fuel : Nat) :
    (Sentinel.groups grammar.rules id alternatives).run alarm grammar.rules fuel [] parser cursor
      engine = Engine.run grammar.rules fuel parser cursor engine := by
  have hready : (Sentinel.groupsWatch grammar id alternatives hunique).ready engine [] parser
      cursor := by
    refine ⟨hnode, nofun, ?_⟩
    rw [hstart]
    exact .first id [] parser
  exact (Sentinel.Watch.tracks_run _ alarm hready).same

end Groups

/-- Inside the bracket, which is an alternative of its own, a sign is tried again. -/
theorem signs_start_over :
    signs.reach (Engine.run (signs signs.groups).rules 20 (.call 0) (.start (.ofString "-(-a)"))
        .fresh) = .ok (some 5) ∧
      ∀ alarm, (Sentinel.groups (signs signs.groups).rules 0
          (.sequence [.literal ['-'] (), .call 0] (fun _ => ()) :: signs.groups)).run alarm
          (signs signs.groups).rules 20 [] (.call 0) (.start (.ofString "-(-a)")) .fresh =
        Engine.run (signs signs.groups).rules 20 (.call 0) (.start (.ofString "-(-a)")) .fresh :=
  ⟨by decide +kernel, fun alarm =>
    run_starts_over signs.climbs Grammar.entry_mem_nodes (Table.get_empty 0) alarm 20⟩

/-! ## Groups that are parts of an alternative -/

/--
Whether the innermost of the calls is made inside a mark, and no alternative of the precedence node
is tried in between.
-/
def Parser.inGroup (id : Nat) : List (Parser α) → Bool
  | [] => false
  | .nested _ :: _ => true
  | caller :: path => caller.climb? != some id && inGroup id path

namespace signs

/--
Objects to a call inside a mark, on a cursor without an operand, at which the precedence node does
not get as far as with all its alternatives and nothing to the left.
-/
def marks (rules : Rules Unit) (fuel : Nat) : Sentinel Unit where
  objects engine around parser cursor :=
    match parser with
    | .climb 0 alternatives =>
        !cursor.left.isOperand && Parser.inGroup 0 (around.map Prod.fst) &&
          reach (Engine.run rules fuel parser cursor engine) != reach
            (Engine.attemptAll (Engine.run rules fuel) 0 0 alternatives cursor.withoutLeft engine)
    | _ => false

/-- A bracket that is a group, or a letter, in one alternative. -/
def branches : List (Parser Unit) := [.firstOf [.nested (bracketed (.call 0)), letter]]

/-- A bracket whose content is marked as a group, and a letter. -/
def elements : List (Parser Unit) := [bracketed (.nested (.call 0)), letter]

/-- How far a run on the text gets. -/
def found (primaries : List (Parser Unit)) (text : String) : Except Stop (Option Nat) :=
  reach (Engine.run (signs primaries).rules 20 (.call 0) (.start (.ofString text)) .fresh)

/-- How far it gets if it is stopped where a mark does not count. -/
def marked (primaries : List (Parser Unit)) (text : String) : Except Stop (Option Nat) :=
  reach ((marks (signs primaries).rules 20).run (.pending 1) (signs primaries).rules 20 [] (.call 0)
    (.start (.ofString text)) .fresh)

end signs

/--
A mark on a branch of a choice or on an element of a sequence does not count: inside it the bracket
of `(-a)` is tried again, and no sign.  As a group of its own the bracket matches.
-/
theorem signs_not_start_over :
    signs.marked signs.branches "(-a)" = .error (.pending 1) ∧
      signs.found signs.branches "(-a)" = .ok none ∧
      signs.marked signs.elements "(-a)" = .error (.pending 1) ∧
      signs.found signs.elements "(-a)" = .ok none ∧
      signs.marked signs.groups "(-a)" = .ok (some 4) := by
  decide +kernel

end Packrat
