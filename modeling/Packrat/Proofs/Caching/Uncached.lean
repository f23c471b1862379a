import Packrat.Proofs.Termination.Progress

/-!
# Grammars without their caches

`uncached` takes all cached parsers for what they wrap.  The nodes of a grammar without its caches
are its nodes without their caches, and a step of such a node makes the calls that the node itself
makes, on parts without their caches.
-/

namespace Packrat

variable {α : Type}

namespace Parser

mutual

/-- The parser without its caches. -/
def uncached : Parser α → Parser α
  | .satisfy accepts payload => .satisfy accepts payload
  | .literal chars payload => .literal chars payload
  | .endOfInput payload => .endOfInput payload
  | .except parser excluded => .except parser.uncached (uncachedAll excluded)
  | .firstOf alternatives => .firstOf (uncachedAll alternatives)
  | .longestOf alternatives => .longestOf (uncachedAll alternatives)
  | .sequence parts combine => .sequence (uncachedAll parts) combine
  | .foldLeft left middle right combine =>
      .foldLeft left.uncached (uncachedAll middle) right.uncached combine
  | .repeated parser atLeast atMost collect => .repeated parser.uncached atLeast atMost collect
  | .optional parser wrap => .optional parser.uncached wrap
  | .convert parser f => .convert parser.uncached f
  | .guarded id parser => .guarded id parser.uncached
  | .climb id alternatives => .climb id (uncachedAll alternatives)
  | .nested parser => .nested parser.uncached
  | .memo _ _ parser => parser.uncached
  | .clearing id cache parser => .clearing id cache parser.uncached
  | .logged name parser => .logged name parser.uncached
  | .call rule => .call rule
  | .redirected move parser => .redirected move parser.uncached

/-- The parsers without their caches. -/
def uncachedAll : List (Parser α) → List (Parser α)
  | [] => []
  | parser :: parsers => parser.uncached :: uncachedAll parsers

end

theorem uncachedAll_eq_map (parsers : List (Parser α)) :
    uncachedAll parsers = parsers.map uncached := by
  induction parsers with
  | nil => rfl
  | cons parser parsers ih => rw [uncachedAll, ih, List.map_cons]

variable {parser part node : Parser α}

theorem children_uncached (h : ¬ parser.isMemo) :
    parser.uncached.children = parser.children.map uncached := by
  cases parser <;> first | exact absurd rfl h | simp [uncached, children, uncachedAll_eq_map]

theorem nodes_subset_of_child (h : part ∈ parser.children) : part.nodes ⊆ parser.nodes := by
  intro node hnode
  rw [parser.nodes_eq_cons]
  exact List.mem_cons_of_mem _ (List.mem_flatMap.mpr ⟨part, h, hnode⟩)

/-- Without its caches, a node is one of the nodes without their caches. -/
theorem uncached_mem_nodes (h : node ∈ parser.nodes) : node.uncached ∈ parser.uncached.nodes := by
  induction hsize : parser.size using Nat.strongRecOn generalizing parser with
  | ind size ih =>
      subst hsize
      rw [nodes_eq_cons] at h
      rcases List.mem_cons.mp h with rfl | h
      · exact mem_nodes_self _
      · obtain ⟨part, hpart, hnode⟩ := List.mem_flatMap.mp h
        have hmem := ih part.size (size_lt_of_mem_children hpart) hnode rfl
        by_cases hmemo : parser.isMemo
        · obtain ⟨id, cache, inner, rfl⟩ := exists_of_isMemo hmemo
          obtain rfl := List.mem_singleton.mp hpart
          exact hmem
        · refine nodes_subset_of_child ?_ hmem
          rw [children_uncached hmemo]
          exact List.mem_map_of_mem hpart

/-- What is a node without caches is a node that stores nothing, taken without its caches. -/
theorem exists_of_mem_nodes_uncached (h : node ∈ parser.uncached.nodes) :
    ∃ inner ∈ parser.nodes, ¬ inner.isMemo ∧ inner.uncached = node := by
  induction hsize : parser.size using Nat.strongRecOn generalizing parser with
  | ind size ih =>
      subst hsize
      by_cases hmemo : parser.isMemo
      · obtain ⟨id, cache, part, rfl⟩ := exists_of_isMemo hmemo
        have hpart : node ∈ part.uncached.nodes := h
        obtain ⟨inner, hmem, hinner⟩ := ih part.size (Nat.lt_succ_self _) hpart rfl
        exact ⟨inner, List.mem_cons_of_mem _ hmem, hinner⟩
      · rw [nodes_eq_cons, children_uncached hmemo] at h
        rcases List.mem_cons.mp h with rfl | h
        · exact ⟨parser, mem_nodes_self _, hmemo, rfl⟩
        · obtain ⟨_, hchild, hnode⟩ := List.mem_flatMap.mp h
          obtain ⟨part, hpart, rfl⟩ := List.mem_map.mp hchild
          obtain ⟨inner, hmem, hinner⟩ := ih part.size (size_lt_of_mem_children hpart) hnode rfl
          exact ⟨inner, nodes_subset_of_child hpart hmem, hinner⟩

end Parser

/-! ## Rules and grammars -/

def Definition.uncached : Definition α → Definition α
  | .body parser => .body parser.uncached
  | .missing => .missing
  | .pending => .pending

def Rules.uncached (rules : Rules α) : Rules α := ⟨rules.entries.map Definition.uncached⟩

/-- The grammar without its caches. -/
def Grammar.uncached (grammar : Grammar α) : Grammar α :=
  ⟨grammar.rules.uncached, grammar.entry.uncached⟩

theorem Rules.find_uncached (rules : Rules α) (rule : Nat) :
    rules.uncached.find rule = (rules.find rule).uncached := by
  simp only [Rules.find, Rules.uncached, Array.getD_eq_getD_getElem?, Array.getElem?_map]
  cases rules.entries[rule]? <;> rfl

namespace Grammar

variable {grammar : Grammar α} {node : Parser α}

theorem uncached_mem_nodes (h : node ∈ grammar.nodes) :
    node.uncached ∈ grammar.uncached.nodes := by
  rcases List.mem_append.mp h with h | h
  · exact List.mem_append_left _ (Parser.uncached_mem_nodes h)
  · obtain ⟨definition, hmem, hnode⟩ := List.mem_flatMap.mp h
    refine List.mem_append_right _ (List.mem_flatMap.mpr ⟨definition.uncached, ?_, ?_⟩)
    · rw [Grammar.uncached, Rules.uncached, Array.toList_map]
      exact List.mem_map_of_mem hmem
    · cases definition with
      | body parser => exact Parser.uncached_mem_nodes hnode
      | missing => cases hnode
      | pending => cases hnode

theorem exists_of_mem_nodes_uncached (h : node ∈ grammar.uncached.nodes) :
    ∃ inner ∈ grammar.nodes, ¬ inner.isMemo ∧ inner.uncached = node := by
  rcases List.mem_append.mp h with h | h
  · obtain ⟨inner, hmem, hinner⟩ := Parser.exists_of_mem_nodes_uncached h
    exact ⟨inner, List.mem_append_left _ hmem, hinner⟩
  · obtain ⟨_, hdefinition, hnode⟩ := List.mem_flatMap.mp h
    rw [Grammar.uncached, Rules.uncached, Array.toList_map] at hdefinition
    obtain ⟨definition, hmem, rfl⟩ := List.mem_map.mp hdefinition
    cases definition with
    | body parser =>
        obtain ⟨inner, hinner, hrest⟩ := Parser.exists_of_mem_nodes_uncached hnode
        exact ⟨inner, List.mem_append_right _ (List.mem_flatMap.mpr ⟨_, hmem, hinner⟩), hrest⟩
    | missing => cases hnode
    | pending => cases hnode

/-- The grammar has no precedence nodes. -/
def Flat (grammar : Grammar α) : Prop :=
  ∀ id alternatives, Parser.climb id alternatives ∉ grammar.nodes

theorem Direct.uncached (h : grammar.Direct) : grammar.uncached.Direct := by
  intro move parser hmem
  obtain ⟨inner, hinner, hmemo, hsame⟩ := exists_of_mem_nodes_uncached hmem
  cases inner with
  | redirected move part => exact h move part hinner
  | memo id cache part => exact hmemo rfl
  | _ => cases hsame

theorem Flat.uncached (h : grammar.Flat) : grammar.uncached.Flat := by
  intro id alternatives hmem
  obtain ⟨inner, hinner, hmemo, hsame⟩ := exists_of_mem_nodes_uncached hmem
  cases inner with
  | climb id alternatives => exact h id alternatives hinner
  | memo id cache part => exact hmemo rfl
  | _ => cases hsame

/-- Without its caches a grammar stores nothing. -/
theorem not_isMemo_of_mem_uncached (h : node ∈ grammar.uncached.nodes) : ¬ node.isMemo := by
  obtain ⟨inner, -, hmemo, rfl⟩ := exists_of_mem_nodes_uncached h
  cases inner with
  | memo id cache part => exact absurd rfl hmemo
  | _ => exact Bool.false_ne_true

theorem Numbered.of_uncached (h : grammar.Flat) : grammar.uncached.Numbered where
  memo hmemo := absurd rfl (not_isMemo_of_mem_uncached hmemo)
  climb hclimb := absurd hclimb (h.uncached _ _)

end Grammar

/-! ## Taking the caches away twice -/

namespace Parser

mutual

theorem uncached_uncached : ∀ parser : Parser α, parser.uncached.uncached = parser.uncached
  | .satisfy _ _ | .literal _ _ | .endOfInput _ | .call _ => rfl
  | .except parser excluded => by
      simp only [uncached, uncached_uncached parser, uncachedAll_uncachedAll excluded]
  | .firstOf alternatives | .longestOf alternatives | .climb _ alternatives => by
      simp only [uncached, uncachedAll_uncachedAll alternatives]
  | .sequence parts _ => by simp only [uncached, uncachedAll_uncachedAll parts]
  | .foldLeft left middle right _ => by
      simp only [uncached, uncached_uncached left, uncachedAll_uncachedAll middle,
        uncached_uncached right]
  | .repeated parser _ _ _ | .optional parser _ | .convert parser _ | .guarded _ parser
  | .nested parser | .memo _ _ parser | .clearing _ _ parser | .logged _ parser
  | .redirected _ parser => by simp only [uncached, uncached_uncached parser]

theorem uncachedAll_uncachedAll : ∀ parsers : List (Parser α),
    uncachedAll (uncachedAll parsers) = uncachedAll parsers
  | [] => rfl
  | parser :: parsers => by
      simp only [uncachedAll, uncached_uncached parser, uncachedAll_uncachedAll parsers]

end

end Parser

theorem Rules.uncached_uncached (rules : Rules α) : rules.uncached.uncached = rules.uncached := by
  have hsame : Definition.uncached ∘ Definition.uncached = Definition.uncached (α := α) := by
    funext definition
    cases definition with
    | body parser => exact congrArg Definition.body parser.uncached_uncached
    | missing => rfl
    | pending => rfl
  rw [uncached, uncached, Array.map_map, hsame]

theorem Grammar.uncached_uncached (grammar : Grammar α) :
    grammar.uncached.uncached = grammar.uncached := by
  simp only [uncached, Rules.uncached_uncached, Parser.uncached_uncached]

/-! ## Steps without caches -/

namespace Engine

variable {call : Call α} {f : Parser α → Parser α} {cursor : Cursor α}

theorem firstMatch_map (parsers : List (Parser α)) :
    firstMatch call (parsers.map f) cursor =
      firstMatch (fun part => call (f part)) parsers cursor := by
  induction parsers with
  | nil => rfl
  | cons parser parsers ih => simp only [List.map_cons, firstMatch, ih]

theorem longestMatch_map (best : Option (Output α)) (parsers : List (Parser α)) :
    longestMatch call best (parsers.map f) cursor =
      longestMatch (fun part => call (f part)) best parsers cursor := by
  induction parsers generalizing best with
  | nil => rfl
  | cons parser parsers ih => simp only [List.map_cons, longestMatch, ih]

theorem inSequence_map (parsers : List (Parser α)) :
    inSequence call (parsers.map f) cursor =
      inSequence (fun part => call (f part)) parsers cursor := by
  induction parsers generalizing cursor with
  | nil => rfl
  | cons parser parsers ih => simp only [List.map_cons, inSequence, ih]

theorem repeatMatch_map (parser : Parser α) (atMost : Option Nat) (fuel : Nat) (payloads : List α)
    (count : Nat) :
    repeatMatch call (f parser) atMost fuel payloads count cursor =
      repeatMatch (fun part => call (f part)) parser atMost fuel payloads count cursor := by
  induction fuel generalizing payloads count cursor with
  | zero => rfl
  | succ fuel ih => simp only [repeatMatch, ih]

/-- A node that stores nothing does without its caches what it does on parts without theirs. -/
theorem step_uncached {rules : Rules α} {fuel : Nat} {parser : Parser α} (hmemo : ¬ parser.isMemo)
    (hclimb : ∀ id alternatives, parser ≠ .climb id alternatives) :
    step rules.uncached fuel call parser.uncached cursor =
      step rules fuel (fun part => call part.uncached) parser cursor := by
  cases parser with
  | except parser excluded =>
      simp only [Parser.uncached, Parser.uncachedAll_eq_map, step, unlessMatch, firstMatch_map]
  | firstOf alternatives =>
      simp only [Parser.uncached, Parser.uncachedAll_eq_map, step, firstMatch_map]
  | longestOf alternatives =>
      simp only [Parser.uncached, Parser.uncachedAll_eq_map, step, longestMatch_map]
  | sequence parts combine =>
      simp only [Parser.uncached, Parser.uncachedAll_eq_map, step, inSequence_map]
  | foldLeft left middle right combine =>
      simp only [Parser.uncached, Parser.uncachedAll_eq_map, step, foldStep, inSequence_map]
      rfl
  | repeated parser atLeast atMost collect =>
      simp only [Parser.uncached, step, repetition, repeatMatch_map]
  | climb id alternatives => exact absurd rfl (hclimb id alternatives)
  | memo id cache part => exact absurd rfl hmemo
  | call rule =>
      simp only [Parser.uncached, step, Rules.find_uncached]
      cases rules.find rule <;> rfl
  | _ => rfl

end Engine

end Packrat
