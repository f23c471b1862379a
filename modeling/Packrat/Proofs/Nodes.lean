import Packrat.Grammar

/-!
# Nodes of a grammar

A grammar has finitely many nodes: those of its entry parser and those of the bodies of its rules.
A run calls nodes only, since the parts of a node are nodes and the body of a rule is one.
-/

namespace Packrat

variable {α : Type}

namespace Parser

/-- The parsers that a node is put together from. -/
def children : Parser α → List (Parser α)
  | .satisfy _ _ | .literal _ _ | .endOfInput _ | .call _ => []
  | .except parser excluded => parser :: excluded
  | .firstOf alternatives | .longestOf alternatives | .climb _ alternatives => alternatives
  | .sequence parts _ => parts
  | .foldLeft left middle right _ => left :: (middle ++ [right])
  | .repeated parser _ _ _ | .optional parser _ | .convert parser _ | .guarded _ parser
  | .nested parser | .memo _ _ parser | .clearing _ _ parser | .logged _ parser
  | .redirected _ parser => [parser]

/-- What holds of the children of a fold holds of its operands and of all that is between them. -/
theorem forall_mem_children_foldLeft {p : Parser α → Prop} {left right : Parser α}
    {middle : List (Parser α)} {combine : List α → α} :
    (∀ part ∈ (foldLeft left middle right combine).children, p part) ↔
      p left ∧ (∀ part ∈ middle, p part) ∧ p right := by
  rw [children, List.forall_mem_cons, List.forall_mem_append, List.forall_mem_singleton]

mutual

/-- All nodes of the tree. -/
def nodes : Parser α → List (Parser α)
  | .satisfy accepts payload => [.satisfy accepts payload]
  | .literal chars payload => [.literal chars payload]
  | .endOfInput payload => [.endOfInput payload]
  | .call rule => [.call rule]
  | .except parser excluded => .except parser excluded :: (parser.nodes ++ nodesAll excluded)
  | .firstOf alternatives => .firstOf alternatives :: nodesAll alternatives
  | .longestOf alternatives => .longestOf alternatives :: nodesAll alternatives
  | .climb id alternatives => .climb id alternatives :: nodesAll alternatives
  | .sequence parts combine => .sequence parts combine :: nodesAll parts
  | .foldLeft left middle right combine =>
      .foldLeft left middle right combine :: (left.nodes ++ (nodesAll middle ++ right.nodes))
  | .repeated parser atLeast atMost collect =>
      .repeated parser atLeast atMost collect :: parser.nodes
  | .optional parser wrap => .optional parser wrap :: parser.nodes
  | .convert parser f => .convert parser f :: parser.nodes
  | .guarded id parser => .guarded id parser :: parser.nodes
  | .nested parser => .nested parser :: parser.nodes
  | .memo id cache parser => .memo id cache parser :: parser.nodes
  | .clearing id cache parser => .clearing id cache parser :: parser.nodes
  | .logged name parser => .logged name parser :: parser.nodes
  | .redirected move parser => .redirected move parser :: parser.nodes

/-- All nodes of all the trees of a list. -/
def nodesAll : List (Parser α) → List (Parser α)
  | [] => []
  | parser :: parsers => parser.nodes ++ nodesAll parsers

end

theorem nodesAll_eq_flatMap (parsers : List (Parser α)) :
    nodesAll parsers = parsers.flatMap nodes := by
  induction parsers with
  | nil => rfl
  | cons parser parsers ih => rw [nodesAll, ih, List.flatMap_cons]

/-- The nodes of a tree are its root and the nodes of the children. -/
theorem nodes_eq_cons (parser : Parser α) :
    parser.nodes = parser :: parser.children.flatMap nodes := by
  cases parser <;> simp [nodes, children, nodesAll_eq_flatMap]

theorem mem_nodes_self (parser : Parser α) : parser ∈ parser.nodes := by
  rw [nodes_eq_cons]
  exact List.mem_cons_self

mutual

theorem length_nodes : ∀ parser : Parser α, parser.nodes.length = parser.size
  | .satisfy _ _ | .literal _ _ | .endOfInput _ | .call _ => rfl
  | .except parser excluded => by
      simp only [nodes, size, List.length_cons, List.length_append, length_nodes parser,
        length_nodesAll excluded]
  | .firstOf alternatives | .longestOf alternatives | .climb _ alternatives => by
      simp only [nodes, size, List.length_cons, length_nodesAll alternatives]
  | .sequence parts _ => by simp only [nodes, size, List.length_cons, length_nodesAll parts]
  | .foldLeft left middle right _ => by
      simp only [nodes, size, List.length_cons, List.length_append, length_nodes left,
        length_nodesAll middle, length_nodes right, Nat.add_assoc]
  | .repeated parser _ _ _ | .optional parser _ | .convert parser _ | .guarded _ parser
  | .nested parser | .memo _ _ parser | .clearing _ _ parser | .logged _ parser
  | .redirected _ parser => by
      simp only [nodes, size, List.length_cons, length_nodes parser]

theorem length_nodesAll : ∀ parsers : List (Parser α), (nodesAll parsers).length = sizeAll parsers
  | [] => rfl
  | parser :: parsers => by
      simp only [nodesAll, sizeAll, List.length_append, length_nodes parser,
        length_nodesAll parsers]

end

theorem size_lt_of_mem_children {parser child : Parser α} (h : child ∈ parser.children) :
    child.size < parser.size := by
  have hsub := (List.sublist_flatten_of_mem (List.mem_map_of_mem (f := nodes) h)).length_le
  rw [← parser.length_nodes, nodes_eq_cons, List.length_cons, List.flatMap_def,
    ← child.length_nodes]
  exact Nat.lt_succ_of_le hsub

/-- Whether the node stores its results. -/
def isMemo : Parser α → Bool
  | .memo _ _ _ => true
  | _ => false

theorem exists_of_isMemo {parser : Parser α} (h : parser.isMemo) :
    ∃ id cache part, parser = .memo id cache part := by
  cases parser with
  | memo id cache part => exact ⟨id, cache, part, rfl⟩
  | _ => cases h

/-- A child of a node of a tree is a node of the tree. -/
theorem child_mem_nodes {parser node child : Parser α} (h : node ∈ parser.nodes)
    (hchild : child ∈ node.children) : child ∈ parser.nodes := by
  induction hsize : parser.size using Nat.strongRecOn generalizing parser with
  | ind size ih =>
      subst hsize
      rw [nodes_eq_cons] at h ⊢
      refine List.mem_cons_of_mem _ (List.mem_flatMap.mpr ?_)
      rcases List.mem_cons.mp h with rfl | h
      · exact ⟨child, hchild, mem_nodes_self child⟩
      · obtain ⟨part, hpart, hnode⟩ := List.mem_flatMap.mp h
        exact ⟨part, hpart, ih part.size (size_lt_of_mem_children hpart) hnode rfl⟩

end Parser

/-- The nodes of the body, if there is one. -/
def Definition.nodes : Definition α → List (Parser α)
  | .body parser => parser.nodes
  | _ => []

theorem Definition.length_nodes (definition : Definition α) :
    definition.nodes.length = definition.size := by
  cases definition with
  | body parser => exact parser.length_nodes
  | missing => rfl
  | pending => rfl

/-- All nodes of the bodies of the rules. -/
def Rules.nodes (rules : Rules α) : List (Parser α) := rules.entries.toList.flatMap Definition.nodes

/-- The part is one of those of the node, or the body of the rule that the node calls. -/
inductive Rules.Calls (rules : Rules α) : Parser α → Parser α → Prop
  | child {parser part : Parser α} (h : part ∈ parser.children) : Calls rules parser part
  | body {rule : Nat} {part : Parser α} (h : rules.find rule = .body part) :
      Calls rules (.call rule) part

theorem Rules.length_nodes (rules : Rules α) : rules.nodes.length = rules.size := by
  rw [nodes, size]
  induction rules.entries.toList with
  | nil => rfl
  | cons definition definitions ih =>
      rw [List.flatMap_cons, List.length_append, ih, definition.length_nodes, List.foldr_cons]

theorem Rules.mem_of_find {rules : Rules α} {rule : Nat} {definition : Definition α}
    (h : rules.find rule = definition) (hne : definition ≠ .missing) :
    definition ∈ rules.entries.toList := by
  rw [find, Array.getD_eq_getD_getElem?] at h
  cases hget : rules.entries[rule]? with
  | none =>
      rw [hget] at h
      exact absurd h.symm hne
  | some found =>
      rw [hget] at h
      obtain rfl : found = definition := h
      exact Array.mem_toList_iff.mpr (Array.mem_of_getElem? hget)

namespace Grammar

/-- All nodes of the grammar. -/
def nodes (grammar : Grammar α) : List (Parser α) := grammar.entry.nodes ++ grammar.rules.nodes

variable {grammar : Grammar α} {node child : Parser α}

theorem length_nodes : grammar.nodes.length = grammar.entry.size + grammar.rules.size := by
  rw [nodes, List.length_append, Parser.length_nodes, Rules.length_nodes]

theorem entry_mem_nodes : grammar.entry ∈ grammar.nodes :=
  List.mem_append_left _ grammar.entry.mem_nodes_self

theorem child_mem_nodes (h : node ∈ grammar.nodes) (hchild : child ∈ node.children) :
    child ∈ grammar.nodes := by
  rcases List.mem_append.mp h with h | h
  · exact List.mem_append_left _ (Parser.child_mem_nodes h hchild)
  · obtain ⟨definition, hmem, hnode⟩ := List.mem_flatMap.mp h
    refine List.mem_append_right _ (List.mem_flatMap.mpr ⟨definition, hmem, ?_⟩)
    cases definition with
    | body parser => exact Parser.child_mem_nodes hnode hchild
    | missing => cases hnode
    | pending => cases hnode

theorem body_mem_nodes {rule : Nat} (h : grammar.rules.find rule = .body node) :
    node ∈ grammar.nodes :=
  List.mem_append_right _ (List.mem_flatMap.mpr
    ⟨.body node, Rules.mem_of_find h (by nofun), node.mem_nodes_self⟩)

theorem mem_nodes_of_calls (h : node ∈ grammar.nodes) (hcalls : grammar.rules.Calls node child) :
    child ∈ grammar.nodes := by
  cases hcalls with
  | child hchild => exact child_mem_nodes h hchild
  | body hfind => exact body_mem_nodes hfind

end Grammar

end Packrat
