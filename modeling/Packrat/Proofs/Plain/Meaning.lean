import Packrat.Proofs.Combinators
import Packrat.Proofs.Nodes
import Packrat.Proofs.Place

/-!
# Plain parsers

A plain parser calls no rule and uses no cache.  What it does depends on nothing but the characters
in front of the cursor and what stands to its left: `Parser.means` says what it finds, and
`run_plain` that every run finds that and leaves the engine as it was.
-/

namespace Packrat

variable {α : Type}

/-- The left context without the tag that tells one operand from another. -/
def Left.content : Left α → LeftContent α
  | .empty => .empty
  | .operand _ value => .operand value
  | .rightOperand => .rightOperand

/-- What a parser finds in front of a cursor. -/
structure Found (α : Type) where
  payload : α
  rest : List Char
  /-- Whether the cursor behind the match still has the left context of the cursor before it. -/
  kept : Bool

namespace Found

/-- The value and the characters behind it. -/
def pair (found : Found α) : α × List Char := (found.payload, found.rest)

/-- The more of two findings; the earlier one of two that reach equally far. -/
def longer (best : Option (Found α)) (found : Found α) : Found α :=
  match best with
  | some earlier =>
      if Text.byteLength earlier.rest ≤ Text.byteLength found.rest then earlier else found
  | none => found

/--
What a fold finds that ends with `folded` in front of `rest`, given what its left operand's parser
finds there.
-/
def folded (folded : α) (rest : List Char) : Option (Found α) → Found α
  | some extended => if extended.kept then ⟨folded, rest, false⟩ else extended
  | none => ⟨folded, rest, false⟩

end Found

/-- The left context behind a match. -/
def LeftContent.behind (left : LeftContent α) (kept : Bool) : LeftContent α :=
  if kept then left else .empty

def LeftContent.isOperand : LeftContent α → Bool
  | operand _ => true
  | _ => false

namespace Parser

/-! ## Which parsers are plain -/

mutual

/-- The numbers of the guards in the tree. -/
def guards : Parser α → List Nat
  | .satisfy _ _ | .literal _ _ | .endOfInput _ | .call _ => []
  | .except parser excluded => parser.guards ++ guardsAll excluded
  | .firstOf alternatives | .longestOf alternatives | .climb _ alternatives =>
      guardsAll alternatives
  | .sequence parts _ => guardsAll parts
  | .foldLeft left middle right _ => left.guards ++ guardsAll middle ++ right.guards
  | .guarded id parser => id :: parser.guards
  | .repeated parser _ _ _ | .optional parser _ | .convert parser _ | .nested parser
  | .memo _ _ parser | .clearing _ _ parser | .logged _ parser | .redirected _ parser =>
      parser.guards

/-- The numbers of the guards in all the trees of a list. -/
def guardsAll : List (Parser α) → List Nat
  | [] => []
  | parser :: parsers => parser.guards ++ guardsAll parsers

end

mutual

/-- The numbers of the precedence nodes in the tree. -/
def climbs : Parser α → List Nat
  | .satisfy _ _ | .literal _ _ | .endOfInput _ | .call _ => []
  | .except parser excluded => parser.climbs ++ climbsAll excluded
  | .firstOf alternatives | .longestOf alternatives => climbsAll alternatives
  | .climb id alternatives => id :: climbsAll alternatives
  | .sequence parts _ => climbsAll parts
  | .foldLeft left middle right _ => left.climbs ++ climbsAll middle ++ right.climbs
  | .guarded _ parser | .repeated parser _ _ _ | .optional parser _ | .convert parser _
  | .nested parser | .memo _ _ parser | .clearing _ _ parser | .logged _ parser
  | .redirected _ parser => parser.climbs

/-- The numbers of the precedence nodes in all the trees of a list. -/
def climbsAll : List (Parser α) → List Nat
  | [] => []
  | parser :: parsers => parser.climbs ++ climbsAll parsers

end

mutual

/--
Whether a parser calls no rule, stores no results and moves no cursor by hand.  No instance can be
part of itself, so the number of a guard or precedence node does not come up again below it.
-/
def plain : Parser α → Bool
  | .satisfy _ _ | .literal _ _ | .endOfInput _ => true
  | .except parser excluded => parser.plain && plainAll excluded
  | .firstOf alternatives | .longestOf alternatives => plainAll alternatives
  | .sequence parts _ => plainAll parts
  | .foldLeft left middle right _ => left.plain && plainAll middle && right.plain
  | .repeated parser _ _ _ | .optional parser _ | .convert parser _ | .nested parser
  | .logged _ parser => parser.plain
  | .guarded id parser => parser.plain && !parser.guards.contains id
  | .climb id alternatives => plainAll alternatives && !(climbsAll alternatives).contains id
  | .memo _ _ _ | .clearing _ _ _ | .call _ | .redirected _ _ => false

/-- Whether all parsers of a list are plain. -/
def plainAll : List (Parser α) → Bool
  | [] => true
  | parser :: parsers => parser.plain && plainAll parsers

end

theorem plain_of_mem {parser : Parser α} {parsers : List (Parser α)}
    (h : plainAll parsers = true) (hmem : parser ∈ parsers) : parser.plain = true := by
  induction parsers with
  | nil => cases hmem
  | cons first parsers ih =>
      simp only [plainAll, Bool.and_eq_true] at h
      cases hmem with
      | head => exact h.1
      | tail _ hmem => exact ih h.2 hmem

theorem plain_guarded {id : Nat} {parser : Parser α} :
    (guarded id parser).plain = true ↔ parser.plain = true ∧ id ∉ parser.guards := by
  simp only [plain, Bool.and_eq_true, Bool.not_eq_true', List.contains_eq_mem,
    decide_eq_false_iff_not]

theorem plain_climb {id : Nat} {alternatives : List (Parser α)} :
    (climb id alternatives).plain = true ↔
      plainAll alternatives = true ∧ id ∉ climbsAll alternatives := by
  simp only [plain, Bool.and_eq_true, Bool.not_eq_true', List.contains_eq_mem,
    decide_eq_false_iff_not]

/-- A plain parser is put together from plain parsers. -/
theorem plain_of_mem_children {parser child : Parser α} (hplain : parser.plain = true)
    (h : child ∈ parser.children) : child.plain = true := by
  cases parser with
  | except parser excluded =>
      simp only [plain, Bool.and_eq_true] at hplain
      rcases List.mem_cons.mp h with rfl | h
      · exact hplain.1
      · exact plain_of_mem hplain.2 h
  | firstOf alternatives | longestOf alternatives | sequence alternatives _ =>
      exact plain_of_mem hplain h
  | foldLeft left middle right _ =>
      simp only [plain, Bool.and_eq_true] at hplain
      rcases List.mem_cons.mp h with rfl | h
      · exact hplain.1.1
      · rcases List.mem_append.mp h with h | h
        · exact plain_of_mem hplain.1.2 h
        · rw [List.mem_singleton.mp h]
          exact hplain.2
  | repeated parser _ _ _ | optional parser _ | convert parser _ | nested parser
  | logged _ parser =>
      rw [List.mem_singleton.mp h]
      exact hplain
  | guarded _ parser =>
      simp only [plain, Bool.and_eq_true] at hplain
      rw [List.mem_singleton.mp h]
      exact hplain.1
  | climb _ alternatives =>
      simp only [plain, Bool.and_eq_true] at hplain
      exact plain_of_mem hplain.1 h
  | satisfy _ _ | literal _ _ | endOfInput _ | memo _ _ _ | clearing _ _ _ | call _
  | redirected _ _ => simp_all [plain, children]

theorem plain_of_mem_nodes {parser node : Parser α} (hplain : parser.plain = true)
    (h : node ∈ parser.nodes) : node.plain = true := by
  induction hsize : parser.size using Nat.strongRecOn generalizing parser with
  | ind size ih =>
      subst hsize
      rw [nodes_eq_cons] at h
      rcases List.mem_cons.mp h with rfl | h
      · exact hplain
      · obtain ⟨child, hchild, hnode⟩ := List.mem_flatMap.mp h
        exact ih _ (size_lt_of_mem_children hchild) (plain_of_mem_children hplain hchild) hnode rfl

theorem mem_guardsAll {parser : Parser α} {parsers : List (Parser α)} (hmem : parser ∈ parsers)
    {id : Nat} (hid : id ∈ parser.guards) : id ∈ guardsAll parsers := by
  induction hmem with
  | head => exact List.mem_append_left _ hid
  | tail _ _ ih => exact List.mem_append_right _ ih

theorem mem_climbsAll {parser : Parser α} {parsers : List (Parser α)} (hmem : parser ∈ parsers)
    {id : Nat} (hid : id ∈ parser.climbs) : id ∈ climbsAll parsers := by
  induction hmem with
  | head => exact List.mem_append_left _ hid
  | tail _ _ ih => exact List.mem_append_right _ ih

theorem size_le_of_mem {parser : Parser α} {parsers : List (Parser α)} (hmem : parser ∈ parsers) :
    parser.size ≤ sizeAll parsers := by
  induction parsers with
  | nil => cases hmem
  | cons first parsers ih =>
      rw [sizeAll]
      cases hmem with
      | head => exact Nat.le_add_right _ _
      | tail _ hmem => exact Nat.le_trans (ih hmem) (Nat.le_add_left _ _)

theorem size_pos (parser : Parser α) : 0 < parser.size := by
  cases parser <;> exact Nat.succ_pos _

theorem length_le_sizeAll (parsers : List (Parser α)) : parsers.length ≤ sizeAll parsers := by
  induction parsers with
  | nil => exact Nat.le_refl 0
  | cons parser parsers ih =>
      have hpos := parser.size_pos
      rw [List.length_cons, sizeAll]
      omega

theorem sizeAll_drop_le (parsers : List (Parser α)) (i : Nat) :
    sizeAll (parsers.drop i) ≤ sizeAll parsers := by
  induction parsers generalizing i with
  | nil => simp
  | cons parser parsers ih =>
      cases i with
      | zero => exact Nat.le_refl _
      | succ i => exact Nat.le_trans (ih i) (Nat.le_add_left _ _)

/-! ## What they find -/

/--
What a parser finds over and over: the payloads, newest first, with their number, the characters
behind them, and whether the left context is still there.
-/
def repeatMeans (item : LeftContent α → List Char → Option (Found α)) (atMost : Option Nat)
    (left : LeftContent α) (payloads : List α) (count : Nat) (rest : List Char) (kept : Bool) :
    List α × Nat × List Char × Bool :=
  if Engine.allows atMost count then
    match item (left.behind kept) rest with
    | none => (payloads, count, rest, kept)
    | some found =>
        if Text.byteLength found.rest < Text.byteLength rest then
          repeatMeans item atMost left (found.payload :: payloads) (count + 1) found.rest
            (kept && found.kept)
        else (found.payload :: payloads, count + 1, found.rest, kept && found.kept)
  else (payloads, count, rest, kept)
termination_by Text.byteLength rest

/-- The left operand of a fold and the characters behind it. -/
def operand (first : LeftContent α → List Char → Option (Found α)) (left : LeftContent α)
    (rest : List Char) : Option (α × List Char) :=
  match left with
  | .rightOperand => none
  | .empty => (first .empty rest).map Found.pair
  | .operand value => value.map fun value => (value, rest)

mutual

/-- What a plain parser finds in front of the given characters, with the given left context. -/
def means : Parser α → LeftContent α → List Char → Option (Found α)
  | .satisfy accepts payload, _, rest =>
      match rest with
      | [] => none
      | c :: rest => if accepts c then some ⟨payload c, rest, true⟩ else none
  | .literal chars payload, _, rest =>
      if chars.isPrefixOf rest then some ⟨payload, rest.drop chars.length, true⟩ else none
  | .endOfInput payload, _, rest => if rest.isEmpty then some ⟨payload, rest, true⟩ else none
  | .except parser excluded, left, rest =>
      match meansFirst excluded left rest with
      | some _ => none
      | none => parser.means left rest
  | .firstOf alternatives, left, rest => meansFirst alternatives left rest
  | .longestOf alternatives, left, rest => meansLongest none alternatives left rest
  | .sequence parts combine, left, rest =>
      (meansAll parts left rest).map fun (payloads, rest, kept) => ⟨combine payloads, rest, kept⟩
  | .foldLeft first middle last combine, left, rest =>
      (operand first.means left rest).bind fun (x, rest) =>
        (meansAll middle .empty rest).bind fun (payloads, rest, _) =>
          (last.means .rightOperand rest).map fun found =>
            let folded := combine (x :: payloads ++ [found.payload])
            Found.folded folded found.rest (first.means (.operand (some folded)) found.rest)
  | .repeated parser atLeast atMost collect, left, rest =>
      let (payloads, count, rest, kept) := repeatMeans parser.means atMost left [] 0 rest true
      if count < atLeast then none else some ⟨collect payloads.reverse, rest, kept⟩
  | .optional parser wrap, left, rest =>
      match parser.means left rest with
      | some found => some { found with payload := wrap (some found.payload) }
      | none => some ⟨wrap none, rest, true⟩
  | .convert parser f, left, rest =>
      (parser.means left rest).bind fun found =>
        (f found.payload).map fun payload => { found with payload }
  | .guarded _ parser, left, rest | .nested parser, left, rest | .logged _ parser, left, rest =>
      parser.means left rest
  | .climb _ alternatives, left, rest =>
      if left.isOperand then none
      else (meansFirst alternatives .empty rest).map fun found => { found with kept := false }
  | .memo _ _ _, _, _ | .clearing _ _ _, _, _ | .call _, _, _ | .redirected _ _, _, _ => none

/-- What the first alternative that finds anything finds. -/
def meansFirst : List (Parser α) → LeftContent α → List Char → Option (Found α)
  | [], _, _ => none
  | parser :: parsers, left, rest =>
      match parser.means left rest with
      | some found => some found
      | none => meansFirst parsers left rest

/-- The most that `best` or an alternative finds. -/
def meansLongest (best : Option (Found α)) :
    List (Parser α) → LeftContent α → List Char → Option (Found α)
  | [], _, _ => best
  | parser :: parsers, left, rest =>
      match parser.means left rest with
      | some found => meansLongest (some (Found.longer best found)) parsers left rest
      | none => meansLongest best parsers left rest

/-- What parsers find one after another. -/
def meansAll :
    List (Parser α) → LeftContent α → List Char → Option (List α × List Char × Bool)
  | [], _, rest => some ([], rest, true)
  | parser :: parsers, left, rest =>
      (parser.means left rest).bind fun found =>
        (meansAll parsers (left.behind found.kept) found.rest).map fun (payloads, rest, kept) =>
          (found.payload :: payloads, rest, found.kept && kept)

end

end Parser

namespace Parser

section RepeatMeans

variable {item : LeftContent α → List Char → Option (Found α)} {atMost : Option Nat}
  {left : LeftContent α} {payloads : List α} {count : Nat} {rest : List Char} {kept : Bool}

theorem repeatMeans_of_full (hfull : Engine.allows atMost count = false) :
    repeatMeans item atMost left payloads count rest kept = (payloads, count, rest, kept) := by
  rw [repeatMeans, hfull]
  rfl

theorem repeatMeans_of_none (hroom : Engine.allows atMost count = true)
    (hitem : item (left.behind kept) rest = none) :
    repeatMeans item atMost left payloads count rest kept = (payloads, count, rest, kept) := by
  rw [repeatMeans, hroom, if_pos rfl, hitem]

theorem repeatMeans_of_some {found : Found α} (hroom : Engine.allows atMost count = true)
    (hitem : item (left.behind kept) rest = some found) :
    repeatMeans item atMost left payloads count rest kept =
      if Text.byteLength found.rest < Text.byteLength rest then
        repeatMeans item atMost left (found.payload :: payloads) (count + 1) found.rest
          (kept && found.kept)
      else (found.payload :: payloads, count + 1, found.rest, kept && found.kept) := by
  rw [repeatMeans, hroom, if_pos rfl, hitem]

end RepeatMeans

/-! ## What is found lies ahead -/

theorem repeatMeans_le {item : LeftContent α → List Char → Option (Found α)}
    (hitem : ∀ left rest found, item left rest = some found →
      Text.byteLength found.rest ≤ Text.byteLength rest)
    (atMost : Option Nat) (left : LeftContent α) (payloads : List α) (count : Nat)
    (rest : List Char) (kept : Bool) :
    Text.byteLength (repeatMeans item atMost left payloads count rest kept).2.2.1 ≤
      Text.byteLength rest := by
  fun_induction repeatMeans item atMost left payloads count rest kept with
  | case1 => exact Nat.le_refl _
  | case2 payloads count rest kept hroom found hfound hmoved ih => omega
  | case3 payloads count rest kept hroom found hfound hmoved => exact hitem _ _ _ hfound
  | case4 => exact Nat.le_refl _

theorem operand_le {first : LeftContent α → List Char → Option (Found α)}
    (hfirst : ∀ left rest found, first left rest = some found →
      Text.byteLength found.rest ≤ Text.byteLength rest)
    {left : LeftContent α} {rest : List Char} {found : α × List Char}
    (h : operand first left rest = some found) :
    Text.byteLength found.2 ≤ Text.byteLength rest := by
  cases left with
  | rightOperand => cases h
  | empty =>
      obtain ⟨inner, hinner, rfl⟩ := Option.map_eq_some_iff.mp h
      exact hfirst _ _ _ hinner
  | operand value =>
      obtain ⟨inner, hinner, rfl⟩ := Option.map_eq_some_iff.mp h
      exact Nat.le_refl _

theorem folded_le {folded : α} {rest longer : List Char} {extended : Option (Found α)}
    (hrest : Text.byteLength rest ≤ Text.byteLength longer)
    (hextended : ∀ found, extended = some found →
      Text.byteLength found.rest ≤ Text.byteLength rest) :
    Text.byteLength (Found.folded folded rest extended).rest ≤ Text.byteLength longer := by
  unfold Found.folded
  split
  · split
    · exact hrest
    · exact Nat.le_trans (hextended _ rfl) hrest
  · exact hrest

mutual

theorem means_le : ∀ (parser : Parser α) (left : LeftContent α) (rest : List Char)
    (found : Found α), parser.means left rest = some found →
      Text.byteLength found.rest ≤ Text.byteLength rest
  | .satisfy accepts payload, left, rest, found, h => by
      cases rest with
      | nil => simp [means] at h
      | cons c rest =>
          simp only [means, Option.ite_none_right_eq_some, Option.some.injEq] at h
          rw [← h.2, Text.byteLength_cons]
          exact Nat.le_add_left _ _
  | .literal chars payload, left, rest, found, h => by
      simp only [means, Option.ite_none_right_eq_some, Option.some.injEq] at h
      obtain ⟨tail, rfl⟩ := List.isPrefixOf_iff_prefix.mp h.1
      rw [← h.2]
      simp
  | .endOfInput payload, left, rest, found, h => by
      simp only [means, Option.ite_none_right_eq_some, Option.some.injEq] at h
      obtain ⟨-, rfl⟩ := h
      exact Nat.le_refl _
  | .except parser excluded, left, rest, found, h => by
      simp only [means] at h
      split at h
      · cases h
      · exact means_le parser left rest found h
  | .firstOf alternatives, left, rest, found, h => meansFirst_le alternatives left rest found h
  | .longestOf alternatives, left, rest, found, h =>
      meansLongest_le alternatives none left rest found (by simp) h
  | .sequence parts combine, left, rest, found, h => by
      simp only [means, Option.map_eq_some_iff] at h
      obtain ⟨result, hresult, rfl⟩ := h
      exact meansAll_le parts left rest result hresult
  | .foldLeft first middle last combine, left, rest, found, h => by
      simp only [means, Option.bind_eq_some_iff, Option.map_eq_some_iff] at h
      obtain ⟨⟨x, rest₁⟩, hfirst, ⟨payloads, rest₂, kept⟩, hmiddle, inner, hlast, rfl⟩ := h
      have hle₁ := operand_le (means_le first) hfirst
      have hle₂ := meansAll_le middle _ _ _ hmiddle
      exact folded_le
        (Nat.le_trans (means_le last _ _ _ hlast) (Nat.le_trans hle₂ hle₁))
        (means_le first _ _)
  | .repeated parser atLeast atMost collect, left, rest, found, h => by
      have hle := repeatMeans_le (means_le parser) atMost left [] 0 rest true
      simp only [means, Option.ite_none_left_eq_some, Option.some.injEq] at h
      rw [← h.2]
      exact hle
  | .optional parser wrap, left, rest, found, h => by
      simp only [means] at h
      split at h
      · rename_i inner hinner
        cases h
        exact means_le parser left rest inner hinner
      · cases h
        exact Nat.le_refl _
  | .convert parser f, left, rest, found, h => by
      simp only [means, Option.bind_eq_some_iff, Option.map_eq_some_iff] at h
      obtain ⟨inner, hinner, payload, _, rfl⟩ := h
      exact means_le parser left rest inner hinner
  | .guarded _ parser, left, rest, found, h | .nested parser, left, rest, found, h
  | .logged _ parser, left, rest, found, h => means_le parser left rest found h
  | .climb _ alternatives, left, rest, found, h => by
      simp only [means, Option.ite_none_left_eq_some] at h
      obtain ⟨inner, hinner, rfl⟩ := Option.map_eq_some_iff.mp h.2
      exact meansFirst_le alternatives _ rest inner hinner
  | .memo _ _ _, _, _, _, h | .clearing _ _ _, _, _, _, h | .call _, _, _, _, h
  | .redirected _ _, _, _, _, h => by simp [means] at h

theorem meansFirst_le : ∀ (parsers : List (Parser α)) (left : LeftContent α) (rest : List Char)
    (found : Found α), meansFirst parsers left rest = some found →
      Text.byteLength found.rest ≤ Text.byteLength rest
  | [], _, _, _, h => by simp [meansFirst] at h
  | parser :: parsers, left, rest, found, h => by
      simp only [meansFirst] at h
      split at h
      · rename_i inner hinner
        rw [← Option.some.inj h]
        exact means_le parser left rest inner hinner
      · exact meansFirst_le parsers left rest found h

theorem meansLongest_le : ∀ (parsers : List (Parser α)) (best : Option (Found α))
    (left : LeftContent α) (rest : List Char) (found : Found α),
    (∀ earlier, best = some earlier → Text.byteLength earlier.rest ≤ Text.byteLength rest) →
      meansLongest best parsers left rest = some found →
        Text.byteLength found.rest ≤ Text.byteLength rest
  | [], best, _, _, found, hbest, h => hbest found h
  | parser :: parsers, best, left, rest, found, hbest, h => by
      simp only [meansLongest] at h
      split at h
      · rename_i inner hinner
        refine meansLongest_le parsers _ left rest found ?_ h
        rintro earlier ⟨rfl⟩
        have hle := means_le parser left rest inner hinner
        unfold Found.longer
        split
        · split
          · exact hbest _ rfl
          · exact hle
        · exact hle
      · exact meansLongest_le parsers best left rest found hbest h

theorem meansAll_le : ∀ (parsers : List (Parser α)) (left : LeftContent α) (rest : List Char)
    (result : List α × List Char × Bool), meansAll parsers left rest = some result →
      Text.byteLength result.2.1 ≤ Text.byteLength rest
  | [], _, _, _, h => by
      cases h
      exact Nat.le_refl _
  | parser :: parsers, left, rest, result, h => by
      simp only [meansAll, Option.bind_eq_some_iff, Option.map_eq_some_iff] at h
      obtain ⟨first, hfirst, others, hothers, rfl⟩ := h
      exact Nat.le_trans (meansAll_le parsers _ _ others hothers)
        (means_le parser left rest first hfirst)

end

end Parser

end Packrat
