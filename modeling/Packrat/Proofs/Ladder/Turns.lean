import Packrat.Proofs.Ladder.Layout

/-!
# Which operator goes first

While the left operand of an operator is parsed, the other operators of its level take their turn
at the same place.  `admitted` is what the level reads if only some of them are let in.  With a
cache, operators are let in from the first to the last, and the last one that fits goes first;
without one, each operator lets in all others, and whether it goes first depends on their number.
-/

namespace Packrat.Ladder

open Text (byteLength)

variable {α : Type} {next : Reader α} {operators later given : List (Infix α)}
  {operator : Infix α} {x y : α} {rest shorter : List Char}

/-- What a left-associative level reads if only the given ones of its operators are let in. -/
def admitted (choice : Choice) (operators given : List (Infix α)) (next : Reader α) : Reader α :=
  fun rest => (next rest).bind fun (x, rest) =>
    (choice.pick (Reader.fitting (given.map (·.binary)) next rest)).bind fun operator =>
      Reader.chain (operators.map (·.binary)) next operator x rest

/-! ## Chains -/

theorem after_of_joined {binaries : List (Reader.Binary α)} {binary : Reader.Binary α}
    (h : Reader.joined binaries next x rest = none) (hmem : binary ∈ binaries) :
    binary.after next x rest = none := by
  induction binaries with
  | nil => cases hmem
  | cons other binaries ih =>
      obtain ⟨hother, hbinaries⟩ := Option.or_eq_none_iff.mp h
      cases hmem with
      | head => exact hother
      | tail _ hmem => exact ih hbinaries hmem

/-- No operator of the level goes on where a chain of the level ends. -/
theorem chain_end {binaries : List (Reader.Binary α)} {first binary : Reader.Binary α}
    (hshrinks : Reader.Shrinks next)
    (h : Reader.chain binaries next first x rest = some (y, shorter)) (hmem : binary ∈ binaries) :
    Reader.chain binaries next binary y shorter = none := by
  obtain ⟨⟨z, rest'⟩, -, hfold⟩ := Option.map_eq_some_iff.mp h
  rw [Reader.chain, after_of_joined (Reader.foldFrom_joined_end hshrinks hfold) hmem]
  rfl

/-- A chain begins with an operator exactly where the operator fits. -/
theorem isSome_chain {binaries : List (Reader.Binary α)} {binary : Reader.Binary α} :
    (Reader.chain binaries next binary x rest).isSome =
      ((Reader.behind binary.symbol rest).bind next).isSome := by
  rw [Reader.chain, Option.isSome_map, Reader.isSome_after]

/-- An operator in front counts if a chain can begin with it. -/
theorem fitting_cons (all : List (Infix α)) (x : α) :
    Reader.fitting ((operator :: later).map (·.binary)) next rest =
      if (Reader.chain (all.map (·.binary)) next operator.binary x rest).isSome then
        operator.binary :: Reader.fitting (later.map (·.binary)) next rest
      else Reader.fitting (later.map (·.binary)) next rest := by
  rw [isSome_chain]
  simp only [Reader.fitting, List.map_cons, List.filter_cons]

theorem isSome_chain_of_mem {binary : Reader.Binary α} {binaries : List (Reader.Binary α)}
    (h : binary ∈ Reader.fitting (given.map (·.binary)) next rest) :
    (Reader.chain binaries next binary x rest).isSome = true := by
  rw [isSome_chain]
  exact (List.mem_filter.mp h).2

/--
What an operator reads whose left operand is what the given operators read, or else the next
tighter level: nothing is left for it if one of them went first.
-/
theorem admitted_bind_chain {choice : Choice} (hshrinks : Reader.Shrinks next)
    (hmem : operator ∈ operators) :
    (((admitted choice operators given next rest).or (next rest)).bind fun (x, rest) =>
        Reader.chain (operators.map (·.binary)) next operator.binary x rest) =
      (next rest).bind fun (x, rest) =>
        if (choice.pick (Reader.fitting (given.map (·.binary)) next rest)).isSome then none
        else Reader.chain (operators.map (·.binary)) next operator.binary x rest := by
  rw [admitted]
  cases next rest with
  | none => rfl
  | some pair =>
      obtain ⟨x, rest⟩ := pair
      simp only [Option.bind_some]
      cases hpick : choice.pick (Reader.fitting (given.map (·.binary)) next rest) with
      | none => rfl
      | some first =>
          have hfits : (Reader.chain (operators.map (·.binary)) next first x rest).isSome = true :=
            isSome_chain_of_mem (choice.mem_of_pick hpick)
          obtain ⟨⟨y, shorter⟩, hchain⟩ := Option.isSome_iff_exists.mp hfits
          rw [Option.bind_some, hchain]
          exact chain_end hshrinks hchain (List.mem_map_of_mem hmem)

/-! ## With a cache -/

theorem lastValue_eq (hshrinks : Reader.Shrinks next) (hmem : operator ∈ operators) :
    (((admitted .last operators later next rest).or (next rest)).bind fun (x, rest) =>
        Reader.chain (operators.map (·.binary)) next operator.binary x rest) =
      lastValue operators next operator later rest := by
  rw [admitted_bind_chain hshrinks hmem, lastValue]
  refine Option.bind_congr fun (x, rest) _ => ?_
  dsimp only [Choice.pick]
  cases Reader.fitting (later.map (·.binary)) next rest with
  | nil => rfl
  | cons first others => simp

/-- Letting in one more operator in front adds what that operator reads. -/
theorem admitted_last_cons :
    admitted .last operators (operator :: later) next rest =
      (lastValue operators next operator later rest).or
        (admitted .last operators later next rest) := by
  simp only [admitted, lastValue]
  cases next rest with
  | none => rfl
  | some pair =>
      obtain ⟨x, rest⟩ := pair
      simp only [Option.bind_some, Choice.pick, fitting_cons operators x]
      generalize Reader.fitting (later.map (·.binary)) next rest = others
      cases hchain : Reader.chain (operators.map (·.binary)) next operator.binary x rest with
      | none => cases others <;> simp
      | some found => cases others <;> simp [hchain]

/-! ## Without a cache -/

/-- What an operator reads if all others among the given ones are let in at its left operand. -/
def turn (operators given : List (Infix α)) (next : Reader α) (operator : Infix α) : Reader α :=
  fun rest => ((admitted .firstOfOdd operators
      (given.filter fun other => other.guard ≠ operator.guard) next rest).or (next rest)).bind
    fun (x, rest) => Reader.chain (operators.map (·.binary)) next operator.binary x rest

theorem length_fitting (given : List (Infix α)) (next : Reader α) (rest : List Char) :
    (Reader.fitting (given.map (·.binary)) next rest).length =
      given.countP fun operator => ((Reader.behind operator.text rest).bind next).isSome := by
  rw [Reader.fitting, ← List.countP_eq_length_filter, List.countP_map]
  rfl

/-- Leaving out an operator that fits leaves one less that fit. -/
theorem length_fitting_without (hnodup : (given.map (·.guard)).Nodup) (hmem : operator ∈ given)
    (hfits : ((Reader.behind operator.text rest).bind next).isSome = true) :
    (Reader.fitting ((given.filter fun other => other.guard ≠ operator.guard).map (·.binary)) next
        rest).length + 1 = (Reader.fitting (given.map (·.binary)) next rest).length := by
  rw [length_fitting, length_fitting]
  obtain ⟨front, back, rfl⟩ := List.append_of_mem hmem
  simp only [List.map_append, List.map_cons, List.nodup_append, List.nodup_cons, List.mem_cons,
    List.mem_map] at hnodup
  have hfront : front.filter (fun other => other.guard ≠ operator.guard) = front := by
    refine List.filter_eq_self.mpr fun other hother => decide_eq_true ?_
    exact hnodup.2.2 _ ⟨other, hother, rfl⟩ _ (Or.inl rfl)
  have hback : back.filter (fun other => other.guard ≠ operator.guard) = back := by
    refine List.filter_eq_self.mpr fun other hother => decide_eq_true fun heq => ?_
    exact hnodup.2.1.1 ⟨other, hother, heq⟩
  rw [List.filter_append, List.filter_cons_of_neg (by simp), hfront, hback, List.countP_append,
    List.countP_append]
  simp only [List.countP_cons, hfits, if_true]
  omega

/-- An operator goes first exactly if it fits and an even number of others do. -/
theorem turn_eq (hshrinks : Reader.Shrinks next) (hnodup : (given.map (·.guard)).Nodup)
    (hgiven : operator ∈ given) (hmem : operator ∈ operators) (rest : List Char) :
    turn operators given next operator rest =
      (next rest).bind fun (x, rest) =>
        if (Reader.fitting (given.map (·.binary)) next rest).length % 2 = 1 then
          Reader.chain (operators.map (·.binary)) next operator.binary x rest
        else none := by
  rw [turn, admitted_bind_chain hshrinks hmem]
  refine Option.bind_congr fun (x, rest) _ => ?_
  dsimp only
  cases hfits : ((Reader.behind operator.text rest).bind next).isSome with
  | false =>
      have hnone : Reader.chain (operators.map (·.binary)) next operator.binary x rest = none := by
        rw [← Option.not_isSome_iff_eq_none, isSome_chain]
        exact Bool.eq_false_iff.mp hfits
      rw [hnone, ite_self, ite_self]
  | true =>
      have hlength := length_fitting_without hnodup hgiven hfits
      rw [← hlength]
      generalize Reader.fitting _ next rest = others
      by_cases hodd : others.length % 2 = 1
      · have hsome : (Choice.firstOfOdd.pick others).isSome = true := by
          cases others with
          | nil => cases hodd
          | cons first others => rw [Choice.pick, if_pos hodd]; rfl
        have heven : ¬ (others.length + 1) % 2 = 1 := by omega
        rw [if_pos hsome, if_neg heven]
      · have hnone : Choice.firstOfOdd.pick others = none := if_neg hodd
        have hodd' : (others.length + 1) % 2 = 1 := by omega
        rw [hnone, if_pos hodd']
        rfl

/-- The operators in turn: the first one goes first if the number of those that fit is odd. -/
theorem first_turns (hshrinks : Reader.Shrinks next) (hnodup : (given.map (·.guard)).Nodup)
    (hsub : ∀ operator ∈ given, operator ∈ operators) (rest : List Char) :
    Reader.first (given.map (turn operators given next)) rest =
      admitted .firstOfOdd operators given next rest := by
  have hturns : ∀ later : List (Infix α), (∀ operator ∈ later, operator ∈ given) →
      Reader.first (later.map (turn operators given next)) rest =
        (next rest).bind fun (x, rest) =>
          if (Reader.fitting (given.map (·.binary)) next rest).length % 2 = 1 then
            (Reader.fitting (later.map (·.binary)) next rest).head?.bind fun operator =>
              Reader.chain (operators.map (·.binary)) next operator x rest
          else none := by
    intro later hlater
    induction later with
    | nil => cases next rest <;> simp [Reader.first, Reader.fitting]
    | cons operator later ih =>
        obtain ⟨hhead, htail⟩ := List.forall_mem_cons.mp hlater
        rw [List.map_cons, Reader.first, ih htail,
          turn_eq hshrinks hnodup hhead (hsub operator hhead)]
        cases next rest with
        | none => rfl
        | some pair =>
            obtain ⟨x, rest⟩ := pair
            simp only [Option.bind_some]
            split
            · rw [fitting_cons operators x]
              cases hchain :
                  Reader.chain (operators.map (·.binary)) next operator.binary x rest with
              | none => simp
              | some found => simp [hchain]
            · rfl
  rw [hturns given fun _ h => h, admitted]
  refine Option.bind_congr fun found _ => ?_
  simp only [Choice.pick]
  split <;> rfl

end Packrat.Ladder
