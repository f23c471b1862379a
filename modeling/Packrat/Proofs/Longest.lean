import Packrat.Proofs.Combinators
import Packrat.Proofs.Functions

/-!
# The longest match of several alternatives

Where its alternatives are functions of the cursor, `Parser.longest` matches if one of them does.
It finds the match that reaches furthest, and of several that reach equally far the one of the
earliest alternative; where that match ends does not depend on the order of the alternatives, and
further alternatives can only lead further.
-/

namespace Packrat

variable {α : Type}

/-! ## Which match is the longest -/

/--
No alternative matches further than the output, which is the match of an alternative in front of
which none matches as far.
-/
structure FirstOfLongest (f : Parser α → Cursor α → Option (Output α))
    (alternatives : List (Parser α)) (cursor : Cursor α) (output : Output α) : Prop where
  longest : ∀ parser ∈ alternatives, ∀ other, f parser cursor = some other →
    other.next.offset ≤ output.next.offset
  first : ∃ before parser after, alternatives = before ++ parser :: after ∧
    f parser cursor = some output ∧
      ∀ part ∈ before, ∀ earlier, f part cursor = some earlier →
        earlier.next.offset < output.next.offset

/-- What is found of several alternatives: the first of their longest matches, if any matches. -/
def LongestOf (f : Parser α → Cursor α → Option (Output α)) (alternatives : List (Parser α))
    (cursor : Cursor α) : Option (Output α) → Prop
  | none => ∀ parser ∈ alternatives, f parser cursor = none
  | some output => FirstOfLongest f alternatives cursor output

namespace LongestOf

variable {f : Parser α → Cursor α → Option (Output α)} {alternatives others : List (Parser α)}
  {parser : Parser α} {cursor : Cursor α} {found found' : Option (Output α)} {output : Output α}

theorem nil : LongestOf f [] cursor none :=
  fun _ hmem => absurd hmem List.not_mem_nil

/-- An alternative that does not match changes nothing. -/
theorem snoc_of_none (h : LongestOf f alternatives cursor found) (hnone : f parser cursor = none) :
    LongestOf f (alternatives ++ [parser]) cursor found := by
  cases found with
  | none => exact List.forall_mem_append.mpr ⟨h, List.forall_mem_singleton.mpr hnone⟩
  | some output =>
      obtain ⟨before, part, after, rfl, hpart, hbefore⟩ := h.first
      refine ⟨List.forall_mem_append.mpr ⟨h.longest, List.forall_mem_singleton.mpr ?_⟩, before,
        part, after ++ [parser], by simp, hpart, hbefore⟩
      intro other hother
      rw [hnone] at hother
      cases hother

/-- An alternative that matches is compared with the longest match before it, which wins a tie. -/
theorem snoc_of_some (h : LongestOf f alternatives cursor found)
    (hsome : f parser cursor = some output) :
    LongestOf f (alternatives ++ [parser]) cursor (some (Engine.longer found output)) := by
  have hlast : ∀ other, f parser cursor = some other → other = output :=
    fun other hother => Option.some.inj (hother.symm.trans hsome)
  cases found with
  | none =>
      refine ⟨List.forall_mem_append.mpr ⟨?_, List.forall_mem_singleton.mpr ?_⟩, alternatives,
        parser, [], rfl, hsome, ?_⟩
      · intro part hpart other hother
        rw [h part hpart] at hother
        cases hother
      · intro other hother
        obtain rfl := hlast other hother
        exact Nat.le_refl _
      · intro part hpart earlier hearlier
        rw [h part hpart] at hearlier
        cases hearlier
  | some best =>
      by_cases hle : output.next.offset ≤ best.next.offset
      · rw [Engine.longer, if_pos hle]
        obtain ⟨before, part, after, rfl, hpart, hbefore⟩ := h.first
        refine ⟨List.forall_mem_append.mpr ⟨h.longest, List.forall_mem_singleton.mpr ?_⟩, before,
          part, after ++ [parser], by simp, hpart, hbefore⟩
        intro other hother
        rw [hlast other hother]
        exact hle
      · rw [Engine.longer, if_neg hle]
        have hlt := Nat.lt_of_not_le hle
        refine ⟨List.forall_mem_append.mpr ⟨?_, List.forall_mem_singleton.mpr ?_⟩, alternatives,
          parser, [], rfl, hsome, ?_⟩
        · exact fun part hpart other hother =>
            Nat.le_trans (h.longest part hpart other hother) hlt.le
        · intro other hother
          obtain rfl := hlast other hother
          exact Nat.le_refl _
        · exact fun part hpart earlier hearlier =>
            Nat.lt_of_le_of_lt (h.longest part hpart earlier hearlier) hlt

theorem isSome_iff (h : LongestOf f alternatives cursor found) :
    found.isSome = true ↔ ∃ parser ∈ alternatives, (f parser cursor).isSome = true := by
  cases found with
  | none =>
      constructor
      · exact fun hsome => by cases hsome
      · rintro ⟨parser, hmem, hsome⟩
        rw [h parser hmem] at hsome
        exact hsome
  | some output =>
      obtain ⟨before, parser, after, rfl, hparser, -⟩ := h.first
      exact ⟨fun _ => ⟨parser, by simp, by rw [hparser]; rfl⟩, fun _ => rfl⟩

/-- Where there are further alternatives, the longest match is no shorter. -/
theorem offset_le (h : LongestOf f alternatives cursor found)
    (h' : LongestOf f others cursor found') (hsubset : alternatives ⊆ others)
    (hfound : found = some output) :
    ∃ output', found' = some output' ∧ output.next.offset ≤ output'.next.offset := by
  subst hfound
  obtain ⟨before, parser, after, rfl, hparser, -⟩ := h.first
  have hmem : parser ∈ others := hsubset (by simp)
  cases found' with
  | none =>
      rw [h' parser hmem] at hparser
      cases hparser
  | some output' => exact ⟨output', rfl, h'.longest parser hmem output hparser⟩

/-- In whatever order the alternatives stand, the longest match ends at the same place. -/
theorem offset_eq (h : LongestOf f alternatives cursor found)
    (h' : LongestOf f others cursor found') (hperm : others.Perm alternatives) :
    found'.map (·.next.offset) = found.map (·.next.offset) := by
  cases found with
  | none =>
      cases found' with
      | none => rfl
      | some output' =>
          obtain ⟨_, hnone, -⟩ := h'.offset_le h hperm.subset rfl
          cases hnone
  | some output =>
      obtain ⟨output', rfl, hle⟩ := h.offset_le h' hperm.symm.subset rfl
      obtain ⟨_, hsome, hge⟩ := h'.offset_le h hperm.subset rfl
      cases hsome
      exact congrArg some (Nat.le_antisymm hge hle)

end LongestOf

/-! ## Runs -/

variable {rules : Rules α} {kind : Engine.Kind α} {f : Parser α → Cursor α → Option (Output α)}
  {alternatives : List (Parser α)} {cursor : Cursor α} {engine : Engine α} {id : Nat}

/-- All alternatives are tried, and the longest match so far is kept. -/
theorem yields_longestMatch {fuel : Nat} {done : List (Parser α)} {best : Option (Output α)}
    (hcomputes : ∀ parser ∈ alternatives, parser.Computes rules kind (f parser))
    (hbest : LongestOf f done cursor best) (hkind : kind.holds engine)
    (hsize : cursor.source.size ≤ engine.horizon)
    (hfuel : ∀ parser ∈ alternatives, Engine.depthBound rules parser engine.horizon ≤ fuel) :
    Yields (Engine.longestMatch (Engine.run rules fuel) best alternatives cursor) engine
      fun found _ => LongestOf f (done ++ alternatives) cursor found := by
  induction alternatives generalizing done best engine with
  | nil =>
      rw [List.append_nil]
      exact Engine.yields_longestMatch_nil hbest
  | cons parser alternatives ih =>
      obtain ⟨hparser, hcomputes⟩ := List.forall_mem_cons.mp hcomputes
      obtain ⟨hroom, hfuel⟩ := List.forall_mem_cons.mp hfuel
      apply Engine.yields_longestMatch_cons
      apply (hparser.yields_run hkind hsize hroom).mono
      rintro found engine' ⟨hfound, hkind', hhorizon⟩
      rw [← hhorizon] at hsize hfuel
      rw [List.append_cons]
      cases found with
      | none => exact ih hcomputes (hbest.snoc_of_none hfound.symm) hkind' hsize hfuel
      | some output => exact ih hcomputes (hbest.snoc_of_some hfound.symm) hkind' hsize hfuel

theorem yields_longest
    (hcomputes : ∀ parser ∈ alternatives, parser.Computes rules kind (f parser))
    (hfree : cursor.offset ∉ engine.active.get id)
    (hkind : kind.holds (engine.entered id cursor.offset)) :
    Yields ((Parser.longest id alternatives).parse rules cursor) engine
      fun found _ => LongestOf f alternatives cursor found := by
  apply Parser.yields_parse_of_step
  intro fuel horizon hsize hfuel
  have hfree' : cursor.offset ∉ ({ engine with horizon } : Engine α).active.get id := hfree
  apply Engine.yields_guardedMatch_free hfree'
  have hinner := Engine.depthBound_lt rules horizon
    (show (Parser.longestOf alternatives).size < (Parser.longest id alternatives).size from
      Nat.lt_succ_self _)
  have hroom : ∀ parser ∈ alternatives, Engine.depthBound rules parser horizon + 1 ≤ fuel := by
    intro parser hmem
    have hlt := Engine.depthBound_lt rules horizon (show parser.size <
      (Parser.longestOf alternatives).size from
        Nat.lt_succ_of_le (Parser.size_le_of_mem hmem))
    omega
  have hpos := Engine.add_lt_depthBound rules (Parser.longestOf alternatives) hsize
  obtain ⟨fuel, rfl⟩ := Nat.exists_eq_add_of_le' (show 1 ≤ fuel by omega)
  exact yields_longestMatch hcomputes LongestOf.nil (kind.withHorizon horizon hkind) hsize
    fun parser hmem => Nat.le_of_succ_le_succ (hroom parser hmem)

/--
The longest match is a maximum that keeps the order.  Wherever it is not under way at the same
offset already, `Parser.longest` matches if an alternative does, with the match of the first
alternative that matches furthest; where that ends is the same for all orders of the alternatives,
and no nearer if there are more of them.
-/
theorem longest_finds_first_of_longest
    (hcomputes : ∀ parser ∈ alternatives, parser.Computes rules kind (f parser))
    (hfree : cursor.offset ∉ engine.active.get id)
    (hkind : kind.holds (engine.entered id cursor.offset)) :
    Yields ((Parser.longest id alternatives).parse rules cursor) engine fun found _ =>
      (found.isSome = true ↔ ∃ parser ∈ alternatives, (f parser cursor).isSome = true) ∧
      (∀ output, found = some output → FirstOfLongest f alternatives cursor output) ∧
      ∀ (kind' : Engine.Kind α) (others : List (Parser α)) (id' : Nat) (engine' : Engine α),
        (∀ parser ∈ others, parser.Computes rules kind' (f parser)) →
        cursor.offset ∉ engine'.active.get id' →
        kind'.holds (engine'.entered id' cursor.offset) →
          Yields ((Parser.longest id' others).parse rules cursor) engine' fun found' _ =>
            (others.Perm alternatives →
              found'.map (·.next.offset) = found.map (·.next.offset)) ∧
            (alternatives ⊆ others → ∀ output, found = some output →
              ∃ output', found' = some output' ∧ output.next.offset ≤ output'.next.offset) := by
  apply (yields_longest hcomputes hfree hkind).mono
  intro found _ hlongest
  refine ⟨hlongest.isSome_iff, ?_, ?_⟩
  · rintro output rfl
    exact hlongest
  · intro kind' others id' engine' hcomputes' hfree' hkind'
    apply (yields_longest hcomputes' hfree' hkind').mono
    intro found' _ hlongest'
    exact ⟨hlongest.offset_eq hlongest', fun hsubset _ => hlongest.offset_le hlongest' hsubset⟩

/-! ## An example -/

/-- Two words, one of which begins the other and has two readings. -/
def words : List (Parser String) :=
  [.literal ['a'] "short", .literal ['a', 'b'] "first", .literal ['a', 'b'] "second"]

/-- What is found of a word. -/
def takeWord : Parser String → Cursor String → Option (Output String)
  | .literal chars payload, cursor => Engine.takeLiteral chars payload cursor
  | _, _ => none

theorem words_compute : ∀ parser ∈ words, parser.Computes .empty .any (takeWord parser) := by
  have hword : ∀ chars payload, (Parser.literal chars payload).Computes .empty .any
      (takeWord (.literal chars payload)) :=
    fun chars payload => Parser.computes_of_step fun _ _ _ => rfl
  simp only [words, List.forall_mem_cons]
  exact ⟨hword _ _, hword _ _, hword _ _, fun _ hmem => absurd hmem List.not_mem_nil⟩

/-- Both readings of the longer word end at the same place; the one that stands first is found. -/
theorem longest_finds_first_reading :
    (∀ parser ∈ words, parser.Computes .empty .any (takeWord parser)) ∧
      (Cursor.start (α := String) (.ofString "abc")).offset ∉
        (Engine.fresh : Engine String).active.get 0 ∧
      ∃ output, FirstOfLongest takeWord words (.start (.ofString "abc")) output ∧
        output.payload = "first" ∧
        ∃ output', (Parser.longest 0 words.reverse).outcome .empty (.start (.ofString "abc")) =
            .ok (some output') ∧
          output'.payload = "second" ∧ output'.next.offset = output.next.offset := by
  have hfree : (Cursor.start (α := String) (.ofString "abc")).offset ∉
      (Engine.fresh : Engine String).active.get 0 := by decide +kernel
  refine ⟨words_compute, hfree, ?_⟩
  obtain ⟨found, hfound, -, hfirst, hothers⟩ := Parser.outcome_of_yields
    (longest_finds_first_of_longest words_compute hfree trivial)
  obtain ⟨found', hfound', hperm, -⟩ := Parser.outcome_of_yields
    (hothers .any words.reverse 0 .fresh
      (fun parser hmem => words_compute parser (List.mem_reverse.mp hmem)) hfree trivial)
  obtain ⟨_, hread, hseen⟩ := Parser.seen_eq_ok (show (Parser.longest 0 words).seen .empty
    (.start (.ofString "abc")) = .ok (some ("first", 2)) by decide +kernel)
  obtain ⟨_, hread', hseen'⟩ := Parser.seen_eq_ok (show (Parser.longest 0 words.reverse).seen .empty
    (.start (.ofString "abc")) = .ok (some ("second", 2)) by decide +kernel)
  obtain rfl := Except.ok.inj (hread.symm.trans hfound)
  obtain rfl := Except.ok.inj (hread'.symm.trans hfound')
  obtain ⟨output, rfl, hpair⟩ := Option.map_eq_some_iff.mp hseen
  obtain ⟨output', rfl, hpair'⟩ := Option.map_eq_some_iff.mp hseen'
  exact ⟨output, hfirst output rfl, (Prod.mk.inj hpair).1, output', hfound',
    (Prod.mk.inj hpair').1, Option.some.inj (hperm (List.reverse_perm words))⟩

end Packrat
