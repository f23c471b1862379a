import Packrat.Proofs.Combinators
import Packrat.Proofs.Functions

/-!
# Bounded repetition

A parser that is a function of the cursor has, from every cursor on, one sequence of matches that
repetition goes through: they follow each other up to where there is none, or to the first one that
consumes nothing.  Bounds only cut this sequence off, or ask that it is long enough.
-/

namespace Packrat

variable {α : Type}

/-- The cursor behind matches one after another that begin at a cursor. -/
def Cursor.behind (cursor : Cursor α) : List (Output α) → Cursor α
  | [] => cursor
  | output :: outputs => output.next.behind outputs

/-- The match that is made of matches one after another. -/
def Cursor.gathered (cursor : Cursor α) (collect : List α → α) (outputs : List (Output α)) :
    Output α :=
  ⟨collect (outputs.map (·.payload)), cursor.behind outputs⟩

/-! ## The matches of an unbounded repetition -/

/-- The matches of a function from a cursor on, up to the first one that consumes nothing. -/
inductive Repeats (f : Cursor α → Option (Output α)) : Cursor α → List (Output α) → Prop
  | stop {cursor : Cursor α} (h : f cursor = none) : Repeats f cursor []
  | last {cursor : Cursor α} {output : Output α} (h : f cursor = some output)
      (hstays : ¬ cursor.offset < output.next.offset) : Repeats f cursor [output]
  | more {cursor : Cursor α} {output : Output α} {outputs : List (Output α)}
      (h : f cursor = some output) (hmoves : cursor.offset < output.next.offset)
      (hs : Repeats f output.next outputs) : Repeats f cursor (output :: outputs)

/-- Whatever the function finds is found in the text of the cursor. -/
def KeepsText (f : Cursor α → Option (Output α)) : Prop :=
  ∀ cursor output, f cursor = some output → output.next.source = cursor.source

variable {f : Cursor α → Option (Output α)} {cursor : Cursor α} {outputs : List (Output α)}

/-- A match that consumes something leaves less of the text over. -/
theorem Cursor.left_over_lt {next : Cursor α} (hsource : next.source = cursor.source)
    (hmoves : cursor.offset < next.offset) :
    next.source.size - next.offset < cursor.source.size - cursor.offset := by
  have hle := next.offset_le
  rw [hsource] at hle ⊢
  omega

/-- A function goes from every cursor through some sequence of matches. -/
theorem KeepsText.exists_repeats (hkeeps : KeepsText f) (cursor : Cursor α) :
    ∃ outputs, Repeats f cursor outputs := by
  induction hleft : cursor.source.size - cursor.offset using Nat.strong_induction_on
    generalizing cursor with
  | _ left ih =>
      cases hfound : f cursor with
      | none => exact ⟨[], .stop hfound⟩
      | some output =>
          by_cases hmoves : cursor.offset < output.next.offset
          · have hless := Cursor.left_over_lt (hkeeps cursor output hfound) hmoves
            obtain ⟨outputs, hs⟩ := ih _ (hleft ▸ hless) output.next rfl
            exact ⟨output :: outputs, .more hfound hmoves hs⟩
          · exact ⟨[output], .last hfound hmoves⟩

namespace Repeats

/-- Every match stands where the one before it ended. -/
theorem found (h : Repeats f cursor outputs) (k : Nat) (hk : k < outputs.length) :
    f (cursor.behind (outputs.take k)) = some outputs[k] := by
  induction h generalizing k with
  | stop h => exact absurd hk (Nat.not_lt_zero k)
  | last h hstays =>
      obtain rfl : k = 0 := Nat.lt_one_iff.mp hk
      exact h
  | more h hmoves hs ih =>
      cases k with
      | zero => exact h
      | succ k => exact ih k (Nat.lt_of_succ_lt_succ hk)

/-- Every match but possibly the last one consumes something. -/
theorem moves (h : Repeats f cursor outputs) (k : Nat) (hk : k + 1 < outputs.length) :
    (cursor.behind (outputs.take k)).offset < (cursor.behind (outputs.take (k + 1))).offset := by
  induction h generalizing k with
  | stop h => exact absurd hk (Nat.not_lt_zero _)
  | last h hstays => exact absurd hk (Nat.not_lt_of_le (Nat.le_add_left 1 k))
  | more h hmoves hs ih =>
      cases k with
      | zero => exact hmoves
      | succ k => exact ih k (Nat.lt_of_succ_lt_succ hk)

/-- Behind the matches there is no further one, or the last one has consumed nothing. -/
theorem ends (h : Repeats f cursor outputs) :
    f (cursor.behind outputs) = none ∨ ∃ k, outputs.length = k + 1 ∧
      (cursor.behind outputs).offset ≤ (cursor.behind (outputs.take k)).offset := by
  induction h with
  | stop h => exact Or.inl h
  | last h hstays => exact Or.inr ⟨0, rfl, Nat.le_of_not_lt hstays⟩
  | more h hmoves hs ih =>
      rcases ih with hnone | ⟨k, hlength, hle⟩
      · exact Or.inl hnone
      · exact Or.inr ⟨k + 1, congrArg (· + 1) hlength, hle⟩

theorem length_le (h : Repeats f cursor outputs) (hkeeps : KeepsText f) :
    outputs.length ≤ cursor.source.size - cursor.offset + 1 := by
  induction h with
  | stop h => exact Nat.zero_le _
  | last h hstays => exact Nat.le_add_left 1 _
  | more h hmoves hs ih =>
      have hless := Cursor.left_over_lt (hkeeps _ _ h) hmoves
      rw [List.length_cons]
      omega

end Repeats

/-! ## Cutting them off -/

/-- What a bound leaves of matches if there have been `count` matches before them. -/
def cutOff (atMost : Option Nat) (count : Nat) (outputs : List (Output α)) : List (Output α) :=
  match atMost with
  | some most => outputs.take (most - count)
  | none => outputs

section CutOff

variable {atMost : Option Nat} {count : Nat}

theorem cutOff_nil : cutOff atMost count ([] : List (Output α)) = [] := by
  cases atMost <;> simp [cutOff]

theorem cutOff_of_full (hfull : Engine.allows atMost count = false) :
    cutOff atMost count outputs = [] := by
  cases atMost with
  | none => cases hfull
  | some most =>
      have hle : most ≤ count := by simpa [Engine.allows] using hfull
      rw [cutOff, Nat.sub_eq_zero_of_le hle, List.take_zero]

theorem cutOff_cons (hroom : Engine.allows atMost count = true) (output : Output α) :
    cutOff atMost count (output :: outputs) = output :: cutOff atMost (count + 1) outputs := by
  cases atMost with
  | none => rfl
  | some most =>
      have hlt : count < most := by simpa [Engine.allows] using hroom
      have hsub : most - count = (most - (count + 1)) + 1 := by omega
      rw [cutOff, hsub, List.take_succ_cons, cutOff]

end CutOff

/-! ## Runs -/

section Runs

variable {rules : Rules α} {parser : Parser α} {kind : Engine.Kind α} {engine : Engine α}

/-- The loop goes through the matches of the function as far as its bound leaves them. -/
theorem Parser.Computes.yields_repeatMatch (hcomputes : parser.Computes rules kind f)
    (hkeeps : KeepsText f) {fuel turns count : Nat} {atMost : Option Nat} {payloads : List α}
    (h : Repeats f cursor outputs) (hkind : kind.holds engine)
    (hsize : cursor.source.size ≤ engine.horizon)
    (hfuel : Engine.depthBound rules parser engine.horizon ≤ fuel)
    (hturns : cursor.source.size - cursor.offset < turns) :
    Yields (Engine.repeatMatch (Engine.run rules fuel) parser atMost turns payloads count cursor)
      engine fun result engine' =>
        result = (((cutOff atMost count outputs).map (·.payload)).reverse ++ payloads,
          count + (cutOff atMost count outputs).length,
          cursor.behind (cutOff atMost count outputs)) ∧ kind.holds engine' := by
  induction turns generalizing cursor outputs engine count payloads with
  | zero => exact absurd hturns (Nat.not_lt_zero _)
  | succ turns ih =>
      cases hroom : Engine.allows atMost count with
      | false =>
          rw [cutOff_of_full hroom]
          exact Engine.yields_repeatMatch_full hroom ⟨rfl, hkind⟩
      | true =>
          apply Engine.yields_repeatMatch_succ hroom
          apply (hcomputes.yields_run hkind hsize hfuel).mono
          rintro _ engine' ⟨rfl, hkind', hhorizon⟩
          cases h with
          | stop h =>
              rw [h, cutOff_nil]
              exact ⟨rfl, hkind'⟩
          | last h hstays =>
              simp only [h, if_neg hstays, cutOff_cons hroom, cutOff_nil]
              exact ⟨rfl, hkind'⟩
          | @more _ output outputs h hmoves hs =>
              simp only [h, if_pos hmoves, cutOff_cons hroom]
              have hnext := hkeeps cursor output h
              have hless := Cursor.left_over_lt hnext hmoves
              rw [← hhorizon] at hsize hfuel
              apply (ih hs hkind' (hnext ▸ hsize) hfuel (by omega)).mono
              rintro _ engine'' ⟨rfl, hkind''⟩
              refine ⟨?_, hkind''⟩
              simp [Cursor.behind, Nat.add_assoc, Nat.add_comm]

/-- A repetition collects the matches that its upper bound leaves, if they reach its lower bound. -/
theorem Parser.Computes.yields_repeated (hcomputes : parser.Computes rules kind f)
    (hkeeps : KeepsText f) (h : Repeats f cursor outputs) (hkind : kind.holds engine)
    (atLeast : Nat) (atMost : Option Nat) (collect : List α → α) :
    Yields ((Parser.repeated parser atLeast atMost collect).parse rules cursor) engine
      fun found engine' =>
        found = (if atLeast ≤ (cutOff atMost 0 outputs).length then
          some (cursor.gathered collect (cutOff atMost 0 outputs)) else none) ∧
            kind.holds engine' := by
  apply Parser.yields_parse_of_step
  intro fuel horizon hsize hfuel
  have hroom : Engine.depthBound rules parser horizon ≤ fuel := by
    have hlt := Engine.depthBound_lt rules horizon (show parser.size <
      (Parser.repeated parser atLeast atMost collect).size from Nat.lt_succ_self _)
    omega
  have hturns : cursor.source.size - cursor.offset < fuel := by
    have hbytes := Engine.add_lt_depthBound rules parser
      (Nat.le_trans (Nat.sub_le cursor.source.size cursor.offset) hsize)
    omega
  apply Engine.yields_repetition
  apply (hcomputes.yields_repeatMatch hkeeps h (kind.withHorizon horizon hkind) hsize hroom
    hturns).mono
  rintro _ engine' ⟨rfl, hkind'⟩
  refine ⟨?_, hkind'⟩
  simp only [List.append_nil, List.reverse_reverse, Nat.zero_add, ← Nat.not_le, ite_not]
  rfl

/--
Bounds only cut a repetition off.  From every cursor on, a function has one sequence of matches that
an unbounded repetition collects; all of them but possibly the last one consume something, so that
there is at most one more than there are bytes left.  With an upper bound, as many of them are
collected from the first one on; with a lower bound, there is no match if they are fewer.
-/
theorem bounds_cut_matches (hcomputes : parser.Computes rules kind f) (hkeeps : KeepsText f)
    (cursor : Cursor α) :
    ∃ outputs : List (Output α),
      (∀ k (hk : k < outputs.length),
        f (cursor.behind (outputs.take k)) = some outputs[k]) ∧
      (∀ k, k + 1 < outputs.length →
        (cursor.behind (outputs.take k)).offset <
          (cursor.behind (outputs.take (k + 1))).offset) ∧
      (f (cursor.behind outputs) = none ∨ ∃ k, outputs.length = k + 1 ∧
        (cursor.behind outputs).offset ≤ (cursor.behind (outputs.take k)).offset) ∧
      outputs.length ≤ cursor.source.size - cursor.offset + 1 ∧
      ∀ engine, kind.holds engine → ∀ (collect : List α → α) (atLeast : Nat),
        Yields ((parser.many collect).parse rules cursor) engine (fun found _ =>
          found = some (cursor.gathered collect outputs)) ∧
        Yields ((Parser.repeated parser atLeast none collect).parse rules cursor) engine
          (fun found _ => found =
            if atLeast ≤ outputs.length then some (cursor.gathered collect outputs) else none) ∧
        ∀ atMost,
          Yields ((Parser.repeated parser atLeast (some atMost) collect).parse rules cursor) engine
            fun found _ => found =
              if atLeast ≤ min atMost outputs.length then
                some (cursor.gathered collect (outputs.take (min atMost outputs.length)))
              else none := by
  obtain ⟨outputs, hrepeats⟩ := hkeeps.exists_repeats cursor
  refine ⟨outputs, hrepeats.found, hrepeats.moves, hrepeats.ends,
    hrepeats.length_le hkeeps, ?_⟩
  intro engine hkind collect atLeast
  have hruns := fun atLeast atMost =>
    hcomputes.yields_repeated hkeeps hrepeats hkind atLeast atMost collect
  refine ⟨(hruns 0 none).mono fun _ _ => And.left, (hruns atLeast none).mono fun _ _ => And.left,
    fun atMost => (hruns atLeast (some atMost)).mono ?_⟩
  rintro _ engine' ⟨rfl, -⟩
  rw [cutOff, Nat.sub_zero, List.length_take, ← List.take_eq_take_min]

end Runs

/-! ## An example -/

/-- A letter a, or else nothing, which counts as an empty text. -/
def optionalLetter : Parser (List String) :=
  .optional (.satisfy (· == 'a') fun c => [String.singleton c]) (·.getD [""])

/-- What is found of the letter. -/
def takeOptionalLetter (cursor : Cursor (List String)) : Option (Output (List String)) :=
  some (Output.optional (·.getD [""]) cursor
    (Engine.takeChar (· == 'a') (fun c => [String.singleton c]) cursor))

theorem optionalLetter_computes : optionalLetter.Computes .empty .any takeOptionalLetter :=
  (Parser.computes_of_step fun _ _ _ => rfl).optional _

theorem takeOptionalLetter_keepsText : KeepsText takeOptionalLetter := by
  intro cursor output h
  obtain rfl := Option.some.inj h
  cases hletter : Engine.takeChar (· == 'a') (fun c => [String.singleton c]) cursor with
  | none => rfl
  | some output =>
      obtain ⟨c, htakes, -⟩ := Engine.leads_takeChar hletter
      exact htakes.source_eq

/-- The last of three matches consumes nothing; two are what an upper bound of two leaves. -/
theorem bounds_cut_letters :
    optionalLetter.Computes .empty .any takeOptionalLetter ∧ KeepsText takeOptionalLetter ∧
      ∃ outputs : List (Output (List String)), outputs.length = 3 ∧
        ((Cursor.start (.ofString "aab")).gathered List.flatten outputs).payload =
          ["a", "a", ""] ∧
        ((Cursor.start (.ofString "aab")).gathered List.flatten (outputs.take 2)).payload =
          ["a", "a"] := by
  refine ⟨optionalLetter_computes, takeOptionalLetter_keepsText, ?_⟩
  obtain ⟨outputs, -, -, -, -, hruns⟩ := bounds_cut_matches optionalLetter_computes
    takeOptionalLetter_keepsText (.start (.ofString "aab"))
  have hseen := fun atLeast => hruns .fresh trivial List.flatten atLeast
  have hthree := Parser.seen_of_yields (hseen 3).2.1
  have hfour := Parser.seen_of_yields (hseen 4).2.1
  have htwo := Parser.seen_of_yields ((hseen 2).2.2 2)
  rw [show (Parser.repeated optionalLetter 3 none List.flatten).seen .empty
    (.start (.ofString "aab")) = .ok (some (["a", "a", ""], 2)) by decide +kernel] at hthree
  rw [show (Parser.repeated optionalLetter 4 none List.flatten).seen .empty
    (.start (.ofString "aab")) = .ok none by decide +kernel] at hfour
  rw [show (Parser.repeated optionalLetter 2 (some 2) List.flatten).seen .empty
    (.start (.ofString "aab")) = .ok (some (["a", "a"], 2)) by decide +kernel] at htwo
  have hlower : 3 ≤ outputs.length := by
    by_contra hfew
    rw [if_neg hfew] at hthree
    cases hthree
  have hupper : ¬ 4 ≤ outputs.length := by
    intro hmany
    rw [if_pos hmany] at hfour
    cases hfour
  have hcut : min 2 outputs.length = 2 := by omega
  rw [if_pos hlower] at hthree
  rw [hcut, if_pos (Nat.le_refl 2)] at htwo
  have hall := Prod.mk.inj (Option.some.inj (Except.ok.inj hthree))
  have hfirst := Prod.mk.inj (Option.some.inj (Except.ok.inj htwo))
  exact ⟨outputs, by omega, hall.1.symm, hfirst.1.symm⟩

end Packrat
