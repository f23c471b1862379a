import Packrat.Proofs.Plain.Idle

/-!
# Matches of plain parsers

What a plain parser means, at the cursors of a text: the output of a match goes on where the
characters that were found end, and has the left context that is left there.  `Reads` says that the
call of a parser finds what the parser means.
-/

namespace Packrat

variable {α : Type}

/-! ## Outputs -/

/-- The left context of a cursor behind a match. -/
def Left.behind (left : Left α) (kept : Bool) : Left α := if kept then left else .empty

@[simp] theorem Left.content_behind (left : Left α) (kept : Bool) :
    (left.behind kept).content = left.content.behind kept := by
  cases kept <;> rfl

@[simp] theorem Left.isOperand_content (left : Left α) :
    left.content.isOperand = left.isOperand := by
  cases left <;> rfl

@[simp] theorem Left.behind_behind (left : Left α) (kept kept' : Bool) :
    (left.behind kept).behind kept' = left.behind (kept && kept') := by
  cases kept <;> cases kept' <;> rfl

/-- The output is what was found, at its place and with the left context that is left. -/
def Lands (source : Source) (left : Left α) : Option (Found α) → Option (Output α) → Prop
  | none, none => True
  | some found, some output =>
      output.payload = found.payload ∧ output.next.At source found.rest ∧
        output.next.left = left.behind found.kept
  | _, _ => False

namespace Lands

variable {source : Source} {left : Left α} {output : Option (Output α)}

theorem none_iff : Lands source left none output ↔ output = none := by
  cases output <;> simp [Lands]

theorem some_iff {found : Found α} :
    Lands source left (some found) output ↔
      ∃ next : Cursor α, output = some ⟨found.payload, next⟩ ∧ next.At source found.rest ∧
        next.left = left.behind found.kept := by
  cases output with
  | none => simp [Lands]
  | some output =>
      constructor
      · rintro ⟨hpayload, hat, hleft⟩
        exact ⟨output.next, by rw [← hpayload], hat, hleft⟩
      · rintro ⟨next, heq, hat, hleft⟩
        cases heq
        exact ⟨rfl, hat, hleft⟩

/-- Where nothing is to the left, nothing is kept. -/
theorem forget {found : Option (Found α)} (h : Lands source .empty found output) (left : Left α) :
    Lands source left (found.map fun found => { found with kept := false }) output := by
  cases found with
  | none =>
      obtain rfl := none_iff.mp h
      trivial
  | some found =>
      obtain ⟨next, rfl, hat, hleft⟩ := some_iff.mp h
      refine ⟨rfl, hat, hleft.trans ?_⟩
      cases found.kept <;> rfl

/-- With nothing to the left, what was found is a match of a reading. -/
theorem matches_pair {found : Option (Found α)} (h : Lands source .empty found output) :
    Matches source .empty (found.map Found.pair) output := by
  cases found with
  | none => simpa [Lands.none_iff, Matches.none_iff] using h
  | some found =>
      obtain ⟨next, rfl, hat, hleft⟩ := some_iff.mp h
      refine ⟨rfl, hat, hleft.trans ?_⟩
      cases found.kept <;> rfl

end Lands

/-- The results of a sequence are what was found, one after another. -/
def LandsAll (source : Source) (left : Left α) :
    Option (List α × List Char × Bool) → Option (List α × Cursor α) → Prop
  | none, none => True
  | some (payloads, rest, kept), some (payloads', next) =>
      payloads' = payloads ∧ next.At source rest ∧ next.left = left.behind kept
  | _, _ => False

namespace LandsAll

variable {source : Source} {left : Left α} {result : Option (List α × Cursor α)}

theorem none_iff : LandsAll source left none result ↔ result = none := by
  cases result <;> simp [LandsAll]

theorem some_iff {payloads : List α} {rest : List Char} {kept : Bool} :
    LandsAll source left (some (payloads, rest, kept)) result ↔
      ∃ next : Cursor α, result = some (payloads, next) ∧ next.At source rest ∧
        next.left = left.behind kept := by
  cases result with
  | none => simp [LandsAll]
  | some result =>
      constructor
      · rintro ⟨hpayloads, hat, hleft⟩
        exact ⟨result.2, by rw [← hpayloads], hat, hleft⟩
      · rintro ⟨next, heq, hat, hleft⟩
        cases heq
        exact ⟨rfl, hat, hleft⟩

/-- One more payload in front. -/
theorem cons {payload : α} {kept : Bool} {found : Option (List α × List Char × Bool)}
    (h : LandsAll source (left.behind kept) found result) :
    LandsAll source left
      (found.map fun (payloads, rest, kept') => (payload :: payloads, rest, kept && kept'))
      (result.map fun (payloads, next) => (payload :: payloads, next)) := by
  cases found with
  | none =>
      obtain rfl := none_iff.mp h
      trivial
  | some found =>
      obtain ⟨payloads, rest, kept'⟩ := found
      obtain ⟨next, rfl, hat, hleft⟩ := some_iff.mp h
      exact ⟨rfl, hat, hleft.trans (Left.behind_behind _ _ _)⟩

end LandsAll

namespace Engine

variable {source : Source} {cursor : Cursor α} {rest : List Char}

/-- The longer of two outputs is the output of the more of two findings. -/
theorem lands_longer {best : Option (Found α)} {earlier : Option (Output α)} {found : Found α}
    {output : Output α} (hbest : Lands source cursor.left best earlier)
    (hland : Lands source cursor.left (some found) (some output)) :
    Lands source cursor.left (some (Found.longer best found)) (some (longer earlier output)) := by
  cases best with
  | none =>
      obtain rfl := Lands.none_iff.mp hbest
      exact hland
  | some best =>
      obtain ⟨next, rfl, hnext, hleft⟩ := Lands.some_iff.mp hbest
      simp only [Found.longer, longer, hland.2.1.offset_le_iff hnext]
      split
      · exact ⟨rfl, hnext, hleft⟩
      · exact hland

/-- What the fold makes of the offer of its folded payload is what the meaning of a fold says. -/
theorem lands_foldResult {tag : Nat} {folded : α} {next : Cursor α}
    {extended : Option (Output α)} {found : Option (Found α)} (hnext : next.At source rest)
    (hempty : next.left = .empty)
    (hland : Lands source (.operand tag (some folded)) found extended) (left : Left α) :
    Lands source left (some (Found.folded folded rest found))
      (some (foldResult folded next extended)) := by
  cases found with
  | none =>
      obtain rfl := Lands.none_iff.mp hland
      exact ⟨rfl, hnext, hempty⟩
  | some found =>
      obtain ⟨last, rfl, hlast, hleft⟩ := Lands.some_iff.mp hland
      cases hkept : found.kept with
      | true =>
          rw [hkept] at hleft
          simp only [foldResult, hleft, Found.folded, hkept]
          exact ⟨rfl, hnext, hempty⟩
      | false =>
          rw [hkept] at hleft
          simp only [foldResult, hleft, Found.folded, hkept]
          refine ⟨rfl, hlast, ?_⟩
          change last.left = left.behind found.kept
          rw [hkept]
          exact hleft

/-! ## Characters -/

theorem takeChar_lands {accepts : Char → Bool} {payload : Char → α} (hat : cursor.At source rest)
    (left : LeftContent α) :
    Lands source cursor.left ((Parser.satisfy accepts payload).means left rest)
      (takeChar accepts payload cursor) := by
  unfold takeChar
  split
  · rename_i hrest
    obtain rfl := hat.rest_eq.symm.trans hrest
    rw [Parser.means]
    trivial
  · rename_i c cs hrest
    obtain rfl := hat.rest_eq.symm.trans hrest
    rw [Parser.means]
    by_cases haccepts : accepts c = true
    · rw [if_pos haccepts, if_pos haccepts]
      exact ⟨rfl, hat.consume hrest, rfl⟩
    · rw [if_neg haccepts, if_neg haccepts]
      trivial

theorem after?_eq_none {chars rest : List Char} (h : chars.isPrefixOf rest = false) :
    after? chars rest = none := by
  induction chars generalizing rest with
  | nil => cases rest <;> cases h
  | cons c cs ih =>
      cases rest with
      | nil => rfl
      | cons d ds =>
          by_cases hcd : c = d
          · subst hcd
            simp only [List.isPrefixOf, beq_self_eq_true, Bool.true_and] at h
            simp [after?, ih h]
          · simp [after?, hcd]

theorem after?_of_append {chars tail rest : List Char} (h : rest = chars ++ tail) :
    ∃ found, after? chars rest = some found ∧ found.1 = tail := by
  subst h
  induction chars with
  | nil => exact ⟨_, by simp only [after?]; rfl, rfl⟩
  | cons c cs ih =>
      obtain ⟨found, hfound, htail⟩ := ih
      exact ⟨_, by simp only [List.cons_append, after?, dif_pos, hfound, Option.map_some]; rfl,
        htail⟩

theorem takeLiteral_lands {chars : List Char} {payload : α} (hat : cursor.At source rest)
    (left : LeftContent α) :
    Lands source cursor.left ((Parser.literal chars payload).means left rest)
      (takeLiteral chars payload cursor) := by
  obtain rfl := hat.rest_eq
  rw [Parser.means, takeLiteral]
  cases hchars : chars.isPrefixOf cursor.rest with
  | false =>
      rw [after?_eq_none hchars]
      trivial
  | true =>
      obtain ⟨tail, hrest⟩ := List.isPrefixOf_iff_prefix.mp hchars
      obtain ⟨found, hfound, htail⟩ := after?_of_append hrest.symm
      have hdrop : cursor.rest.drop chars.length = tail := by rw [← hrest, List.drop_left]
      rw [hfound, if_pos rfl, hdrop, ← htail]
      exact ⟨rfl, hat.consume found.2, rfl⟩

/-! ## Calls -/

/--
The call of a parser finds what the parser means, from every idle state in front of at most `limit`
bytes.
-/
def Reads (call : Call α) (limit : Nat) (parser : Parser α) : Prop :=
  ∀ ⦃cursor : Cursor α⦄ ⦃source : Source⦄ ⦃rest : List Char⦄ ⦃engine : Engine α⦄,
    cursor.At source rest → Text.byteLength rest ≤ limit →
    Idle parser.guards parser.climbs cursor.offset engine →
      Yields (call parser cursor) engine fun output engine' =>
        Lands source cursor.left (parser.means cursor.left.content rest) output ∧
          Untouched engine engine'

end Engine

end Packrat
