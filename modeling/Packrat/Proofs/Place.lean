import Packrat.Engine.Run

/-!
# Places in a text

A cursor that was not sent into the middle of a character is known by the characters in front of
it.  `Cursor.At` says that a cursor stands in front of given characters at the end of a source, and
`Matches` that an output is what a reading of these characters amounts to.
-/

namespace Packrat

variable {α : Type}

/-- The cursor stands between two characters of the source, in front of `rest`. -/
structure Cursor.At (cursor : Cursor α) (source : Source) (rest : List Char) : Prop where
  source_eq : cursor.source = source
  rest_eq : cursor.rest = rest
  offset_add : cursor.offset + Text.byteLength rest = source.size

namespace Cursor.At

variable {cursor other : Cursor α} {source : Source} {rest shorter : List Char}

theorem withLeft (h : cursor.At source rest) (left : Left α) :
    (cursor.withLeft left).At source rest :=
  ⟨h.source_eq, h.rest_eq, h.offset_add⟩

theorem withoutLeft (h : cursor.At source rest) : cursor.withoutLeft.At source rest :=
  h.withLeft .empty

theorem start (source : Source) : (Cursor.start source : Cursor α).At source source.chars :=
  ⟨rfl, rfl, by rw [source.size_eq]; exact Nat.zero_add _⟩

/-- Taking characters leads to what stands behind them. -/
theorem consume {taken : List Char} (h : cursor.At source rest)
    (hrest : cursor.rest = taken ++ shorter) :
    (cursor.consume taken shorter hrest).At source shorter := by
  refine ⟨h.source_eq, rfl, ?_⟩
  have hsum := h.offset_add
  rw [← h.rest_eq, hrest, Text.byteLength_append] at hsum
  rw [Cursor.offset_consume]
  omega

/-- The characters in front of a cursor are those from its offset on. -/
theorem dropBytes_eq (h : cursor.At source rest) :
    Text.dropBytes cursor.offset source.chars = rest := by
  rw [← h.rest_eq, cursor.rest_eq, h.source_eq]

theorem atEnd_iff (h : cursor.At source rest) : cursor.atEnd = true ↔ rest = [] := by
  have hsum := h.offset_add
  rw [← Text.byteLength_eq_zero_iff, Cursor.atEnd, decide_eq_true_iff, h.source_eq]
  omega

/-- The further a cursor is, the less is in front of it. -/
theorem offset_lt_iff (h : cursor.At source rest) (hother : other.At source shorter) :
    cursor.offset < other.offset ↔ Text.byteLength shorter < Text.byteLength rest := by
  have hsum := h.offset_add
  have hsum' := hother.offset_add
  omega

theorem offset_le_iff (h : cursor.At source rest) (hother : other.At source shorter) :
    cursor.offset ≤ other.offset ↔ Text.byteLength shorter ≤ Text.byteLength rest := by
  have hsum := h.offset_add
  have hsum' := hother.offset_add
  omega

end Cursor.At

/-- The output is the reading's value, at the place behind it and with the given left context. -/
def Matches (source : Source) (left : Left α) :
    Option (α × List Char) → Option (Output α) → Prop
  | none, none => True
  | some (payload, rest), some output =>
      output.payload = payload ∧ output.next.At source rest ∧ output.next.left = left
  | _, _ => False

namespace Matches

variable {source : Source} {left : Left α} {output : Option (Output α)}

theorem none_iff : Matches source left none output ↔ output = none := by
  cases output <;> simp [Matches]

theorem some_iff {payload : α} {rest : List Char} :
    Matches source left (some (payload, rest)) output ↔
      ∃ next : Cursor α, output = some ⟨payload, next⟩ ∧ next.At source rest ∧
        next.left = left := by
  cases output with
  | none => simp [Matches]
  | some output =>
      constructor
      · rintro ⟨hpayload, hat, hleft⟩
        exact ⟨output.next, by rw [← hpayload], hat, hleft⟩
      · rintro ⟨next, heq, hat, hleft⟩
        cases heq
        exact ⟨rfl, hat, hleft⟩

end Matches

end Packrat
