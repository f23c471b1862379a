import Packrat.Proofs.Json.Language

/-!
# Spellings of strings in JSON

Units that stand side by side are decoded together, and characters in between cut them apart.  All
the same a string denotes what its UTF-16 form as a whole does, so that a character may be spelled
in any way wherever it stands.
-/

namespace Packrat

namespace Text.Units

/-! ## Decoding -/

/--
What a sequence of units denotes: the units of a character denote it, and a surrogate that is not
part of a pair is replaced.
-/
inductive Lossy : List UInt16 → List Char → Prop where
  | nil : Lossy [] []
  | char (c : Char) {units : List UInt16} {chars : List Char} (h : Lossy units chars) :
      Lossy (encodeChar c ++ units) (c :: chars)
  | unpaired {unit : UInt16} {units : List UInt16} {chars : List Char}
      (hsurrogate : isHigh unit = true ∨ isLow unit = true)
      (halone : isHigh unit = true → ∀ next ∈ units.head?, isLow next = false)
      (h : Lossy units chars) : Lossy (unit :: units) ('\ufffd' :: chars)

section Units

variable {unit high low : UInt16} {units : List UInt16} {chars chars' : List Char}

theorem isHigh_iff : isHigh unit = true ↔ 0xd800 ≤ unit.toNat ∧ unit.toNat < 0xdc00 := by
  simp only [isHigh, Bool.and_eq_true, decide_eq_true_eq, UInt16.le_iff_toNat_le,
    UInt16.lt_iff_toNat_lt]
  exact Iff.rfl

theorem isLow_iff : isLow unit = true ↔ 0xdc00 ≤ unit.toNat ∧ unit.toNat < 0xe000 := by
  simp only [isLow, Bool.and_eq_true, decide_eq_true_eq, UInt16.le_iff_toNat_le,
    UInt16.lt_iff_toNat_lt]
  exact Iff.rfl

theorem toNat_ofNat {n : Nat} (h : n.isValidChar) : (Char.ofNat n).toNat = n := by
  rw [Char.ofNat, dif_pos h]
  rfl

/-! ### The units of one character -/

/-- A character is one unit that is no surrogate, or a pair of surrogates. -/
theorem encodeChar_cases (c : Char) :
    (∃ unit, encodeChar c = [unit] ∧ isHigh unit = false ∧ isLow unit = false ∧
        single unit = c) ∨
      ∃ high low, encodeChar c = [high, low] ∧ isHigh high = true ∧ isLow low = true ∧
        pair high low = c := by
  have hvalid : c.toNat < 0xd800 ∨ 0xdfff < c.toNat ∧ c.toNat < 0x110000 := c.valid
  have hc : Char.ofNat c.toNat = c := Char.ofNat_toNat c
  by_cases hsmall : c.toNat < 0x10000
  · have hunit : (UInt16.ofNat c.toNat).toNat = c.toNat := UInt16.toNat_ofNat_of_lt' hsmall
    have hhigh : isHigh (.ofNat c.toNat) = false :=
      Bool.eq_false_iff.mpr (mt isHigh_iff.mp (by omega))
    have hlow : isLow (.ofNat c.toNat) = false :=
      Bool.eq_false_iff.mpr (mt isLow_iff.mp (by omega))
    refine .inl ⟨.ofNat c.toNat, if_pos hsmall, hhigh, hlow, ?_⟩
    rw [single, hhigh, hlow, hunit, hc]
    rfl
  · have hhigh : (UInt16.ofNat (0xd800 + (c.toNat - 0x10000) / 0x400)).toNat =
        0xd800 + (c.toNat - 0x10000) / 0x400 :=
      UInt16.toNat_ofNat_of_lt' (show _ < 65536 by omega)
    have hlow : (UInt16.ofNat (0xdc00 + (c.toNat - 0x10000) % 0x400)).toNat =
        0xdc00 + (c.toNat - 0x10000) % 0x400 :=
      UInt16.toNat_ofNat_of_lt' (show _ < 65536 by omega)
    refine .inr ⟨_, _, if_neg hsmall, isHigh_iff.mpr (by omega), isLow_iff.mpr (by omega), ?_⟩
    rw [pair, hhigh, hlow, show 0x10000 + (0xd800 + (c.toNat - 0x10000) / 0x400 - 0xd800) * 0x400 +
      (0xdc00 + (c.toNat - 0x10000) % 0x400 - 0xdc00) = c.toNat by omega, hc]

theorem encodeChar_single (hhigh : isHigh unit = false) (hlow : isLow unit = false) :
    encodeChar (single unit) = [unit] := by
  have hlt : unit.toNat < 0x10000 := unit.toNat_lt
  have hvalid : unit.toNat.isValidChar := by
    have hhigh' := mt isHigh_iff.mpr (Bool.eq_false_iff.mp hhigh)
    have hlow' := mt isLow_iff.mpr (Bool.eq_false_iff.mp hlow)
    unfold Nat.isValidChar
    omega
  rw [single, hhigh, hlow, Bool.or_false, if_neg Bool.false_ne_true, encodeChar,
    toNat_ofNat hvalid, if_pos hlt, UInt16.ofNat_toNat]

theorem encodeChar_pair (hhigh : isHigh high = true) (hlow : isLow low = true) :
    encodeChar (pair high low) = [high, low] := by
  have hhigh := isHigh_iff.mp hhigh
  have hlow := isLow_iff.mp hlow
  have hvalid : (0x10000 + (high.toNat - 0xd800) * 0x400 + (low.toNat - 0xdc00)).isValidChar := by
    unfold Nat.isValidChar
    omega
  rw [pair, encodeChar, toNat_ofNat hvalid, if_neg (by omega)]
  dsimp only
  rw [show 0xd800 + (0x10000 + (high.toNat - 0xd800) * 0x400 + (low.toNat - 0xdc00) - 0x10000) /
      0x400 = high.toNat by omega,
    show 0xdc00 + (0x10000 + (high.toNat - 0xd800) * 0x400 + (low.toNat - 0xdc00) - 0x10000) %
      0x400 = low.toNat by omega, UInt16.ofNat_toNat, UInt16.ofNat_toNat]

/-- No character begins with the second half of a pair. -/
theorem isLow_head_encodeChar (c : Char) :
    ∀ next ∈ (encodeChar c ++ units).head?, isLow next = false := by
  rintro next hnext
  rcases encodeChar_cases c with ⟨unit, hunits, -, hlow, -⟩ | ⟨high, low, hunits, hhigh, -, -⟩
  · rw [hunits] at hnext
    cases hnext
    exact hlow
  · rw [hunits] at hnext
    cases hnext
    have hrange := isHigh_iff.mp hhigh
    exact Bool.eq_false_iff.mpr (mt isLow_iff.mp (by omega))

/-! ### The units of a text -/

theorem decode_encodeChar (c : Char) (units : List UInt16) :
    decode (encodeChar c ++ units) = c :: decode units := by
  rcases encodeChar_cases c with ⟨unit, hunits, hhigh, -, rfl⟩ |
    ⟨high, low, hunits, hhigh, hlow, rfl⟩
  · rw [hunits]
    cases units with
    | nil => rfl
    | cons next units => simp [decode, hhigh]
  · rw [hunits]
    simp [decode, hhigh, hlow]

theorem single_of_surrogate (h : isHigh unit = true ∨ isLow unit = true) :
    single unit = '\ufffd' := by
  rw [single, if_pos (Bool.or_eq_true_iff.mpr h)]

theorem decode_unpaired (hsurrogate : isHigh unit = true ∨ isLow unit = true)
    (halone : isHigh unit = true → ∀ next ∈ units.head?, isLow next = false) :
    decode (unit :: units) = '\ufffd' :: decode units := by
  rw [← single_of_surrogate hsurrogate]
  cases units with
  | nil => rfl
  | cons next units =>
      have hpair : ¬(isHigh unit && isLow next) = true := by
        rw [Bool.and_eq_true]
        rintro ⟨hhigh, hlow⟩
        rw [halone hhigh next rfl] at hlow
        cases hlow
      rw [decode, if_neg hpair]

/-- A unit that begins no pair is a character of its own, or is replaced. -/
theorem Lossy.single (h : Lossy units chars)
    (halone : isHigh unit = true → ∀ next ∈ units.head?, isLow next = false) :
    Lossy (unit :: units) (single unit :: chars) := by
  by_cases hsurrogate : isHigh unit = true ∨ isLow unit = true
  · rw [single_of_surrogate hsurrogate]
    exact .unpaired hsurrogate halone h
  · obtain ⟨hhigh, hlow⟩ := not_or.mp hsurrogate
    have hchar := Lossy.char (Units.single unit) h
    rwa [encodeChar_single (Bool.eq_false_iff.mpr hhigh) (Bool.eq_false_iff.mpr hlow)] at hchar

theorem lossy_decode (units : List UInt16) : Lossy units (decode units) := by
  fun_induction decode units with
  | case1 => exact .nil
  | case2 unit => exact .single .nil fun _ _ hnext => nomatch hnext
  | case3 high low units hpair ih =>
      obtain ⟨hhigh, hlow⟩ := Bool.and_eq_true_iff.mp hpair
      have hchar := Lossy.char (pair high low) ih
      rwa [encodeChar_pair hhigh hlow] at hchar
  | case4 unit next units hpair ih =>
      refine .single ih fun hhigh other hother => ?_
      cases hother
      exact Bool.eq_false_iff.mpr fun hlow => hpair (Bool.and_eq_true_iff.mpr ⟨hhigh, hlow⟩)

/-- Every sequence of units denotes one text. -/
theorem lossy_iff : Lossy units chars ↔ decode units = chars := by
  constructor
  · intro h
    induction h with
    | nil => rfl
    | char c _ ih => rw [decode_encodeChar, ih]
    | unpaired hsurrogate halone _ ih => rw [decode_unpaired hsurrogate halone, ih]
  · rintro rfl
    exact lossy_decode units

/-- A character that stands for itself cuts what is before it from what is behind it. -/
theorem Lossy.append_char (h : Lossy units chars) (c : Char) {units' : List UInt16}
    (h' : Lossy units' chars') :
    Lossy (units ++ (encodeChar c ++ units')) (chars ++ c :: chars') := by
  induction h with
  | nil => exact .char c h'
  | char d _ ih =>
      rw [List.append_assoc]
      exact .char d ih
  | @unpaired unit units chars hsurrogate halone _ ih =>
      refine .unpaired hsurrogate (fun hhigh => ?_) ih
      cases units with
      | nil => exact isLow_head_encodeChar c
      | cons next units => exact halone hhigh

theorem lossy_encode (chars : List Char) : Lossy (encode chars) chars := by
  induction chars with
  | nil => exact .nil
  | cons c chars ih => exact .char c ih

end Units

end Text.Units

/-! ## Pieces -/

namespace Json

open Text.Units (Lossy encodeChar)

/-- The units that a piece stands for. -/
def Piece.units : Piece → List UInt16
  | .char c => encodeChar c
  | .unit u => [u]

/-- Pieces denote what their units denote all together, whatever units are pending. -/
theorem lossy_decodeAfter (pending : List UInt16) (pieces : List Piece) :
    Lossy (pending ++ pieces.flatMap Piece.units) (decodeAfter pending pieces) := by
  induction pieces generalizing pending with
  | nil =>
      rw [List.flatMap_nil, List.append_nil]
      exact Text.Units.lossy_decode pending
  | cons piece pieces ih =>
      rw [List.flatMap_cons]
      cases piece with
      | char c => exact (Text.Units.lossy_decode pending).append_char c (ih [])
      | unit unit =>
          have hpending := ih (pending ++ [unit])
          rwa [List.append_assoc] at hpending

/-! ## Spellings -/

/-- The texts that spell a character inside a string. -/
inductive CharText : List Char → Char → Prop where
  /-- The character itself, unless it means something inside a string. -/
  | raw {c : Char} (hquote : c ≠ '"') (hbackslash : c ≠ '\\') : CharText [c] c
  /-- A letter behind a backslash. -/
  | letter {letter c : Char} (h : (letter, c) ∈ escapes) : CharText ['\\', letter] c
  /-- An escape of one unit, with digits in either case. -/
  | unit {c c₁ c₂ c₃ c₄ : Char} {n₁ n₂ n₃ n₄ : Nat} (h₁ : Hex c₁ n₁) (h₂ : Hex c₂ n₂)
      (h₃ : Hex c₃ n₃) (h₄ : Hex c₄ n₄) (h : c.toNat = n₁ * 4096 + n₂ * 256 + n₃ * 16 + n₄) :
      CharText ['\\', 'u', c₁, c₂, c₃, c₄] c
  /-- Two escapes, of the surrogates of a character above U+FFFF. -/
  | pair {c c₁ c₂ c₃ c₄ d₁ d₂ d₃ d₄ : Char} {n₁ n₂ n₃ n₄ m₁ m₂ m₃ m₄ : Nat} (h₁ : Hex c₁ n₁)
      (h₂ : Hex c₂ n₂) (h₃ : Hex c₃ n₃) (h₄ : Hex c₄ n₄) (h₁' : Hex d₁ m₁) (h₂' : Hex d₂ m₂)
      (h₃' : Hex d₃ m₃) (h₄' : Hex d₄ m₄) (habove : 0xffff < c.toNat)
      (hhigh : 0xd800 + (c.toNat - 0x10000) / 0x400 = n₁ * 4096 + n₂ * 256 + n₃ * 16 + n₄)
      (hlow : 0xdc00 + (c.toNat - 0x10000) % 0x400 = m₁ * 4096 + m₂ * 256 + m₃ * 16 + m₄) :
      CharText ['\\', 'u', c₁, c₂, c₃, c₄, '\\', 'u', d₁, d₂, d₃, d₄] c

/-- The texts that spell a string between its quotes, character by character. -/
inductive StringText : List Char → List Char → Prop where
  | nil : StringText [] []
  | cons {text texts : List Char} {c : Char} {chars : List Char} (h : CharText text c)
      (hs : StringText texts chars) : StringText (text ++ texts) (c :: chars)

/-- However a character is spelled, the pieces of the text stand for the units of the character. -/
theorem CharText.exists_content {text : List Char} {c : Char} (h : CharText text c) :
    ∃ pieces, Content text pieces ∧ pieces.flatMap Piece.units = encodeChar c := by
  cases h with
  | raw hquote hbackslash =>
      exact ⟨[.char c], .cons (.plain hquote hbackslash) .nil, List.flatMap_singleton _ _⟩
  | letter hmem => exact ⟨[.char c], .cons (.letter hmem) .nil, List.flatMap_singleton _ _⟩
  | unit h₁ h₂ h₃ h₄ hc =>
      refine ⟨_, .cons (.unit h₁ h₂ h₃ h₄) .nil, ?_⟩
      have hlt : c.toNat < 0x10000 := by
        have := h₁.lt
        have := h₂.lt
        have := h₃.lt
        have := h₄.lt
        omega
      rw [← hc, encodeChar, if_pos hlt]
      rfl
  | pair h₁ h₂ h₃ h₄ h₁' h₂' h₃' h₄' habove hhigh hlow =>
      refine ⟨_, .cons (.unit h₁ h₂ h₃ h₄) (.cons (.unit h₁' h₂' h₃' h₄') .nil), ?_⟩
      rw [← hhigh, ← hlow, encodeChar, if_neg (by omega)]
      rfl

theorem Content.append {text text' : List Char} {pieces pieces' : List Piece}
    (h : Content text pieces) (h' : Content text' pieces') :
    Content (text ++ text') (pieces ++ pieces') := by
  induction h with
  | nil => exact h'
  | cons hpiece _ ih =>
      rw [List.append_assoc]
      exact .cons hpiece ih

theorem StringText.exists_content {text chars : List Char} (h : StringText text chars) :
    ∃ pieces, Content text pieces ∧ pieces.flatMap Piece.units = Text.Units.encode chars := by
  induction h with
  | nil => exact ⟨[], .nil, rfl⟩
  | cons hc _ ih =>
      obtain ⟨pieces, hcontent, hunits⟩ := hc.exists_content
      obtain ⟨pieces', hcontent', hunits'⟩ := ih
      refine ⟨pieces ++ pieces', hcontent.append hcontent', ?_⟩
      rw [List.flatMap_append, hunits, hunits']
      rfl

/-- A spelling of a string in quotes is a text of the language that denotes the string. -/
theorem StringText.quoted {text chars : List Char} (h : StringText text chars) :
    Quoted ('"' :: (text ++ ['"'])) chars := by
  obtain ⟨pieces, hcontent, hunits⟩ := h.exists_content
  have hlossy : Lossy (pieces.flatMap Piece.units) (decode pieces) := lossy_decodeAfter [] pieces
  have hchars : decode pieces = chars := by
    rw [← Text.Units.lossy_iff.mp hlossy, hunits]
    exact Text.Units.lossy_iff.mp (Text.Units.lossy_encode chars)
  rw [← hchars]
  exact .mk hcontent

/--
The pieces of a string denote what the units of all of them denote together: the units of its plain
characters, and those that escapes spell, in their places.  So a string in quotes is read as the
string itself, however each of its characters is spelled.
-/
theorem decodes_units :
    (∀ pieces, Lossy (pieces.flatMap Piece.units) (decode pieces)) ∧
      ∀ text chars, StringText text chars →
        (grammar.observe (String.ofList ('"' :: (text ++ ['"'])))).map (·.result) =
          .ok (.ok (.value (.string chars))) := by
  refine ⟨fun pieces => lossy_decodeAfter [] pieces, fun text chars htext => ?_⟩
  have hspaced : Spaced Spells ('"' :: (text ++ ['"'])) (.string chars) :=
    .of_spells (.string htext.quoted)
  have hobserve := grammar_reads.observe (String.ofList ('"' :: (text ++ ['"'])))
  rwa [String.toList_ofList, answer_iff.mpr ⟨_, hspaced, rfl⟩] at hobserve

/-- A spelling that mixes the cases of digits, raw characters and both kinds of escapes. -/
theorem decodes_mixed_spelling :
    StringText "\\uD83d\\uDe00\\nx".toList ['😀', '\n', 'x'] ∧
      (grammar.observe (String.ofList ('"' :: ("\\uD83d\\uDe00\\nx".toList ++ ['"'])))).map
        (·.result) = .ok (.ok (.value (.string ['😀', '\n', 'x']))) := by
  have hpair : CharText "\\uD83d\\uDe00".toList '😀' :=
    .pair (show Hex 'D' 13 by decide) (show Hex '8' 8 by decide) (show Hex '3' 3 by decide)
      (show Hex 'd' 13 by decide) (show Hex 'D' 13 by decide) (show Hex 'e' 14 by decide)
      (show Hex '0' 0 by decide) (show Hex '0' 0 by decide) (by decide) (by decide) (by decide)
  have htext : StringText "\\uD83d\\uDe00\\nx".toList ['😀', '\n', 'x'] :=
    .cons hpair (.cons (.letter (show ('n', '\n') ∈ escapes by decide))
      (.cons (.raw (by decide) (by decide)) .nil))
  exact ⟨htext, decodes_units.2 _ _ htext⟩

end Json

end Packrat
