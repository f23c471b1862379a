import Mathlib.Tactic.IntervalCases
import Packrat.Proofs.Json.Numbers

/-!
# Strings in JSON

The parser of strings is plain.  It reads exactly the quoted strings, whatever follows them.
-/

namespace Packrat.Json

open Packrat.Parser Reader
open Text (byteLength)

variable {limit : Nat} {stops : List Char → Prop}

/-! ## Escapes -/

instance (c : Char) (n : Nat) : Decidable (Hex c n) :=
  inferInstanceAs (Decidable (_ ∨ _))

theorem Hex.lt {c : Char} {n : Nat} (h : Hex c n) : n < 16 := by
  rcases h with h | h <;> exact (List.getElem?_eq_some_iff.mp h).1

/-- The grammar's digits are the hexadecimal ones, with their values. -/
theorem hex_iff {c : Char} {n : Nat} :
    Hex c n ↔ isHexDigit c = true ∧ hexDigit c = n := by
  constructor
  · intro h
    have hlt := h.lt
    rcases h with h | h
    all_goals
      interval_cases n <;> cases h <;> exact ⟨rfl, rfl⟩
  · rintro ⟨h, rfl⟩
    have hc : c = Char.ofNat c.toNat := (Char.ofNat_toNat c).symm
    have hrange : 48 ≤ c.toNat ∧ c.toNat ≤ 57 ∨ 97 ≤ c.toNat ∧ c.toNat ≤ 102 ∨
        65 ≤ c.toNat ∧ c.toNat ≤ 70 := by
      simp only [isHexDigit, Char.isDigit, Bool.or_eq_true, Bool.and_eq_true, decide_eq_true_eq,
        Char.le_def, UInt32.le_iff_toNat_le, ge_iff_le, or_assoc] at h
      exact h
    rw [hc]
    generalize c.toNat = n at hrange
    rcases hrange with ⟨hlow, hhigh⟩ | ⟨hlow, hhigh⟩ | ⟨hlow, hhigh⟩
    all_goals
      interval_cases n <;> decide

/-- The value of four digits. -/
theorem ofHexDigits_four {c₁ c₂ c₃ c₄ : Char} {n₁ n₂ n₃ n₄ : Nat} (h₁ : Hex c₁ n₁)
    (h₂ : Hex c₂ n₂) (h₃ : Hex c₃ n₃) (h₄ : Hex c₄ n₄) :
    ofHexDigits [c₁, c₂, c₃, c₄] = n₁ * 4096 + n₂ * 256 + n₃ * 16 + n₄ := by
  rw [← (hex_iff.mp h₁).2, ← (hex_iff.mp h₂).2, ← (hex_iff.mp h₃).2, ← (hex_iff.mp h₄).2]
  simp only [ofHexDigits, List.foldl_cons, List.foldl_nil]
  omega

/-- Characters of a kind, over and over up to a bound. -/
theorem repeatMeans_satisfy (accepts : Char → Bool) (payload : Char → Payload) {most : Nat}
    (rest : List Char) (payloads : List Payload) (count : Nat) (kept : Bool)
    (hcount : count ≤ most) :
    ∃ kept', repeatMeans (satisfy accepts payload).means (some most) .empty payloads count rest
        kept =
      ((((rest.takeWhile accepts).take (most - count)).map payload).reverse ++ payloads,
        count + ((rest.takeWhile accepts).take (most - count)).length,
        rest.drop ((rest.takeWhile accepts).take (most - count)).length, kept') := by
  induction rest generalizing payloads count kept with
  | nil =>
      by_cases hfull : count < most
      · rw [repeatMeans_of_none (by simpa [Engine.allows] using hfull) rfl]
        exact ⟨kept, by simp⟩
      · rw [repeatMeans_of_full (by simpa [Engine.allows] using hfull)]
        exact ⟨kept, by simp⟩
  | cons c rest ih =>
      by_cases hfull : count < most
      · have hroom : Engine.allows (some most) count = true := by
          simpa [Engine.allows] using hfull
        cases haccepts : accepts c with
        | false =>
            rw [repeatMeans_of_none hroom (by simp [means, haccepts])]
            exact ⟨kept, by simp [haccepts]⟩
        | true =>
            have hmeans : (satisfy accepts payload).means (LeftContent.empty.behind kept)
                (c :: rest) = some ⟨payload c, rest, true⟩ := by simp [means, haccepts]
            obtain ⟨kept', hih⟩ := ih (payload c :: payloads) (count + 1) (kept && true) hfull
            have hstep : most - count = most - (count + 1) + 1 := by omega
            rw [repeatMeans_of_some hroom hmeans,
              if_pos (by simpa using c.utf8Size_pos), hih, hstep]
            refine ⟨kept', ?_⟩
            simp [haccepts, Nat.add_assoc, Nat.add_comm 1]
      · rw [repeatMeans_of_full (by simpa [Engine.allows] using hfull)]
        have hzero : most - count = 0 := by omega
        exact ⟨kept, by simp [hzero]⟩

/-- Exactly so many characters of a kind. -/
theorem exactly_exact (accepts : Char → Bool) (n : Nat) :
    Exact limit (repeated (charIn accepts) n (some n) .concat).read
      (Verbatim fun text => text.length = n ∧ ∀ c ∈ text, accepts c = true) (fun _ => True) := by
  have hread : ∀ rest, (repeated (charIn accepts) n (some n) .concat).read rest =
      if ((rest.takeWhile accepts).take n).length < n then none
      else some (.text ((rest.takeWhile accepts).take n),
        rest.drop ((rest.takeWhile accepts).take n).length) := by
    intro rest
    obtain ⟨kept, hmeans⟩ := repeatMeans_satisfy accepts (fun c => .text [c]) rest [] 0 true
      (Nat.zero_le n)
    rw [Parser.read, means, charIn, hmeans]
    simp only [Nat.sub_zero, Nat.zero_add, List.append_nil, List.reverse_reverse, Payload.concat,
      map_text_flatMap]
    split <;> rfl
  constructor
  · intro rest x shorter _ hsome
    rw [hread] at hsome
    obtain ⟨hlong, heq⟩ := Option.ite_none_left_eq_some.mp hsome
    cases heq
    have hprefix : (rest.takeWhile accepts).take n <+: rest :=
      (List.take_prefix _ _).trans (List.takeWhile_prefix _)
    refine ⟨_, (List.prefix_iff_eq_append.mp hprefix).symm, ⟨?_, ?_⟩, rfl⟩
    · have hle := List.length_take_le n (rest.takeWhile accepts)
      omega
    · intro c hc
      exact List.all_eq_true.mp List.all_takeWhile c (List.mem_of_mem_take hc)
  · rintro text x shorter - ⟨⟨rfl, haccepts⟩, rfl⟩ -
    rw [hread, List.takeWhile_append_of_pos haccepts, List.take_left, if_neg (Nat.lt_irrefl _),
      List.drop_left]

theorem unicodeEscape_exact :
    Exact limit unicodeEscape.read
      (fun text payload => ∃ unit, PieceText text (.unit unit) ∧ payload = .piece (.unit unit))
      (fun _ => True) := by
  rw [unicodeEscape, read_map, read_sequence]
  refine (((Exact.all_cons (literal_exact _ _) (Exact.all_cons (exactly_exact isHexDigit 4)
    Exact.all_nil fun _ _ _ _ _ => trivial) fun _ _ _ _ _ => trivial).map _).map _).congr ?_
    fun _ => id
  intro text payload
  constructor
  · rintro ⟨_, ⟨_, ⟨_, _, _, _, rfl, rfl, ⟨rfl, rfl⟩, digits, _, _, _, rfl, rfl,
      ⟨⟨hlength, hdigits⟩, rfl⟩, rfl, rfl⟩, rfl⟩, rfl⟩
    match digits, hlength with
    | [c₁, c₂, c₃, c₄], _ =>
        simp only [List.forall_mem_cons] at hdigits
        obtain ⟨hc₁, hc₂, hc₃, hc₄, -⟩ := hdigits
        have h₁ := hex_iff.mpr ⟨hc₁, rfl⟩
        have h₂ := hex_iff.mpr ⟨hc₂, rfl⟩
        have h₃ := hex_iff.mpr ⟨hc₃, rfl⟩
        have h₄ := hex_iff.mpr ⟨hc₄, rfl⟩
        refine ⟨_, .unit h₁ h₂ h₃ h₄, ?_⟩
        rw [← ofHexDigits_four h₁ h₂ h₃ h₄]
        rfl
  · rintro ⟨unit, hpiece, rfl⟩
    cases hpiece with
    | @unit c₁ c₂ c₃ c₄ n₁ n₂ n₃ n₄ h₁ h₂ h₃ h₄ =>
        refine ⟨_, ⟨_, ⟨['\\', 'u'], [c₁, c₂, c₃, c₄], _, _, rfl, rfl, ⟨rfl, rfl⟩,
          [c₁, c₂, c₃, c₄], [], _, _, rfl, rfl, ⟨⟨rfl, ?_⟩, rfl⟩, rfl, rfl⟩, rfl⟩, ?_⟩
        · simp [(hex_iff.mp h₁).1, (hex_iff.mp h₂).1, (hex_iff.mp h₃).1, (hex_iff.mp h₄).1]
        · rw [← ofHexDigits_four h₁ h₂ h₃ h₄]
          rfl

/-- The letters behind a backslash are those of the table, and denote the same. -/
theorem mem_escapes_iff {letter c : Char} :
    (letter, c) ∈ escapes ↔
      "\"\\/bfnrt".toList.contains letter = true ∧ c = unescape letter := by
  constructor
  · intro h
    simp only [escapes, List.mem_cons, Prod.mk.injEq, List.not_mem_nil, or_false] at h
    rcases h with ⟨rfl, rfl⟩ | ⟨rfl, rfl⟩ | ⟨rfl, rfl⟩ | ⟨rfl, rfl⟩ | ⟨rfl, rfl⟩ | ⟨rfl, rfl⟩ |
      ⟨rfl, rfl⟩ | ⟨rfl, rfl⟩ <;> decide
  · rintro ⟨h, rfl⟩
    rw [List.contains_iff_mem] at h
    rcases (by simpa using h : letter = '"' ∨ letter = '\\' ∨ letter = '/' ∨ letter = 'b' ∨
      letter = 'f' ∨ letter = 'n' ∨ letter = 'r' ∨ letter = 't') with
      rfl | rfl | rfl | rfl | rfl | rfl | rfl | rfl <;> decide

theorem letterEscape_exact :
    Exact limit letterEscape.read
      (fun text payload => ∃ letter c, text = ['\\', letter] ∧ (letter, c) ∈ escapes ∧
        payload = .piece (.char c)) (fun _ => True) := by
  rw [letterEscape, read_sequence]
  refine ((Exact.all_cons (charIn_exact _) (Exact.all_cons (satisfy_exact _ _) Exact.all_nil
    fun _ _ _ _ _ => trivial) fun _ _ _ _ _ => trivial).map _).congr ?_ fun _ => id
  intro text payload
  constructor
  · rintro ⟨_, ⟨_, _, _, _, rfl, rfl, ⟨⟨c, rfl, hc⟩, rfl⟩, _, _, _, _, rfl, rfl,
      ⟨letter, rfl, hletter, rfl⟩, rfl, rfl⟩, rfl⟩
    obtain rfl := eq_of_beq hc
    exact ⟨letter, _, rfl, mem_escapes_iff.mpr ⟨hletter, rfl⟩, rfl⟩
  · rintro ⟨letter, c, rfl, hmem, rfl⟩
    obtain ⟨hletter, rfl⟩ := mem_escapes_iff.mp hmem
    exact ⟨_, ⟨['\\'], [letter], _, _, rfl, rfl, ⟨⟨'\\', rfl, rfl⟩, rfl⟩, [letter], [], _, _, rfl,
      rfl, ⟨letter, rfl, hletter, rfl⟩, rfl, rfl⟩, rfl⟩

theorem plainChar_exact :
    Exact limit plainChar.read
      (fun text payload => ∃ c, text = [c] ∧ c ≠ '"' ∧ c ≠ '\\' ∧ payload = .piece (.char c))
      (fun _ => True) := by
  refine (satisfy_exact _ _).congr ?_ fun _ => id
  intro text payload
  simp only [Bool.and_eq_true, bne_iff_ne, and_assoc]

/-! ## Pieces -/

/-- The payload is the piece that the text spells. -/
def Spelled (text : List Char) (payload : Payload) : Prop :=
  ∃ piece, PieceText text piece ∧ payload = .piece piece

/-- An escape of a letter is not the escape of a unit. -/
theorem unicodeEscape_refuses {letter c : Char} {rest : List Char}
    (h : (letter, c) ∈ escapes) : unicodeEscape.read ('\\' :: letter :: rest) = none := by
  cases hread : unicodeEscape.read ('\\' :: letter :: rest) with
  | none => rfl
  | some found =>
      obtain ⟨text, heq, unit, hpiece, -⟩ :=
        unicodeEscape_exact.sound (Nat.lt_succ_self _) hread
      cases hpiece
      cases heq
      revert h
      simp [escapes]

theorem escape_refuses {c : Char} {rest : List Char} (h : c ≠ '\\') :
    unicodeEscape.read (c :: rest) = none ∧ letterEscape.read (c :: rest) = none := by
  have hunlike : Unlike (· == '\\') (c :: rest) := unlike_cons.mpr (beq_eq_false_iff_ne.mpr h)
  refine ⟨unicodeEscape_exact.eq_none ?_ (Nat.lt_succ_self _) hunlike,
    letterEscape_exact.eq_none ?_ (Nat.lt_succ_self _) hunlike⟩
  · rintro text x ⟨unit, hpiece, -⟩
    cases hpiece
    exact ⟨_, _, rfl, rfl⟩
  · rintro text x ⟨letter, c, rfl, -⟩
    exact ⟨_, _, rfl, rfl⟩

theorem piece_exact :
    Exact limit (firstOf [unicodeEscape, letterEscape, plainChar]).read Spelled
      (fun _ => True) := by
  rw [read_firstOf]
  refine (unicodeEscape_exact.first_cons (letterEscape_exact.first_cons
    (plainChar_exact.first_cons Exact.first_nil ?_) ?_) ?_).congr ?_ fun _ => id
  · exact fun _ _ _ _ hnone _ => hnone.elim
  · rintro text x shorter - (⟨c, rfl, -, hc, -⟩ | hnone) -
    · exact (escape_refuses hc).2
    · exact hnone.elim
  · rintro text x shorter - (⟨letter, c, rfl, hmem, -⟩ | ⟨c, rfl, -, hc, -⟩ | hnone) -
    · exact unicodeEscape_refuses hmem
    · exact (escape_refuses hc).1
    · exact hnone.elim
  · intro text x
    constructor
    · rintro (⟨unit, hpiece, rfl⟩ | ⟨letter, c, rfl, hmem, rfl⟩ | ⟨c, rfl, hquote, hc, rfl⟩ | hnone)
      · exact ⟨.unit unit, hpiece, rfl⟩
      · exact ⟨.char c, .letter hmem, rfl⟩
      · exact ⟨.char c, .plain hquote hc, rfl⟩
      · exact hnone.elim
    · rintro ⟨piece, hpiece, rfl⟩
      cases hpiece with
      | plain hquote hc => exact .inr (.inr (.inl ⟨_, rfl, hquote, hc, rfl⟩))
      | letter hmem => exact .inr (.inl ⟨_, _, rfl, hmem, rfl⟩)
      | unit h₁ h₂ h₃ h₄ => exact .inl ⟨_, .unit h₁ h₂ h₃ h₄, rfl⟩

theorem leads_spelled : Leads (· != '"') Spelled := by
  rintro text x ⟨piece, hpiece, -⟩
  cases hpiece with
  | plain hquote => exact ⟨_, _, rfl, bne_iff_ne.mpr hquote⟩
  | letter => exact ⟨_, _, rfl, rfl⟩
  | unit => exact ⟨_, _, rfl, rfl⟩

theorem star_spelled_iff {text : List Char} {payloads : List Payload} :
    Star Spelled text payloads ↔
      ∃ pieces, Content text pieces ∧ payloads = pieces.map .piece := by
  constructor
  · intro h
    induction h with
    | nil => exact ⟨[], .nil, rfl⟩
    | cons h _ ih =>
        obtain ⟨piece, hpiece, rfl⟩ := h
        obtain ⟨pieces, hpieces, rfl⟩ := ih
        exact ⟨piece :: pieces, .cons hpiece hpieces, rfl⟩
  · rintro ⟨pieces, h, rfl⟩
    induction h with
    | nil => exact .nil
    | cons h _ ih => exact .cons ⟨_, h, rfl⟩ ih

theorem filterMap_pieces (pieces : List Piece) :
    (pieces.map Payload.piece).filterMap Payload.piece? = pieces := by
  rw [List.filterMap_map]
  exact List.filterMap_some

/-! ## Quoted strings -/

/-- The content of a string goes on until a character that begins no piece. -/
theorem content_exact :
    Exact limit (many (firstOf [unicodeEscape, letterEscape, plainChar]) fun payloads =>
        Payload.text (decode (payloads.filterMap Payload.piece?))).read
      (fun text payload => ∃ pieces, Content text pieces ∧ payload = .text (decode pieces))
      (Unlike (· != '"')) := by
  have hne : ∀ text payload, Spelled text payload → text ≠ [] := by
    intro text payload h
    obtain ⟨c, cs, rfl, -⟩ := leads_spelled _ _ h
    exact List.cons_ne_nil _ _
  have hmany : (many (firstOf [unicodeEscape, letterEscape, plainChar]) fun payloads =>
        Payload.text (decode (payloads.filterMap Payload.piece?))).read =
      Reader.map (fun payloads => .text (decode (payloads.filterMap Payload.piece?)))
        fun rest => some (Reader.many
          (firstOf [unicodeEscape, letterEscape, plainChar]).read rest) := by
    funext rest
    exact read_many _ _ rest
  rw [hmany]
  refine ((piece_exact.many hne fun _ _ _ _ _ => trivial).map _).congr ?_ ?_
  · intro text payload
    constructor
    · rintro ⟨payloads, hstar, rfl⟩
      obtain ⟨pieces, hcontent, rfl⟩ := star_spelled_iff.mp hstar
      exact ⟨pieces, hcontent, by rw [filterMap_pieces]⟩
    · rintro ⟨pieces, hcontent, rfl⟩
      exact ⟨_, star_spelled_iff.mpr ⟨pieces, hcontent, rfl⟩, by rw [filterMap_pieces]⟩
  · intro rest hrest
    exact ⟨trivial, piece_exact.eq_none leads_spelled (Nat.lt_succ_self _) hrest⟩

theorem quote_exact :
    Exact limit (charIn (· == '"')).read (fun text x => text = ['"'] ∧ x = .text ['"'])
      (fun _ => True) := by
  refine (charIn_exact _).congr ?_ fun _ => id
  intro text x
  constructor
  · rintro ⟨⟨c, rfl, hc⟩, rfl⟩
    rw [eq_of_beq hc]
    exact ⟨rfl, rfl⟩
  · rintro ⟨rfl, rfl⟩
    exact ⟨⟨'"', rfl, rfl⟩, rfl⟩

theorem string_exact :
    Exact limit string.read (fun text payload => ∃ chars, Quoted text chars ∧
      payload = .text chars) (fun _ => True) := by
  rw [string, read_sequence]
  refine ((Exact.all_cons quote_exact (Exact.all_cons content_exact (Exact.all_cons quote_exact
    Exact.all_nil fun _ _ _ _ _ => trivial) ?_) fun _ _ _ _ _ => trivial).map _).congr ?_
    fun _ => id
  · rintro text xs shorter ⟨_, _, _, _, rfl, -, ⟨rfl, -⟩, -⟩ -
    exact unlike_cons.mpr rfl
  · intro text payload
    constructor
    · rintro ⟨_, ⟨_, _, _, _, rfl, rfl, ⟨rfl, rfl⟩, content, _, _, _, rfl, rfl,
        ⟨pieces, hcontent, rfl⟩, _, _, _, _, rfl, rfl, ⟨rfl, rfl⟩, rfl, rfl⟩, rfl⟩
      exact ⟨_, .mk hcontent, rfl⟩
    · rintro ⟨chars, hquoted, rfl⟩
      cases hquoted with
      | @mk text pieces hcontent =>
          exact ⟨_, ⟨['"'], text ++ ['"'], _, _, rfl, rfl, ⟨rfl, rfl⟩, text, ['"'], _, _, rfl, rfl,
            ⟨pieces, hcontent, rfl⟩, ['"'], [], _, _, rfl, rfl, ⟨rfl, rfl⟩, rfl, rfl⟩, rfl⟩

end Packrat.Json
