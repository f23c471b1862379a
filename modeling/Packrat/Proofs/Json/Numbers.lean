import Packrat.Proofs.Json.Syntax
import Packrat.Proofs.Reader.Exact

/-!
# Numbers in JSON

The parser of numbers is plain, and joins the texts of its parts.  What it reads is exactly the
language of literals, in front of whatever does not go on with a literal.
-/

namespace Packrat.Json

open Packrat.Parser Reader
open Text (byteLength)

variable {limit : Nat} {stops : List Char → Prop}

/-! ## Texts as payloads -/

/-- The payload is the text itself. -/
def Verbatim (language : List Char → Prop) (text : List Char) (payload : Payload) : Prop :=
  language text ∧ payload = .text text

theorem charIn_exact (accepts : Char → Bool) :
    Exact limit (charIn accepts).read
      (Verbatim fun text => ∃ c, text = [c] ∧ accepts c = true) (fun _ => True) := by
  refine (satisfy_exact accepts _).congr ?_ fun _ => id
  intro text payload
  constructor
  · rintro ⟨c, rfl, haccepts, rfl⟩
    exact ⟨⟨c, rfl, haccepts⟩, rfl⟩
  · rintro ⟨⟨c, rfl, haccepts⟩, rfl⟩
    exact ⟨c, rfl, haccepts, rfl⟩

@[simp] theorem map_text_flatMap (text : List Char) :
    (text.map fun c => Payload.text [c]).flatMap Payload.toChars = text := by
  rw [List.flatMap_map]
  exact List.flatMap_singleton' text

theorem digits_exact :
    Exact limit digits.read (Verbatim fun text => text ≠ [] ∧ AllDigits text)
      (Unlike Char.isDigit) where
  sound {rest x shorter} _ hread := by
    rw [digits, charIn, read_many1_satisfy] at hread
    obtain ⟨hne, heq⟩ := Option.ite_none_left_eq_some.mp hread
    cases heq
    refine ⟨rest.takeWhile Char.isDigit, List.takeWhile_append_dropWhile.symm, ⟨hne, ?_⟩, ?_⟩
    · exact List.all_eq_true.mp List.all_takeWhile
    · rw [Payload.concat, map_text_flatMap]
  complete _ hx hstop := by
    obtain ⟨⟨hne, hdigits⟩, rfl⟩ := hx
    rw [digits, charIn, read_many1_satisfy, hstop.takeWhile_append hdigits,
      hstop.dropWhile_append hdigits, if_neg hne, Payload.concat, map_text_flatMap]

/-- A part that may be missing. -/
theorem orEmpty_exact {parser : Parser Payload} {language : List Char → Prop}
    {accepts : Char → Bool} (h : Exact limit parser.read (Verbatim language) stops)
    (hleads : Leads accepts (Verbatim language)) :
    Exact limit (orEmpty parser).read (Verbatim fun text => text = [] ∨ language text)
      (fun rest => stops rest ∧ Unlike accepts rest) := by
  rw [orEmpty, read_optional]
  refine (h.optional hleads).congr ?_ fun _ => id
  intro text payload
  constructor
  · rintro (⟨x, ⟨htext, rfl⟩, rfl⟩ | ⟨rfl, rfl⟩)
    · exact ⟨.inr htext, rfl⟩
    · exact ⟨.inl rfl, rfl⟩
  · rintro ⟨rfl | htext, rfl⟩
    · exact .inr ⟨rfl, rfl⟩
    · exact .inl ⟨_, ⟨htext, rfl⟩, rfl⟩

/-! ## Sequences of texts -/

/-- The payloads are texts one behind another. -/
def VerbatimAll : List (List Char → Prop) → List Char → List Payload → Prop
  | [], text, payloads => text = [] ∧ payloads = []
  | language :: languages, text, payloads =>
      ∃ first others payloads', text = first ++ others ∧
        payloads = .text first :: payloads' ∧ language first ∧
          VerbatimAll languages others payloads'

theorem VerbatimAll.concat {languages : List (List Char → Prop)} {text : List Char}
    {payloads : List Payload} (h : VerbatimAll languages text payloads) :
    Payload.concat payloads = .text text := by
  induction languages generalizing text payloads with
  | nil =>
      obtain ⟨rfl, rfl⟩ := h
      rfl
  | cons language languages ih =>
      obtain ⟨first, others, payloads', rfl, rfl, -, hothers⟩ := h
      have hconcat := ih hothers
      rw [Payload.concat, Payload.text.injEq] at hconcat
      rw [Payload.concat, List.flatMap_cons, hconcat]
      rfl

theorem verbatimAll_nil : Exact limit (Reader.all []) (VerbatimAll []) stops :=
  Exact.all_nil

theorem verbatimAll_cons {reader : Reader Payload} {readers : List (Reader Payload)}
    {language : List Char → Prop} {languages : List (List Char → Prop)}
    {stops' : List Char → Prop} (h : Exact limit reader (Verbatim language) stops)
    (hothers : Exact limit (Reader.all readers) (VerbatimAll languages) stops')
    (hstops : ∀ text xs shorter, VerbatimAll languages text xs → stops' shorter →
      stops (text ++ shorter)) :
    Exact limit (Reader.all (reader :: readers)) (VerbatimAll (language :: languages)) stops' := by
  refine (Exact.all_cons h hothers hstops).congr ?_ fun _ => id
  intro text payloads
  constructor
  · rintro ⟨first, others, x, payloads', rfl, rfl, ⟨hfirst, rfl⟩, hall⟩
    exact ⟨first, others, payloads', rfl, rfl, hfirst, hall⟩
  · rintro ⟨first, others, payloads', rfl, rfl, hfirst, hall⟩
    exact ⟨first, others, .text first, payloads', rfl, rfl, ⟨hfirst, rfl⟩, hall⟩

/-- A sequence whose payloads are joined. -/
theorem concat_exact {parts : List (Parser Payload)} {languages : List (List Char → Prop)}
    {language : List Char → Prop}
    (h : Exact limit (Reader.all (parts.map read)) (VerbatimAll languages) stops)
    (hlanguage : ∀ text, (∃ payloads, VerbatimAll languages text payloads) ↔ language text) :
    Exact limit (sequence parts .concat).read (Verbatim language) stops := by
  rw [read_sequence]
  refine (h.map Payload.concat).congr ?_ fun _ => id
  intro text payload
  rw [Verbatim, ← hlanguage]
  constructor
  · rintro ⟨payloads, hall, rfl⟩
    exact ⟨⟨payloads, hall⟩, hall.concat⟩
  · rintro ⟨⟨payloads, hall⟩, rfl⟩
    exact ⟨payloads, hall, hall.concat.symm⟩

/-! ## Numbers -/

/-- The text of a fraction that may be missing. -/
def FractionText (text : List Char) : Prop := text ≠ [] ∧ ∃ digits, Fraction text digits

/-- The text of an exponent that may be missing. -/
def ExponentText (text : List Char) : Prop :=
  text ≠ [] ∧ ∃ negative digits, Exponent text negative digits

/-- The digits that a whole number of several digits may begin with. -/
theorem nonzero_iff {c : Char} :
    ('1' ≤ c && c ≤ '9') = true ↔ c.isDigit = true ∧ c ≠ '0' := by
  have hzero : c = '0' ↔ c.toNat = 48 := by
    rw [← Char.toNat_inj]
    rfl
  simp only [Char.isDigit, Bool.and_eq_true, decide_eq_true_eq, Char.le_def, UInt32.le_iff_toNat_le,
    ge_iff_le, ne_eq, hzero, Char.toNat]
  simp
  omega

theorem integer_read (c : Char) (rest : List Char) :
    integer.read (c :: rest) =
      if c = '0' then some (.text ['0'], rest)
      else if c.isDigit then
        some (.text (c :: rest.takeWhile Char.isDigit), rest.dropWhile Char.isDigit)
      else none := by
  simp only [integer, read_firstOf, List.map_cons, List.map_nil, Reader.first,
    read_literal_singleton, read_sequence, Reader.map, Reader.all, charIn, read_satisfy,
    read_many_satisfy, Option.or_none]
  by_cases hzero : c = '0'
  · rw [if_pos hzero, if_pos hzero, Option.some_or]
  · rw [if_neg hzero, if_neg hzero, Option.none_or]
    by_cases hdigit : c.isDigit = true
    · rw [if_pos hdigit, if_pos (nonzero_iff.mpr ⟨hdigit, hzero⟩)]
      simp [Payload.concat, Payload.toChars]
    · rw [if_neg hdigit, if_neg fun h => hdigit (nonzero_iff.mp h).1]
      rfl

theorem integer_exact : Exact limit integer.read (Verbatim Whole) (Unlike Char.isDigit) where
  sound {rest x shorter} _ hread := by
    cases rest with
    | nil => cases hread
    | cons c rest =>
        rw [integer_read] at hread
        by_cases hzero : c = '0'
        · rw [if_pos hzero] at hread
          cases hread
          exact ⟨['0'], by rw [hzero]; rfl, .zero, rfl⟩
        · rw [if_neg hzero] at hread
          obtain ⟨hdigit, heq⟩ := Option.ite_none_right_eq_some.mp hread
          cases heq
          refine ⟨c :: rest.takeWhile Char.isDigit, ?_, .positive hdigit hzero ?_, rfl⟩
          · rw [List.cons_append, List.takeWhile_append_dropWhile]
          · exact List.all_eq_true.mp List.all_takeWhile
  complete _ hx hstop := by
    obtain ⟨hwhole, rfl⟩ := hx
    cases hwhole with
    | zero => exact integer_read _ _
    | @positive c digits hc hne hdigits =>
        rw [List.cons_append, integer_read, if_neg hne, if_pos hc,
          hstop.takeWhile_append hdigits, hstop.dropWhile_append hdigits]

theorem fraction_exact :
    Exact limit fraction.read
      (Verbatim FractionText) (Unlike Char.isDigit) := by
  refine concat_exact (verbatimAll_cons (charIn_exact _)
    (verbatimAll_cons digits_exact verbatimAll_nil ?_) fun _ _ _ _ _ => trivial) ?_
  · rintro text payloads shorter ⟨rfl, -⟩ hstop
    exact hstop
  · intro text
    constructor
    · rintro ⟨payloads, _, _, _, rfl, -, ⟨c, rfl, hc⟩, digits, _, _, rfl, -, ⟨hne, hdigits⟩, rfl, -⟩
      obtain rfl : c = '.' := by simpa using hc
      rw [List.append_nil]
      exact ⟨List.cons_ne_nil _ _, digits, .present hne hdigits⟩
    · rintro ⟨hne, digits, hfraction⟩
      cases hfraction with
      | absent => exact absurd rfl hne
      | present hdigitsNe hdigits =>
          exact ⟨_, ['.'], digits, _, rfl, rfl, ⟨'.', rfl, rfl⟩, digits, [], _,
            (List.append_nil _).symm, rfl, ⟨hdigitsNe, hdigits⟩, rfl, rfl⟩

theorem sign_exact (accepts : Char → Bool) :
    Exact limit (orEmpty (charIn accepts)).read
      (Verbatim fun text => text = [] ∨ ∃ c, text = [c] ∧ accepts c = true) (Unlike accepts) := by
  have hleads : Leads accepts (Verbatim fun text => ∃ c, text = [c] ∧ accepts c = true) := by
    rintro text x ⟨⟨c, rfl, haccepts⟩, -⟩
    exact ⟨c, [], rfl, haccepts⟩
  refine (orEmpty_exact (charIn_exact accepts) hleads).congr (fun _ _ => Iff.rfl) ?_
  exact fun rest hstop => ⟨trivial, hstop⟩

theorem unlike_sign_of_digits {text rest : List Char} {accepts : Char → Bool} (hne : text ≠ [])
    (hdigits : AllDigits text) (hsign : ∀ c, accepts c = true → c.isDigit = false) :
    Unlike accepts (text ++ rest) := by
  cases text with
  | nil => exact absurd rfl hne
  | cons c cs =>
      rw [List.cons_append, unlike_cons]
      refine Bool.eq_false_iff.mpr fun haccepts => ?_
      have hdigit := hdigits c (List.mem_cons_self ..)
      rw [hsign c haccepts] at hdigit
      cases hdigit

theorem exponent_exact :
    Exact limit exponent.read
      (Verbatim ExponentText) (Unlike Char.isDigit) := by
  refine concat_exact (verbatimAll_cons (charIn_exact _) (verbatimAll_cons (sign_exact _)
    (verbatimAll_cons digits_exact verbatimAll_nil ?_) ?_) fun _ _ _ _ _ => trivial) ?_
  · rintro text payloads shorter ⟨rfl, -⟩ hstop
    exact hstop
  · rintro text payloads shorter ⟨digits, _, _, rfl, -, ⟨hne, hdigits⟩, -⟩ -
    rw [List.append_assoc]
    refine unlike_sign_of_digits hne hdigits ?_
    intro c hc
    rcases (by simpa using hc : c = '+' ∨ c = '-') with rfl | rfl <;> rfl
  · intro text
    constructor
    · rintro ⟨payloads, _, _, _, rfl, -, ⟨letter, rfl, hletter⟩, sign, _, _, rfl, -, hsign, digits,
        _, _, rfl, -, ⟨hne, hdigits⟩, rfl, -⟩
      rw [List.append_nil]
      refine ⟨List.cons_ne_nil _ _, ?_⟩
      have hletter : letter = 'e' ∨ letter = 'E' := by simpa using hletter
      rcases hsign with rfl | ⟨c, rfl, hc⟩
      · exact ⟨false, digits, .present hletter .absent hne hdigits⟩
      · rcases (by simpa using hc : c = '+' ∨ c = '-') with rfl | rfl
        · exact ⟨false, digits, .present hletter .plus hne hdigits⟩
        · exact ⟨true, digits, .present hletter .minus hne hdigits⟩
    · rintro ⟨hne, negative, digits, hexponent⟩
      cases hexponent with
      | absent => exact absurd rfl hne
      | @present letter sign digits negative hletter hsign hdigitsNe hdigits =>
          refine ⟨_, [letter], sign ++ digits, _, rfl, rfl, ⟨letter, rfl, ?_⟩, sign, digits, _, rfl,
            rfl, ?_, digits, [], _, (List.append_nil _).symm, rfl, ⟨hdigitsNe, hdigits⟩, rfl, rfl⟩
          · simpa using hletter
          · cases hsign with
            | absent => exact .inl rfl
            | plus => exact .inr ⟨'+', rfl, rfl⟩
            | minus => exact .inr ⟨'-', rfl, rfl⟩

/-! ### The numeral of a literal -/

theorem takeSign_append {sign digits : List Char} {negative : Bool} {c : Char}
    (h : Sign sign negative) (hc : c.isDigit = true) :
    Decimal.Numeral.takeSign (sign ++ c :: digits) = (negative, c :: digits) := by
  cases h with
  | plus => rfl
  | minus => rfl
  | absent =>
      rw [List.nil_append, Decimal.Numeral.takeSign]
      · rintro rest heq
        cases heq
        cases hc
      · rintro rest heq
        cases heq
        cases hc

theorem Whole.allDigits {text : List Char} (h : Whole text) : AllDigits text := by
  cases h with
  | zero => exact fun c hc => by rw [List.mem_singleton.mp hc]; rfl
  | positive hc _ hdigits => exact List.forall_mem_cons.mpr ⟨hc, hdigits⟩

theorem Whole.exists_cons {text : List Char} (h : Whole text) :
    ∃ c cs, text = c :: cs ∧ c.isDigit = true := by
  cases h with
  | zero => exact ⟨'0', [], rfl, rfl⟩
  | positive hc => exact ⟨_, _, rfl, hc⟩

/-- What stands behind the digits of a number does not go on with them. -/
theorem Exponent.unlike {text digits shorter : List Char} {negative : Bool}
    {accepts : Char → Bool} (h : Exponent text negative digits) (he : accepts 'e' = false)
    (hE : accepts 'E' = false) (hstop : Unlike accepts shorter) :
    Unlike accepts (text ++ shorter) := by
  cases h with
  | absent => exact hstop
  | present hletter =>
      rw [List.cons_append, unlike_cons]
      rcases hletter with rfl | rfl
      · exact he
      · exact hE

theorem Fraction.unlike_digit {text digits shorter : List Char} (h : Fraction text digits)
    (hstop : Unlike Char.isDigit shorter) : Unlike Char.isDigit (text ++ shorter) := by
  cases h with
  | absent => exact hstop
  | present => exact unlike_cons.mpr rfl

/-- The letter of an exponent is dropped, whichever it is. -/
theorem Exponent.takeSign_tail {text digits : List Char} {negative : Bool} :
    Exponent text negative digits →
      (match text with
        | _ :: rest => Decimal.Numeral.takeSign rest
        | [] => (false, [])) = (negative, digits) := by
  intro h
  cases h with
  | absent => rfl
  | @present letter sign digits negative hletter hsign hne hdigits =>
      obtain ⟨c, cs, rfl⟩ := List.exists_cons_of_ne_nil hne
      exact takeSign_append hsign (hdigits c (List.mem_cons_self ..))

/-- A literal is read as the numeral that it is. -/
theorem Literal.ofChars_eq {text : List Char} {numeral : Decimal.Numeral}
    (h : Literal text numeral) : Decimal.Numeral.ofChars text = numeral := by
  obtain @⟨sign, whole, fraction, exponent, fractionDigits, exponentDigits, negative,
    exponentNegative, hsign, -, hwhole, hfraction, hexponent⟩ := h
  obtain ⟨c, cs, hcs, hc⟩ := hwhole.exists_cons
  have hrest : Unlike Char.isDigit exponent := by
    simpa using hexponent.unlike rfl rfl (unlike_nil Char.isDigit)
  have htake : Decimal.Numeral.takeSign (sign ++ (whole ++ (fraction ++ exponent))) =
      (negative, whole ++ (fraction ++ exponent)) := by
    rw [hcs]
    exact takeSign_append hsign hc
  have hbehind : Unlike Char.isDigit (fraction ++ exponent) := hfraction.unlike_digit hrest
  rw [Decimal.Numeral.ofChars, htake]
  dsimp only
  rw [hbehind.takeWhile_append hwhole.allDigits, hbehind.dropWhile_append hwhole.allDigits]
  have hparts := hexponent.takeSign_tail
  cases hfraction with
  | absent =>
      cases hexponent with
      | absent => rfl
      | present hletter =>
          dsimp only at hparts
          rcases hletter with rfl | rfl <;> simp [hparts]
  | present hne hdigits =>
      simp only [List.cons_append, hrest.takeWhile_append hdigits,
        hrest.dropWhile_append hdigits, Decimal.Numeral.mk.injEq, true_and]
      exact ⟨congrArg Prod.fst hparts, congrArg Prod.snd hparts⟩

/-! ### Literals -/

/-- What goes on with a literal. -/
def continues (c : Char) : Bool := c.isDigit || c == '.' || c == 'e' || c == 'E'

theorem digit_continues {c : Char} (h : c.isDigit = true) : continues c = true := by
  simp [continues, h]

theorem exists_fraction_iff {text : List Char} :
    text = [] ∨ FractionText text ↔ ∃ digits, Fraction text digits := by
  constructor
  · rintro (rfl | ⟨-, h⟩)
    · exact ⟨[], .absent⟩
    · exact h
  · intro h
    by_cases hnil : text = []
    · exact .inl hnil
    · exact .inr ⟨hnil, h⟩

theorem exists_exponent_iff {text : List Char} :
    text = [] ∨ ExponentText text ↔ ∃ negative digits, Exponent text negative digits := by
  constructor
  · rintro (rfl | ⟨-, h⟩)
    · exact ⟨false, [], .absent⟩
    · exact h
  · intro h
    by_cases hnil : text = []
    · exact .inl hnil
    · exact .inr ⟨hnil, h⟩

/-- The parts of a number, and what payload they make together. -/
theorem literal_iff {text : List Char} :
    (∃ payloads, VerbatimAll
      [fun text => text = [] ∨ ∃ c, text = [c] ∧ (c == '-') = true, Whole,
        fun text => text = [] ∨ FractionText text, fun text => text = [] ∨ ExponentText text]
      text payloads) ↔ ∃ numeral, Literal text numeral := by
  constructor
  · rintro ⟨payloads, sign, _, _, rfl, -, hsign, whole, _, _, rfl, -, hwhole, fraction, _, _, rfl,
      -, hfraction, exponent, _, _, rfl, -, hexponent, rfl, -⟩
    rw [List.append_nil]
    obtain ⟨fractionDigits, hfraction⟩ := exists_fraction_iff.mp hfraction
    obtain ⟨negative, exponentDigits, hexponent⟩ := exists_exponent_iff.mp hexponent
    rcases hsign with rfl | ⟨c, rfl, hc⟩
    · exact ⟨_, .mk .absent (by simp) hwhole hfraction hexponent⟩
    · obtain rfl := eq_of_beq hc
      exact ⟨_, .mk .minus (by simp) hwhole hfraction hexponent⟩
  · rintro ⟨numeral, @⟨sign, whole, fraction, exponent, fractionDigits, exponentDigits, negative,
      exponentNegative, hsign, hplus, hwhole, hfraction, hexponent⟩⟩
    refine ⟨_, sign, _, _, rfl, rfl, ?_, whole, _, _, rfl, rfl, hwhole, fraction, _, _, rfl, rfl,
      exists_fraction_iff.mpr ⟨_, hfraction⟩, exponent, [], _, (List.append_nil _).symm, rfl,
      exists_exponent_iff.mpr ⟨_, _, hexponent⟩, rfl, rfl⟩
    cases hsign with
    | absent => exact .inl rfl
    | plus => exact absurd rfl hplus
    | minus => exact .inr ⟨'-', rfl, rfl⟩

theorem leads_fraction : Leads (· == '.') (Verbatim FractionText) := by
  rintro text x ⟨⟨hne, digits, hfraction⟩, -⟩
  cases hfraction with
  | absent => exact absurd rfl hne
  | present => exact ⟨'.', digits, rfl, rfl⟩

theorem leads_exponent :
    Leads (fun c => c == 'e' || c == 'E') (Verbatim ExponentText) := by
  rintro text x ⟨⟨hne, negative, digits, hexponent⟩, -⟩
  cases hexponent with
  | absent => exact absurd rfl hne
  | present hletter => exact ⟨_, _, rfl, by simpa using hletter⟩

theorem numeral_exact :
    Exact limit (sequence [orEmpty (charIn (· == '-')), integer, orEmpty fraction,
        orEmpty exponent] .concat).read
      (Verbatim fun text => ∃ numeral, Literal text numeral) (Unlike continues) := by
  have hexponent : Exact limit (orEmpty exponent).read
      (Verbatim fun text => text = [] ∨ ExponentText text) (Unlike continues) := by
    refine (orEmpty_exact exponent_exact leads_exponent).congr (fun _ _ => Iff.rfl) ?_
    intro rest hrest
    refine ⟨hrest.mono fun c hc => digit_continues hc,
      hrest.mono fun c hc => ?_⟩
    simp only [continues, Bool.or_assoc, hc, Bool.or_true]
  refine concat_exact (verbatimAll_cons (sign_exact _) (verbatimAll_cons integer_exact
    (verbatimAll_cons (orEmpty_exact fraction_exact leads_fraction)
      (verbatimAll_cons hexponent verbatimAll_nil ?_) ?_) ?_) ?_) fun text => literal_iff
  · rintro text payloads shorter ⟨rfl, -⟩ hstop
    exact hstop
  · rintro text payloads shorter ⟨exponent, _, _, rfl, -, hexponent, rfl, -⟩ hstop
    obtain ⟨negative, digits, hexponent⟩ := exists_exponent_iff.mp hexponent
    rw [List.append_nil]
    refine ⟨hexponent.unlike rfl rfl (hstop.mono fun c hc => digit_continues hc),
      hexponent.unlike rfl rfl (hstop.mono fun c hc => ?_)⟩
    rw [eq_of_beq hc]
    rfl
  · rintro text payloads shorter ⟨fraction, _, _, rfl, -, hfraction, exponent, _, _, rfl, -,
      hexponent, rfl, -⟩ hstop
    obtain ⟨fractionDigits, hfraction⟩ := exists_fraction_iff.mp hfraction
    obtain ⟨negative, exponentDigits, hexponent⟩ := exists_exponent_iff.mp hexponent
    rw [List.append_nil, List.append_assoc]
    exact hfraction.unlike_digit (hexponent.unlike rfl rfl
      (hstop.mono fun c hc => digit_continues hc))
  · rintro text payloads shorter ⟨whole, others, _, rfl, -, hwhole, -⟩ -
    obtain ⟨c, cs, rfl, hc⟩ := hwhole.exists_cons
    rw [List.cons_append, List.cons_append, unlike_cons]
    refine beq_eq_false_iff_ne.mpr ?_
    rintro rfl
    cases hc

theorem number_exact :
    Exact limit number.read
      (fun text payload => ∃ numeral, Literal text numeral ∧
        payload = .value (.number numeral.toFloat)) (Unlike continues) := by
  rw [number, read_map]
  refine (numeral_exact.map _).congr ?_ fun _ => id
  intro text payload
  constructor
  · rintro ⟨x, ⟨⟨numeral, hliteral⟩, rfl⟩, rfl⟩
    refine ⟨numeral, hliteral, ?_⟩
    rw [Payload.toChars, hliteral.ofChars_eq]
  · rintro ⟨numeral, hliteral, rfl⟩
    refine ⟨_, ⟨⟨numeral, hliteral⟩, rfl⟩, ?_⟩
    rw [Payload.toChars, hliteral.ofChars_eq]

end Packrat.Json
