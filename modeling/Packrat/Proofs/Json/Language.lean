import Packrat.Proofs.Json.Members
import Packrat.Proofs.Json.Reading

/-!
# What the JSON grammar accepts

Kinds of values begin with different characters, so that ordered choice never takes the wrong one:
in front of what does not go on with a number, the reader of values is lexical for the language.
From this follows what the grammar answers to whole texts.
-/

namespace Packrat.Json

open Packrat.Parser Reader
open Text (byteLength)

variable {limit : Nat}

/-! ## Languages of payloads -/

/-- The payload is a value that the text spells. -/
def ValueText (text : List Char) (payload : Payload) : Prop :=
  ∃ v, Spells text v ∧ payload = .value v

/-- The payload is a key with its value, as the text spells them without blanks around. -/
def MemberText (text : List Char) (payload : Payload) : Prop :=
  ∃ keyText blanks blanks' valueText key v,
    text = keyText ++ (blanks ++ ':' :: (blanks' ++ valueText)) ∧
    Quoted keyText key ∧ Blank blanks ∧ Blank blanks' ∧ Spells valueText v ∧ payload = .member key v

theorem spaced_valueText_iff (text : List Char) (payload : Payload) :
    Spaced ValueText text payload ↔ ∃ v, Spaced Spells text v ∧ payload = .value v := by
  constructor
  · rintro ⟨hbefore, ⟨v, hv, rfl⟩, hafter⟩
    exact ⟨v, .mk hbefore hv hafter, rfl⟩
  · rintro ⟨v, ⟨hbefore, hv, hafter⟩, rfl⟩
    exact .mk hbefore ⟨v, hv, rfl⟩ hafter

theorem spaced_memberText_iff (text : List Char) (payload : Payload) :
    Spaced MemberText text payload ↔
      ∃ m, Pair (Spaced Spells) text m ∧ payload = .member m.1 m.2 := by
  constructor
  · rintro @⟨before, _, after, _, hbefore, ⟨keyText, blanks, blanks', valueText, key, v, rfl, hkey,
      hblanks, hblanks', hv, rfl⟩, hafter⟩
    refine ⟨(key, v), ?_, rfl⟩
    have hpair := Pair.mk (.mk hbefore hkey hblanks) (Spaced.mk hblanks' hv hafter)
    simpa using hpair
  · rintro ⟨m, hpair, rfl⟩
    obtain @⟨_, _, key, v, hkey, hvalue⟩ := hpair
    obtain @⟨before, keyText, blanks, _, hbefore, hkey, hblanks⟩ := hkey
    obtain @⟨blanks', valueText, after, _, hblanks', hv, hafter⟩ := hvalue
    have hmember : MemberText (keyText ++ (blanks ++ ':' :: (blanks' ++ valueText)))
        (.member key v) :=
      ⟨keyText, blanks, blanks', valueText, key, v, rfl, hkey, hblanks, hblanks', hv, rfl⟩
    have hspaced := Spaced.mk hbefore hmember hafter
    simpa using hspaced

theorem listed_map_iff {β γ : Type} {item : List Char → β → Prop} {item' : List Char → γ → Prop}
    {f : β → γ} (h : ∀ text y, item' text y ↔ ∃ x, item text x ∧ y = f x) {text : List Char}
    {ys : List γ} : Listed item' text ys ↔ ∃ xs, Listed item text xs ∧ ys = xs.map f := by
  constructor
  · intro hlisted
    induction hlisted with
    | one hitem =>
        obtain ⟨x, hx, rfl⟩ := (h _ _).mp hitem
        exact ⟨[x], .one hx, rfl⟩
    | more hitem _ ih =>
        obtain ⟨x, hx, rfl⟩ := (h _ _).mp hitem
        obtain ⟨xs, hxs, rfl⟩ := ih
        exact ⟨x :: xs, .more hx hxs, rfl⟩
  · rintro ⟨xs, hlisted, rfl⟩
    induction hlisted with
    | one hx => exact .one ((h _ _).mpr ⟨_, hx, rfl⟩)
    | more hx _ ih => exact .more ((h _ _).mpr ⟨_, hx, rfl⟩) ih

theorem bracketed_map_iff {β γ : Type} {item : List Char → β → Prop}
    {item' : List Char → γ → Prop} {f : β → γ} {opening closing : Char}
    (h : ∀ text y, item' text y ↔ ∃ x, item text x ∧ y = f x) {text : List Char} {ys : List γ} :
    Bracketed opening closing item' text ys ↔
      ∃ xs, Bracketed opening closing item text xs ∧ ys = xs.map f := by
  constructor
  · intro hlist
    cases hlist with
    | empty hblank => exact ⟨[], .empty hblank, rfl⟩
    | listed hlisted =>
        obtain ⟨xs, hxs, rfl⟩ := (listed_map_iff h).mp hlisted
        exact ⟨xs, .listed hxs, rfl⟩
  · rintro ⟨xs, hlist, rfl⟩
    cases hlist with
    | empty hblank => exact .empty hblank
    | listed hlisted => exact .listed ((listed_map_iff h).mpr ⟨_, hlisted, rfl⟩)

/-! ## Kinds of values -/

/-- The kind of value that a character begins, in the order of the alternatives. -/
def kind (c : Char) : Nat :=
  if c = 'n' then 0
  else if c = 't' ∨ c = 'f' then 1
  else if c = '-' ∨ c.isDigit = true then 2
  else if c = '"' then 3
  else if c = '[' then 4
  else if c = '\x7b' then 5
  else 6

theorem kind_of_isDigit {c : Char} (h : c.isDigit = true) : kind c = 2 := by
  have hne : ∀ d : Char, d.isDigit = false → c ≠ d := by
    rintro d hd rfl
    rw [h] at hd
    cases hd
  rw [kind, if_neg (hne _ rfl), if_neg (by simp [hne 't' rfl, hne 'f' rfl]), if_pos (.inr h)]

theorem isBlank_of_kind {c : Char} (h : kind c < 6) : Text.isBlank c = false := by
  unfold kind at h
  split at h
  · next hc => rw [hc]; decide
  split at h
  · next hc => rcases hc with rfl | rfl <;> decide
  split at h
  · next hc =>
      rcases hc with rfl | hdigit
      · decide
      · have hrange := isDigit_iff_toNat.mp hdigit
        exact isBlank_eq_false (by omega) (by omega)
  split at h
  · next hc => rw [hc]; decide
  split at h
  · next hc => rw [hc]; decide
  split at h
  · next hc => rw [hc]; decide
  · omega

/-- A reader that skips blanks, for a language whose texts all begin with one kind of value. -/
structure ReadsKind (limit n : Nat) (reader : Reader Payload)
    (language : List Char → Payload → Prop) : Prop where
  lexical : Lexical limit (Reader.padded reader) language
  leads : Leads (fun c => kind c == n) language

/-- A reader of one kind, in front of whatever does not go on with a number. -/
theorem ReadsKind.of_exact {n : Nat} {reader : Reader Payload}
    {language : List Char → Payload → Prop} (h : Exact limit reader language (Unlike continues))
    (hleads : Leads (fun c => kind c == n) language) (hn : n < 6) :
    ReadsKind limit n reader language where
  lexical := lexical_padded h hleads fun c hc =>
    isBlank_of_kind (by rw [eq_of_beq hc]; exact hn)
  leads := hleads

theorem keyword_readsKind {text : String} {c : Char} {cs : List Char} {v : Value} {n : Nat}
    (htext : text.toList = c :: cs) (hkind : kind c = n) (hn : n < 6) :
    ReadsKind limit n (keyword text v).read fun text' payload =>
      text' = text.toList ∧ payload = .value v := by
  refine .of_exact ((literal_exact _ _).congr (fun _ _ => Iff.rfl) fun _ _ => trivial) ?_ hn
  rintro text' payload ⟨rfl, -⟩
  exact ⟨c, cs, htext, beq_iff_eq.mpr hkind⟩

theorem Literal.exists_cons {text : List Char} {numeral : Decimal.Numeral}
    (h : Literal text numeral) : ∃ c cs, text = c :: cs ∧ kind c = 2 := by
  obtain @⟨sign, whole, fraction, exponent, _, _, _, _, hsign, hplus, hwhole, -, -⟩ := h
  obtain ⟨c, cs, rfl, hc⟩ := hwhole.exists_cons
  cases hsign with
  | absent => exact ⟨c, _, rfl, kind_of_isDigit hc⟩
  | plus => exact absurd rfl hplus
  | minus => exact ⟨'-', _, rfl, rfl⟩

theorem number_readsKind :
    ReadsKind limit 2 number.read fun text payload =>
      ∃ numeral, Literal text numeral ∧ payload = .value (.number numeral.toFloat) := by
  refine .of_exact number_exact ?_ (by decide)
  rintro text payload ⟨numeral, hliteral, -⟩
  obtain ⟨c, cs, rfl, hc⟩ := hliteral.exists_cons
  exact ⟨c, cs, rfl, beq_iff_eq.mpr hc⟩

theorem string_readsKind :
    ReadsKind limit 3 (string.map fun payload => .value (.string payload.toChars)).read
      fun text payload => ∃ chars, Quoted text chars ∧ payload = .value (.string chars) := by
  rw [read_map]
  refine .of_exact ((string_exact.map _).congr ?_ fun _ _ => trivial) ?_ (by decide)
  · intro text payload
    constructor
    · rintro ⟨_, ⟨chars, hquoted, rfl⟩, rfl⟩
      exact ⟨chars, hquoted, rfl⟩
    · rintro ⟨chars, hquoted, rfl⟩
      exact ⟨_, ⟨chars, hquoted, rfl⟩, rfl⟩
  · rintro text payload ⟨chars, hquoted, -⟩
    cases hquoted
    exact ⟨'"', _, rfl, rfl⟩

/-! ### Lists -/

theorem valueText_leads : Leads (fun c => decide (kind c < 6)) ValueText := by
  rintro text payload ⟨v, hv, -⟩
  cases hv with
  | null => exact ⟨'n', _, rfl, rfl⟩
  | true => exact ⟨'t', _, rfl, rfl⟩
  | false => exact ⟨'f', _, rfl, rfl⟩
  | number hliteral =>
      obtain ⟨c, cs, rfl, hc⟩ := hliteral.exists_cons
      exact ⟨c, cs, rfl, decide_eq_true (by omega)⟩
  | string hquoted =>
      cases hquoted
      exact ⟨'"', _, rfl, rfl⟩
  | emptyArray => exact ⟨'[', _, rfl, rfl⟩
  | array => exact ⟨'[', _, rfl, rfl⟩
  | emptyObject => exact ⟨'\x7b', _, rfl, rfl⟩
  | object => exact ⟨'\x7b', _, rfl, rfl⟩

theorem array_readsKind {value : Reader Payload} (h : Lexical limit value ValueText) :
    ReadsKind (limit + 1) 4 (Reader.map arrayPayload (listReading "[" "]" value))
      fun text payload => ∃ items, Bracketed '[' ']' (Spaced Spells) text items ∧
        payload = .value (.array items) where
  lexical := by
    have hlist : Lexical (limit + 1) (listReading "[" "]" value) fun text payload =>
        ∃ xs, Bracketed '[' ']' (Spaced ValueText) text xs ∧ payload = .items xs :=
      list_lexical h valueText_leads rfl rfl (by decide) (by decide) (by decide) (by decide)
        (by decide)
    refine ((hlist.map arrayPayload).congr ?_).padded
    intro text payload
    constructor
    · rintro ⟨_, ⟨payloads, hlist, rfl⟩, rfl⟩
      obtain ⟨items, hitems, rfl⟩ := (bracketed_map_iff spaced_valueText_iff).mp hlist
      refine ⟨items, hitems, ?_⟩
      simp [arrayPayload, Payload.toItems, Payload.toValue, Function.comp_def]
    · rintro ⟨items, hitems, rfl⟩
      refine ⟨_, ⟨_, (bracketed_map_iff spaced_valueText_iff).mpr
        ⟨items, hitems, rfl⟩, rfl⟩, ?_⟩
      simp [arrayPayload, Payload.toItems, Payload.toValue, Function.comp_def]
  leads := by
    rintro text payload ⟨items, hlist, -⟩
    cases hlist <;> exact ⟨'[', _, rfl, rfl⟩

theorem memberReading_eq (value : Reader Payload) (rest : List Char) :
    memberReading value rest =
      (Reader.padded string.read rest).bind fun (key, rest) =>
        (behind ":" rest).bind fun rest =>
          (value rest).map fun (v, rest) => (.member key.toChars v.toValue, rest) := by
  simp only [memberReading, Reader.map, Reader.all, symbol, read_token, read_padded]
  cases Reader.padded string.read rest with
  | none => rfl
  | some found =>
      simp only [Option.bind_some]
      cases behind ":" found.2 with
      | none => rfl
      | some inner =>
          simp only [Option.map_some, Option.bind_some]
          cases value inner <;> rfl

theorem key_lexical : Lexical limit (Reader.padded string.read)
    fun text payload => ∃ chars, Quoted text chars ∧ payload = .text chars := by
  have hleads : Leads (· == '"') fun text payload => ∃ chars, Quoted text chars ∧
      payload = Payload.text chars := by
    rintro text payload ⟨chars, hquoted, -⟩
    cases hquoted
    exact ⟨'"', _, rfl, rfl⟩
  refine lexical_padded (string_exact.congr (fun _ _ => Iff.rfl) fun _ _ => trivial) hleads ?_
  intro c hc
  rw [eq_of_beq hc]
  decide

theorem colon_toList : ":".toList = [':'] := rfl

theorem member_lexical {value : Reader Payload} (h : Lexical limit value ValueText) :
    Lexical limit (memberReading value) MemberText where
  skips hrest := by rw [memberReading_eq, memberReading_eq, key_lexical.skips hrest]
  sound {rest x shorter} hrest hread := by
    rw [memberReading_eq] at hread
    obtain ⟨⟨keyPayload, inner⟩, hkeyRead, hread⟩ := Option.bind_eq_some_iff.mp hread
    obtain ⟨last, hcolon, hread⟩ := Option.bind_eq_some_iff.mp hread
    obtain ⟨⟨valuePayload, shorter'⟩, hvalueRead, heq⟩ := Option.map_eq_some_iff.mp hread
    cases heq
    obtain ⟨keyText, rfl, hkey⟩ := key_lexical.sound hrest hkeyRead
    obtain ⟨blanks, blanks', hblanks, hblanks', rfl⟩ := behind_sound colon_toList hcolon
    have hlast : byteLength last < limit := by
      simp only [Text.byteLength_append, Text.byteLength_cons] at hrest
      omega
    obtain ⟨valueText, rfl, hvalue⟩ := h.sound hlast hvalueRead
    obtain @⟨before, keyCore, after, _, hbefore, ⟨key, hquoted, rfl⟩, hafter⟩ := hkey
    obtain @⟨before', valueCore, after', _, hbefore', ⟨v, hspells, rfl⟩, hafter'⟩ := hvalue
    refine ⟨before ++ (keyCore ++ ((after ++ blanks) ++ ':' :: ((blanks' ++ before') ++ valueCore)))
      ++ after', by simp, .mk hbefore ?_ hafter'⟩
    exact ⟨keyCore, after ++ blanks, blanks' ++ before', valueCore, key, v, rfl, hquoted,
      hafter.append hblanks, hblanks'.append hbefore', hspells, rfl⟩
  complete {text x shorter} hrest hx hstop := by
    obtain ⟨keyText, blanks, blanks', valueText, key, v, rfl, hquoted, hblanks, hblanks', hspells,
      rfl⟩ := hx
    simp only [List.append_assoc, List.cons_append] at hrest ⊢
    have hbytes := hrest
    simp only [Text.byteLength_append, Text.byteLength_cons] at hbytes
    have hcolon : behind ":" (blanks ++ ':' :: (blanks' ++ (valueText ++ shorter))) =
        some (skipBlanks (blanks' ++ (valueText ++ shorter))) := by
      rw [← behind_skipBlanks, hblanks.skip_append, behind_skipBlanks]
      exact behind_cons colon_toList (by decide)
    have hvalueBytes : byteLength (blanks' ++ (valueText ++ shorter)) < limit := by
      simp only [Text.byteLength_append]
      omega
    rw [memberReading_eq, key_lexical.complete hrest ⟨key, hquoted, rfl⟩
      (unlike_blank hblanks (unlike_cons.mpr rfl)), Option.bind_some]
    dsimp only
    rw [behind_skipBlanks, hcolon, Option.bind_some, h.skips hvalueBytes,
      h.skip_append hblanks' hvalueBytes,
      h.complete (by rw [Text.byteLength_append]; omega) ⟨v, hspells, rfl⟩ hstop]
    rfl

theorem memberText_leads : Leads (fun c => c == '"') MemberText := by
  rintro text payload ⟨_, _, _, _, _, _, rfl, hquoted, -⟩
  cases hquoted
  exact ⟨'"', _, rfl, rfl⟩

theorem object_readsKind {value : Reader Payload} (h : Lexical limit value ValueText) :
    ReadsKind (limit + 1) 5
      (Reader.map objectPayload (listReading "\x7b" "\x7d" (memberReading value)))
      fun text payload => ∃ members, Bracketed '\x7b' '\x7d' (Pair (Spaced Spells)) text members ∧
        payload = .value (.object (Members.ofList members)) where
  lexical := by
    have hlist : Lexical (limit + 1) (listReading "\x7b" "\x7d" (memberReading value))
        fun text payload =>
          ∃ xs, Bracketed '\x7b' '\x7d' (Spaced MemberText) text xs ∧ payload = .items xs :=
      list_lexical (member_lexical h) memberText_leads rfl rfl (by decide) (by decide) (by decide)
        (by decide) (by decide)
    refine ((hlist.map objectPayload).congr ?_).padded
    have hpayload : ∀ members : List (List Char × Value),
        objectPayload (.items (members.map fun m => .member m.1 m.2)) =
          .value (.object (Members.ofList members)) := by
      intro members
      simp [objectPayload, Payload.toItems, Payload.member?, List.filterMap_map,
        Function.comp_def]
    intro text payload
    constructor
    · rintro ⟨_, ⟨payloads, hlist, rfl⟩, rfl⟩
      obtain ⟨members, hmembers, rfl⟩ :=
        (bracketed_map_iff spaced_memberText_iff).mp hlist
      exact ⟨members, hmembers, hpayload members⟩
    · rintro ⟨members, hmembers, rfl⟩
      exact ⟨_, ⟨_, (bracketed_map_iff spaced_memberText_iff).mpr
        ⟨members, hmembers, rfl⟩, rfl⟩, (hpayload members).symm⟩
  leads := by
    rintro text payload ⟨items, hlist, -⟩
    cases hlist <;> exact ⟨'\x7b', _, rfl, rfl⟩

/-! ## All alternatives -/

theorem padded_first {β : Type} (readers : List (Reader β)) :
    Reader.padded (Reader.first readers) = Reader.first (readers.map Reader.padded) := by
  induction readers with
  | nil => rfl
  | cons reader readers ih =>
      rw [List.map_cons]
      funext rest
      rw [Reader.first, ← ih, Reader.padded, Reader.padded, Reader.padded, Reader.first,
        Option.map_or]

theorem bool_readsKind :
    ReadsKind limit 1
      (firstOf [keyword "true" (.bool true), keyword "false" (.bool false)]).read
      fun text payload => text = "true".toList ∧ payload = .value (.bool true) ∨
        text = "false".toList ∧ payload = .value (.bool false) := by
  rw [read_firstOf]
  have hrefuse : ∀ rest, (keyword "true" (.bool true)).read ("false".toList ++ rest) = none :=
    fun _ => rfl
  refine .of_exact (((literal_exact _ _).first_cons ((literal_exact _ _).first_cons
    Exact.first_nil fun _ _ _ _ hnone _ => hnone.elim) ?_).congr ?_ fun _ _ => trivial) ?_
    (by decide)
  · rintro text payload shorter - (⟨rfl, -⟩ | hnone) -
    · exact hrefuse shorter
    · exact hnone.elim
  · intro text payload
    simp only [or_false]
  · rintro text payload (⟨rfl, -⟩ | ⟨rfl, -⟩)
    · exact ⟨'t', _, rfl, rfl⟩
    · exact ⟨'f', _, rfl, rfl⟩

/-- Alternatives of the kinds from one on. -/
structure ReadsFrom (limit n : Nat) (readers : List (Reader Payload))
    (language : List Char → Payload → Prop) : Prop where
  lexical : Lexical limit (Reader.first readers) language
  leads : Leads (fun c => n ≤ kind c && kind c < 6) language

theorem ReadsFrom.nil : ReadsFrom limit 6 [] fun _ _ => False :=
  ⟨Lexical.first_nil, fun _ _ hnone => hnone.elim⟩

theorem ReadsFrom.cons {n : Nat} {reader : Reader Payload} {readers : List (Reader Payload)}
    {language language' : List Char → Payload → Prop} (h : ReadsKind limit n reader language)
    (hothers : ReadsFrom limit (n + 1) readers language') (hn : n < 6) :
    ReadsFrom limit n (Reader.padded reader :: readers)
      fun text payload => language text payload ∨ language' text payload where
  lexical := by
    refine h.lexical.first_cons hothers.lexical h.leads hothers.leads ?_
    intro c hc
    simp only [Bool.and_eq_true, decide_eq_true_eq] at hc
    exact ⟨beq_eq_false_iff_ne.mpr (by omega), isBlank_of_kind hc.2⟩
  leads := by
    rintro text payload (hx | hx)
    · obtain ⟨c, cs, rfl, hc⟩ := h.leads _ _ hx
      have hc := eq_of_beq hc
      exact ⟨c, cs, rfl, by simp [hc, hn]⟩
    · obtain ⟨c, cs, rfl, hc⟩ := hothers.leads _ _ hx
      simp only [Bool.and_eq_true, decide_eq_true_eq] at hc
      exact ⟨c, cs, rfl, by simp only [Bool.and_eq_true, decide_eq_true_eq]; omega⟩

/-- The kinds of values together are all values. -/
theorem valueText_iff (text : List Char) (payload : Payload) :
    (text = "null".toList ∧ payload = .value .null ∨
      (text = "true".toList ∧ payload = .value (.bool true) ∨
        text = "false".toList ∧ payload = .value (.bool false)) ∨
      (∃ numeral, Literal text numeral ∧ payload = .value (.number numeral.toFloat)) ∨
      (∃ chars, Quoted text chars ∧ payload = .value (.string chars)) ∨
      (∃ items, Bracketed '[' ']' (Spaced Spells) text items ∧ payload = .value (.array items)) ∨
      (∃ members, Bracketed '\x7b' '\x7d' (Pair (Spaced Spells)) text members ∧
        payload = .value (.object (Members.ofList members))) ∨ False) ↔ ValueText text payload := by
  constructor
  · rintro (⟨rfl, rfl⟩ | (⟨rfl, rfl⟩ | ⟨rfl, rfl⟩) | ⟨numeral, h, rfl⟩ | ⟨chars, h, rfl⟩ |
      ⟨items, h, rfl⟩ | ⟨members, h, rfl⟩ | h)
    · exact ⟨_, .null, rfl⟩
    · exact ⟨_, .true, rfl⟩
    · exact ⟨_, .false, rfl⟩
    · exact ⟨_, .number h, rfl⟩
    · exact ⟨_, .string h, rfl⟩
    · cases h with
      | empty h => exact ⟨_, .emptyArray h, rfl⟩
      | listed h => exact ⟨_, .array h, rfl⟩
    · cases h with
      | empty h => exact ⟨_, .emptyObject h, rfl⟩
      | listed h => exact ⟨_, .object h (Members.ofList_collects _), rfl⟩
    · exact h.elim
  · rintro ⟨v, h, rfl⟩
    cases h with
    | null => exact .inl ⟨rfl, rfl⟩
    | true => exact .inr (.inl (.inl ⟨rfl, rfl⟩))
    | false => exact .inr (.inl (.inr ⟨rfl, rfl⟩))
    | number h => exact .inr (.inr (.inl ⟨_, h, rfl⟩))
    | string h => exact .inr (.inr (.inr (.inl ⟨_, h, rfl⟩)))
    | emptyArray h => exact .inr (.inr (.inr (.inr (.inl ⟨_, .empty h, rfl⟩))))
    | array h => exact .inr (.inr (.inr (.inr (.inl ⟨_, .listed h, rfl⟩))))
    | emptyObject h => exact .inr (.inr (.inr (.inr (.inr (.inl ⟨_, .empty h, rfl⟩)))))
    | object h hobject =>
        obtain rfl := collects_iff.mp hobject
        exact .inr (.inr (.inr (.inr (.inr (.inl ⟨_, .listed h, rfl⟩)))))

/-- The reader of values is lexical for their language, by induction on the length of the text. -/
theorem value_lexical (limit : Nat) : Lexical limit reading ValueText := by
  induction limit with
  | zero =>
      constructor
      · exact fun h => absurd h (Nat.not_lt_zero _)
      · exact fun h => absurd h (Nat.not_lt_zero _)
      · exact fun h => absurd h (Nat.not_lt_zero _)
  | succ limit ih =>
      have heq : reading = Reader.first ((alternatives reading).map Reader.padded) := by
        rw [← padded_first]
        exact funext reading_eq
      rw [heq]
      have hnull : ReadsKind (limit + 1) 0 (keyword "null" .null).read _ :=
        keyword_readsKind rfl rfl (by decide)
      exact (ReadsFrom.cons hnull (.cons bool_readsKind (.cons number_readsKind
        (.cons string_readsKind (.cons (array_readsKind ih) (.cons (object_readsKind ih) .nil
          (by decide)) (by decide)) (by decide)) (by decide)) (by decide))
        (by decide)).lexical.congr valueText_iff

/-! ## Whole texts -/

/-- Of a whole text, a value is read exactly if the text is a document that denotes the value. -/
theorem reading_iff {text : List Char} {payload : Payload} :
    reading text = some (payload, []) ↔ ∃ v, Spaced Spells text v ∧ payload = .value v := by
  rw [← spaced_valueText_iff]
  have hlexical := value_lexical (byteLength text + 1)
  constructor
  · intro hread
    obtain ⟨text', htext, hx⟩ := hlexical.sound (Nat.lt_succ_self _) hread
    rw [List.append_nil] at htext
    rwa [htext]
  · intro hx
    have hrest : byteLength (text ++ []) < byteLength text + 1 := by simp
    have hread := hlexical.complete_spaced hrest hx (unlike_nil _)
    rwa [List.append_nil] at hread

theorem answer_iff {text : List Char} {payload : Payload} :
    reading.answer text = .ok payload ↔ ∃ v, Spaced Spells text v ∧ payload = .value v := by
  rw [← reading_iff, Reader.answer]
  cases hread : reading text with
  | none => simp
  | some found =>
      obtain ⟨x, rest⟩ := found
      cases rest <;> simp

/--
The grammar accepts exactly the language of JSON: on every text it comes to an answer, and the
answer is a payload exactly if this is a value and the text, with any white space around it, spells
the value.
-/
theorem accepts_documents (text : String) :
    ∃ result, (grammar.observe text).map (·.result) = .ok result ∧
      ∀ payload, result = .ok payload ↔
        ∃ v, Spaced Spells text.toList v ∧ payload = .value v :=
  ⟨reading.answer text.toList, grammar_reads.observe text, fun _ => answer_iff⟩

end Packrat.Json
