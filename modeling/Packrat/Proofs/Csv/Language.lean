import Packrat.Proofs.Answers
import Packrat.Proofs.Csv.Syntax

/-!
# What the grammar of comma-separated values accepts

The grammar is plain.  A field is read exactly in front of a comma, a line break or the end of the
text, and records and lists of records are separated items.  What the grammar answers is the list
of all records without the empty one that a line break at the end leaves behind.
-/

namespace Packrat.Csv

open Packrat.Parser Reader
open Text (byteLength)

variable {limit : Nat}

/-! ## Fields -/

/-- The payload is the given text. -/
def Denotes (language : List Char → List Char → Prop) (text : List Char) (payload : Payload) :
    Prop :=
  ∃ chars, language text chars ∧ payload = .text chars

/-- The character goes on with neither a field nor a record. -/
def endsRecord (c : Char) : Bool := c == '\r' || c == '\n'

/-- The character does not go on with a field. -/
def endsField (c : Char) : Bool := c == ',' || endsRecord c

theorem charIn_exact (accepts : Char → Bool) :
    Exact limit (charIn accepts).read
      (fun text payload => ∃ c, text = [c] ∧ accepts c = true ∧ payload = .text [c])
      (fun _ => True) :=
  satisfy_exact accepts _

/-- A fixed character. -/
theorem char_exact (c : Char) :
    Exact limit (charIn (· == c)).read (fun text payload => text = [c] ∧ payload = .text [c])
      (fun _ => True) := by
  refine (charIn_exact _).congr ?_ fun _ => id
  intro text payload
  constructor
  · rintro ⟨c', rfl, hc, rfl⟩
    obtain rfl := eq_of_beq hc
    exact ⟨rfl, rfl⟩
  · rintro ⟨rfl, rfl⟩
    exact ⟨c, rfl, beq_self_eq_true c, rfl⟩

/-- One character between quotes. -/
def DoubledChar (text : List Char) (payload : Payload) : Prop :=
  ∃ c, text = doubled c ∧ payload = .text [c]

theorem doubledChar_exact :
    Exact limit (firstOf [.literal ['"', '"'] (.text ['"']), charIn (· != '"')]).read DoubledChar
      (fun _ => True) := by
  rw [read_firstOf]
  refine ((literal_exact _ _).first_cons ((charIn_exact _).first_cons Exact.first_nil
    fun _ _ _ _ hnone _ => hnone.elim) ?_).congr ?_ fun _ => id
  · rintro text payload shorter hbytes (⟨c, rfl, hc, -⟩ | hnone) -
    · have hleads : Leads (· == '"')
          fun text payload => text = ['"', '"'] ∧ payload = Payload.text ['"'] := by
        rintro text payload ⟨rfl, -⟩
        exact ⟨_, _, rfl, rfl⟩
      exact (literal_exact _ _).eq_none hleads hbytes (unlike_cons.mpr (by simpa using hc))
    · exact hnone.elim
  · intro text payload
    constructor
    · rintro (⟨rfl, rfl⟩ | ⟨c, rfl, hc, rfl⟩ | hnone)
      · exact ⟨'"', rfl, rfl⟩
      · exact ⟨c, (if_neg (bne_iff_ne.mp hc)).symm, rfl⟩
      · exact hnone.elim
    · rintro ⟨c, rfl, rfl⟩
      by_cases hc : c = '"'
      · subst hc
        exact .inl ⟨rfl, rfl⟩
      · exact .inr (.inl ⟨c, if_neg hc, bne_iff_ne.mpr hc, rfl⟩)

/-- The quote at the end of a field is no character of it. -/
theorem doubledChar_refuses {shorter : List Char} (h : Unlike (· == '"') shorter) :
    (firstOf [.literal ['"', '"'] (.text ['"']), charIn (· != '"')]).read ('"' :: shorter) =
      none := by
  cases hread : (firstOf [.literal ['"', '"'] (.text ['"']), charIn (· != '"')]).read
      ('"' :: shorter) with
  | none => rfl
  | some found =>
      obtain ⟨text, htext, c, rfl, -⟩ := doubledChar_exact.sound (Nat.lt_succ_self _) hread
      by_cases hc : c = '"'
      · rw [doubled, if_pos hc] at htext
        cases htext
        simp at h
      · rw [doubled, if_neg hc] at htext
        cases htext
        exact absurd rfl hc

theorem star_doubledChar_iff {text : List Char} {payloads : List Payload} :
    Star DoubledChar text payloads ↔
      ∃ chars : List Char, text = chars.flatMap doubled ∧
        payloads = chars.map fun c => .text [c] := by
  constructor
  · intro h
    induction h with
    | nil => exact ⟨[], rfl, rfl⟩
    | cons h _ ih =>
        obtain ⟨c, rfl, rfl⟩ := h
        obtain ⟨chars, rfl, rfl⟩ := ih
        exact ⟨c :: chars, rfl, rfl⟩
  · rintro ⟨chars, rfl, rfl⟩
    induction chars with
    | nil => exact .nil
    | cons c chars ih => exact .cons ⟨c, rfl, rfl⟩ ih

theorem concat_chars (chars : List Char) :
    Payload.concat (chars.map fun c => .text [c]) = .text chars := by
  rw [Payload.concat, List.flatMap_map]
  exact congrArg Payload.text (List.flatMap_singleton' chars)

/-- The content of a field in quotes goes on until a quote with no other quote behind it. -/
theorem content_exact :
    Exact limit (many (firstOf [.literal ['"', '"'] (.text ['"']), charIn (· != '"')])
        .concat).read
      (Denotes fun text chars => text = chars.flatMap doubled)
      (fun rest => ∃ shorter, rest = '"' :: shorter ∧ Unlike (· == '"') shorter) := by
  have hne : ∀ text payload, DoubledChar text payload → text ≠ [] := by
    rintro text payload ⟨c, rfl, -⟩
    rw [doubled]
    split <;> exact List.cons_ne_nil _ _
  have hmany : (many (firstOf [.literal ['"', '"'] (.text ['"']), charIn (· != '"')])
        Payload.concat).read = Reader.map Payload.concat fun rest => some (Reader.many
          (firstOf [.literal ['"', '"'] (.text ['"']), charIn (· != '"')]).read rest) :=
    funext (read_many _ _)
  rw [hmany]
  refine ((doubledChar_exact.many hne fun _ _ _ _ _ => trivial).map _).congr ?_ ?_
  · intro text payload
    constructor
    · rintro ⟨payloads, hstar, rfl⟩
      obtain ⟨chars, rfl, rfl⟩ := star_doubledChar_iff.mp hstar
      exact ⟨chars, rfl, concat_chars chars⟩
    · rintro ⟨chars, rfl, rfl⟩
      exact ⟨_, star_doubledChar_iff.mpr ⟨chars, rfl, rfl⟩, (concat_chars chars).symm⟩
  · rintro rest ⟨shorter, rfl, hshorter⟩
    exact ⟨trivial, doubledChar_refuses hshorter⟩

theorem quotedField_exact :
    Exact limit quotedField.read
      (Denotes fun text chars => text = '"' :: (chars.flatMap doubled ++ ['"']))
      (Unlike (· == '"')) := by
  rw [quotedField, read_sequence]
  have hquote : Exact limit (charIn (· == '"')).read
      (fun text payload => text = ['"'] ∧ payload = .text ['"']) (Unlike (· == '"')) :=
    (char_exact '"').congr (fun _ _ => Iff.rfl) fun _ _ => trivial
  refine ((Exact.all_cons (char_exact '"') (Exact.all_cons content_exact (Exact.all_cons hquote
    Exact.all_nil ?_) ?_) fun _ _ _ _ _ => trivial).map _).congr ?_ fun _ => id
  · rintro text xs shorter ⟨rfl, -⟩ hstop
    exact hstop
  · rintro text xs shorter ⟨_, _, _, _, rfl, -, ⟨rfl, -⟩, rfl, -⟩ hstop
    exact ⟨shorter, rfl, hstop⟩
  · intro text payload
    constructor
    · rintro ⟨_, ⟨_, _, _, _, rfl, rfl, ⟨rfl, rfl⟩, content, _, _, _, rfl, rfl, ⟨chars, rfl, rfl⟩,
        _, _, _, _, rfl, rfl, ⟨rfl, rfl⟩, rfl, rfl⟩, rfl⟩
      exact ⟨chars, rfl, rfl⟩
    · rintro ⟨chars, rfl, rfl⟩
      exact ⟨_, ⟨['"'], _, _, _, rfl, rfl, ⟨rfl, rfl⟩, chars.flatMap doubled, ['"'], _, _, rfl, rfl,
        ⟨chars, rfl, rfl⟩, ['"'], [], _, _, rfl, rfl, ⟨rfl, rfl⟩, rfl, rfl⟩, rfl⟩

/-- The characters of a field without quotes. -/
def isPlain (c : Char) : Bool := !(c == ',' || c == '"' || c == '\r' || c == '\n')

theorem isPlain_iff {c : Char} : isPlain c = true ↔ c ∉ [',', '"', '\r', '\n'] := by
  simp [isPlain, and_assoc]

theorem plainField_eq : plainField = many (charIn isPlain) .concat := rfl

theorem plainField_exact :
    Exact limit plainField.read
      (Denotes fun text chars => text = chars ∧ ∀ c ∈ chars, isPlain c = true)
      (Unlike isPlain) where
  sound {rest payload shorter} _ hread := by
    rw [plainField_eq, charIn, read_many_satisfy] at hread
    cases hread
    refine ⟨_, List.takeWhile_append_dropWhile.symm, _, ⟨rfl, ?_⟩, concat_chars _⟩
    exact List.all_eq_true.mp List.all_takeWhile
  complete _ hx hstop := by
    obtain ⟨chars, ⟨rfl, hplain⟩, rfl⟩ := hx
    rw [plainField_eq, charIn, read_many_satisfy, hstop.takeWhile_append hplain,
      hstop.dropWhile_append hplain, concat_chars]

theorem field_exact :
    Exact limit field.read (Denotes FieldText) (Unlike fun c => !endsField c) := by
  rw [field, read_firstOf]
  have hquoted : Exact limit quotedField.read _ (Unlike fun c => !endsField c) :=
    quotedField_exact.congr (fun _ _ => Iff.rfl) fun rest hrest => hrest.mono fun c hc => by
      rw [eq_of_beq hc]
      rfl
  have hplain : Exact limit plainField.read _ (Unlike fun c => !endsField c) :=
    plainField_exact.congr (fun _ _ => Iff.rfl) fun rest hrest => hrest.mono fun c hc => by
      have hnot := isPlain_iff.mp hc
      simp_all [endsField, endsRecord]
  refine (hquoted.first_cons (hplain.first_cons Exact.first_nil
    fun _ _ _ _ hnone _ => hnone.elim) ?_).congr ?_ fun _ => id
  · rintro text payload shorter hbytes (⟨chars, ⟨rfl, hchars⟩, -⟩ | hnone) hstop
    · have hleads : Leads (· == '"')
          (Denotes fun text chars => text = '"' :: (chars.flatMap doubled ++ ['"'])) := by
        rintro text payload ⟨chars, rfl, -⟩
        exact ⟨_, _, rfl, rfl⟩
      refine hquoted.eq_none hleads hbytes ?_
      cases text with
      | nil => exact hstop.mono fun c hc => by rw [eq_of_beq hc]; rfl
      | cons c text =>
          have hc := isPlain_iff.mp (hchars c (List.mem_cons_self ..))
          rw [List.cons_append, unlike_cons]
          simp_all
    · exact hnone.elim
  · intro text payload
    constructor
    · rintro (⟨chars, rfl, rfl⟩ | ⟨chars, ⟨rfl, hchars⟩, rfl⟩ | hnone)
      · exact ⟨chars, .quoted chars, rfl⟩
      · exact ⟨text, .plain fun c hc => isPlain_iff.mp (hchars c hc), rfl⟩
      · exact hnone.elim
    · rintro ⟨chars, hfield, rfl⟩
      cases hfield with
      | quoted => exact .inl ⟨chars, rfl, rfl⟩
      | plain h => exact .inr (.inl ⟨_, ⟨rfl, fun c hc => isPlain_iff.mpr (h c hc)⟩, rfl⟩)

/-! ## Records -/

/-- The texts of fields, without their payloads. -/
theorem fieldChars_exact :
    Exact limit (Reader.map Payload.toChars field.read) FieldText
      (Unlike fun c => !endsField c) := by
  refine (field_exact.map _).congr ?_ fun _ => id
  intro text chars
  constructor
  · rintro ⟨_, ⟨chars, hfield, rfl⟩, rfl⟩
    exact hfield
  · intro hfield
    exact ⟨_, ⟨chars, hfield, rfl⟩, rfl⟩

theorem record_read :
    Reader.map Payload.toRecord record.read =
      separated (charIn (· == ',')).read (Reader.map Payload.toChars field.read) := by
  have hread : record.read =
      Reader.map Payload.fields (separated (charIn (· == ',')).read field.read) :=
    read_separated rfl fun _ _ => rfl
  rw [hread, separated_map]
  funext rest
  rw [Reader.map, Reader.map, Reader.map]
  cases separated (charIn (· == ',')).read field.read rest <;> rfl

theorem record_exact :
    Exact limit (Reader.map Payload.toRecord record.read) RecordText
      (Unlike fun c => !endsRecord c) := by
  rw [record_read]
  refine ((char_exact ',').separated (· == ',') ?_ fieldChars_exact ?_ ?_).congr
    (fun _ _ => Iff.rfl) ?_
  · intro text
    exact ⟨fun h => ⟨_, h, rfl⟩, fun ⟨_, h, _⟩ => h⟩
  · rintro text rfl
    exact ⟨',', [], rfl, rfl⟩
  · intro c rest hc
    rw [eq_of_beq hc, unlike_cons]
    rfl
  · intro rest hrest
    constructor
    · exact hrest.mono fun c hc => by simp_all [endsField]
    · exact hrest.mono fun c hc => by rw [eq_of_beq hc]; rfl

/-- A text spells one record at most. -/
theorem recordText_unique {text : List Char} {record record' : Record}
    (h : RecordText text record) (h' : RecordText text record') : record = record' := by
  have hexact : Exact (byteLength text + 1) _ RecordText _ := record_exact
  have hbytes : byteLength (text ++ []) < byteLength text + 1 := by simp
  have hread := hexact.complete hbytes h (unlike_nil _)
  have hread' := hexact.complete hbytes h' (unlike_nil _)
  rw [hread] at hread'
  cases hread'
  rfl

theorem lineBreak_exact :
    Exact limit lineBreak.read (fun text payload => LineBreak text ∧ payload = .text [])
      (fun _ => True) := by
  rw [lineBreak, read_firstOf]
  refine ((literal_exact _ _).first_cons ((literal_exact _ _).first_cons Exact.first_nil
    fun _ _ _ _ hnone _ => hnone.elim) ?_).congr ?_ fun _ => id
  · rintro text payload shorter - (⟨rfl, -⟩ | hnone) -
    · rfl
    · exact hnone.elim
  · intro text payload
    constructor
    · rintro (⟨rfl, rfl⟩ | ⟨rfl, rfl⟩ | hnone)
      · exact ⟨.crlf, rfl⟩
      · exact ⟨.lf, rfl⟩
      · exact hnone.elim
    · rintro ⟨hbreak, rfl⟩
      cases hbreak with
      | lf => exact .inr (.inl ⟨rfl, rfl⟩)
      | crlf => exact .inl ⟨rfl, rfl⟩

/-- Records with line breaks between them, up to the end of the text. -/
def rows : Reader (List Record) :=
  separated lineBreak.read (Reader.map Payload.toRecord record.read)

theorem rows_exact : Exact limit rows (Separated LineBreak RecordText) (· = []) := by
  refine (lineBreak_exact.separated endsRecord ?_ record_exact ?_ ?_).congr
    (fun _ _ => Iff.rfl) ?_
  · intro text
    exact ⟨fun h => ⟨_, h, rfl⟩, fun ⟨_, h, _⟩ => h⟩
  · intro text hbreak
    cases hbreak with
    | lf => exact ⟨'\n', [], rfl, rfl⟩
    | crlf => exact ⟨'\r', _, rfl, rfl⟩
  · intro c rest hc
    rw [unlike_cons, hc]
    rfl
  · rintro rest rfl
    exact ⟨unlike_nil _, unlike_nil _⟩

/-! ## Whole texts -/

/-- The payload of the grammar. -/
def reading : Reader Payload :=
  Reader.optional (fun found => .records (dropTrailing (found.getD []))) rows

theorem entry_read : grammar.entry.read = reading := by
  have hpack : ∀ x xs, Payload.pack (x :: (Payload.pack xs).unpack) = Payload.pack (x :: xs) := by
    intro x xs
    simp [Payload.pack, Payload.unpack, Payload.toRecords, Payload.toRecord, Function.comp_def]
  rw [grammar, read_map, read_joined hpack]
  funext rest
  rw [reading, rows, separated_map, Reader.map, Reader.optional, Reader.optional, Reader.map]
  cases separated lineBreak.read record.read rest <;> rfl

theorem grammar_reads : grammar.Reads reading := by
  rw [← entry_read]
  exact Grammar.reads_of_plain (by rfl)

/-- Of a whole text, records are read exactly if it spells them. -/
theorem rows_iff {text : List Char} {records : List Record} :
    rows text = some (records, []) ↔ Separated LineBreak RecordText text records := by
  have hexact : Exact (byteLength text + 1) rows _ _ := rows_exact
  constructor
  · intro hread
    obtain ⟨text', htext, hrecords⟩ := hexact.sound (Nat.lt_succ_self _) hread
    rw [List.append_nil] at htext
    rwa [htext]
  · intro hrecords
    have hbytes : byteLength (text ++ []) < byteLength text + 1 := by simp
    have hread := hexact.complete hbytes hrecords rfl
    rwa [List.append_nil] at hread

theorem answer_iff {text : List Char} {payload : Payload} :
    reading.answer text = .ok payload ↔
      ∃ records, Separated LineBreak RecordText text records ∧
        payload = .records (dropTrailing records) := by
  simp only [← rows_iff, Reader.answer, reading, Reader.optional]
  cases hrows : rows text with
  | none =>
      -- Some record can be read in front of any text, so this is never so.
      cases text with
      | nil =>
          rw [rows_iff.mpr (.one recordText_nil)] at hrows
          cases hrows
      | cons c text => simp
  | some found =>
      obtain ⟨records, rest⟩ := found
      cases rest with
      | nil => simp [eq_comm]
      | cons c rest => simp

@[simp] theorem dropTrailing_concat (records : List Record) (record : Record) :
    dropTrailing (records ++ [record]) =
      if record = [[]] then records else records ++ [record] := by
  simp [dropTrailing, isBlank]

theorem answer_of_terminated {text : List Char} {records : List Record}
    (h : Terminated LineBreak RecordText text records) :
    reading.answer text = .ok (.records records) := by
  have hrecords := h.append_item recordText_nil
  rw [List.append_nil] at hrecords
  exact answer_iff.mpr ⟨_, hrecords, by rw [dropTrailing_concat, if_pos rfl]⟩

theorem answer_of_terminated_append {front last : List Char} {records : List Record}
    {record : Record} (hfront : Terminated LineBreak RecordText front records)
    (hlast : RecordText last record) :
    reading.answer (front ++ last) =
      .ok (.records (if record = [[]] then records else records ++ [record])) :=
  answer_iff.mpr ⟨_, hfront.append_item hlast, by rw [dropTrailing_concat]⟩

/--
Decoding undoes encoding.  On every text the grammar comes to an answer; records of which each is
spelled in any way and ends with either line break are the answer to the whole of their text, and
an answer is given to a text exactly if it consists of spelled records with line breaks between
them, of which an empty one at the end is dropped.
-/
theorem decodes_spellings (text : String) :
    ∃ result, (grammar.observe text).map (·.result) = .ok result ∧
      (∀ records, Terminated LineBreak RecordText text.toList records →
        result = .ok (.records records)) ∧
      ∀ payload, result = .ok payload ↔
        ∃ records, Separated LineBreak RecordText text.toList records ∧
          payload = .records (dropTrailing records) :=
  ⟨reading.answer text.toList, grammar_reads.observe text, fun _ => answer_of_terminated,
    fun _ => answer_iff⟩

/-! ## The last line break -/

/-- A record whose text is not empty is dropped at the end of a text if it is a pair of quotes. -/
theorem recordText_blank_iff_quotes {text : List Char} {record : Record}
    (h : RecordText text record) (hne : text ≠ []) : record = [[]] ↔ text = ['"', '"'] := by
  constructor
  · rintro rfl
    exact (recordText_blank_iff.mp h).resolve_left hne
  · rintro rfl
    exact recordText_unique h (recordText_blank_iff.mpr (.inr rfl))

/--
Every text that is answered ends in a record that no line break stands behind.  Where something was
written for this record, a line break behind it makes no difference, unless it is a pair of quotes:
this alone is dropped at the end of a text, although it is a record when a line break follows.
-/
theorem answers_without_final_break (text : String) :
    ∃ result withBreak, (grammar.observe text).map (·.result) = .ok result ∧
      (grammar.observe (text ++ "\n")).map (·.result) = .ok withBreak ∧
      ((∃ payload, result = .ok payload) ↔
        ∃ front last records record, text.toList = front ++ last ∧
          Terminated LineBreak RecordText front records ∧ RecordText last record) ∧
      ∀ front last records record, text.toList = front ++ last → last ≠ [] →
        Terminated LineBreak RecordText front records → RecordText last record →
          withBreak = .ok (.records (records ++ [record])) ∧
            result =
              .ok (.records (if last = ['"', '"'] then records else records ++ [record])) := by
  refine ⟨_, _, grammar_reads.observe text, grammar_reads.observe (text ++ "\n"), ?_, ?_⟩
  · constructor
    · rintro ⟨payload, hanswer⟩
      obtain ⟨rows, hrows, -⟩ := answer_iff.mp hanswer
      obtain ⟨front, last, records, record, hfront, hlast, htext, -⟩ := hrows.exists_terminated
      exact ⟨front, last, records, record, htext, hfront, hlast⟩
    · rintro ⟨front, last, records, record, htext, hfront, hlast⟩
      rw [htext]
      exact ⟨_, answer_of_terminated_append hfront hlast⟩
  · intro front last records record htext hne hfront hlast
    rw [String.toList_append, htext]
    constructor
    · rw [List.append_assoc]
      exact answer_of_terminated (hfront.append hlast .lf)
    · rw [answer_of_terminated_append hfront hlast]
      simp only [recordText_blank_iff_quotes hlast hne]

/-- A pair of quotes is one record if a line break follows, and no record at all if not. -/
theorem quotes_without_final_break :
    (grammar.observe "\"\"").map (·.result) = .ok (.ok (.records [])) ∧
      (grammar.observe "\"\"\n").map (·.result) = .ok (.ok (.records [[[]]])) := by
  obtain ⟨result, withBreak, hresult, hwithBreak, -, hbreak⟩ :=
    answers_without_final_break "\"\""
  have hquotes : RecordText ['"', '"'] [[]] := recordText_blank_iff.mpr (.inr rfl)
  obtain ⟨rfl, rfl⟩ := hbreak [] ['"', '"'] [] [[]] rfl (List.cons_ne_nil _ _) .nil hquotes
  exact ⟨hresult, hwithBreak⟩

end Packrat.Csv
