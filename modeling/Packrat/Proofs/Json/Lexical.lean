import Packrat.Proofs.Json.Strings
import Packrat.Proofs.Ladder.Groups
import Packrat.Proofs.Reader.Blank

/-!
# White space in JSON

Symbols, keys and values may have white space on both sides, and their readers skip it all.  A
reader is `Lexical` for a language if it does so, and reads just the language between the blanks;
lists and their separators are put together from such readers.
-/

namespace Packrat.Json

open Packrat.Parser Reader
open Text (byteLength)

/-! ## Blanks -/

theorem blank_nil : Blank [] := fun _ hc => by cases hc

theorem Blank.append {text text' : List Char} (h : Blank text) (h' : Blank text') :
    Blank (text ++ text') := by
  intro c hc
  rcases List.mem_append.mp hc with hc | hc
  · exact h c hc
  · exact h' c hc

theorem blank_takeWhile (rest : List Char) : Blank (rest.takeWhile Text.isBlank) :=
  List.all_eq_true.mp List.all_takeWhile

/-- Blanks in front of a text are skipped together with those at its front. -/
theorem Blank.skip_append {text : List Char} (h : Blank text) (rest : List Char) :
    skipBlanks (text ++ rest) = skipBlanks rest :=
  List.dropWhile_append_of_pos h

/-- Nothing blank goes on with a number. -/
theorem continues_of_blank {c : Char} (h : Text.isBlank c = true) : continues c = false := by
  refine Bool.eq_false_iff.mpr fun hc => ?_
  have hfalse : Text.isBlank c = false := by
    simp only [continues, Bool.or_eq_true, beq_iff_eq] at hc
    rcases hc with ((hdigit | rfl) | rfl) | rfl
    · have hrange := isDigit_iff_toNat.mp hdigit
      exact isBlank_eq_false (by omega) (by omega)
    · decide
    · decide
    · decide
  rw [h] at hfalse
  cases hfalse

theorem unlike_blank {text rest : List Char} (h : Blank text) (hrest : Unlike continues rest) :
    Unlike continues (text ++ rest) := by
  cases text with
  | nil => exact hrest
  | cons c text => exact unlike_cons.mpr (continues_of_blank (h c (List.mem_cons_self ..)))

theorem spaced_blanks {β : Type} {spells : List Char → β → Prop} {before text after : List Char}
    {x : β} (hbefore : Blank before) (h : Spaced spells text x) (hafter : Blank after) :
    Spaced spells (before ++ text ++ after) x := by
  obtain @⟨before', text, after', x, hbefore', h, hafter'⟩ := h
  have hmk := Spaced.mk (hbefore.append hbefore') h (hafter'.append hafter)
  simpa only [List.append_assoc] using hmk

theorem Spaced.of_spells {β : Type} {spells : List Char → β → Prop} {text : List Char} {x : β}
    (h : spells text x) : Spaced spells text x := by
  simpa using Spaced.mk blank_nil h blank_nil

/-! ## Lexical readers -/

/--
On texts of less than `limit` bytes, the reader skips all blanks around a text of the language, and
reads the language between them; what stops it does not go on with a number.
-/
structure Lexical {β : Type} (limit : Nat) (reader : Reader β) (language : List Char → β → Prop) :
    Prop where
  skips : ∀ {rest}, byteLength rest < limit → reader (skipBlanks rest) = reader rest
  sound : ∀ {rest x shorter}, byteLength rest < limit → reader rest = some (x, shorter) →
    ∃ text, rest = text ++ shorter ∧ Spaced language text x
  complete : ∀ {text x shorter}, byteLength (text ++ shorter) < limit → language text x →
    Unlike continues shorter → reader (text ++ shorter) = some (x, skipBlanks shorter)

namespace Lexical

variable {β γ : Type} {limit : Nat} {reader : Reader β} {language language' : List Char → β → Prop}

/-- A blank text in front changes nothing. -/
theorem skip_append (h : Lexical limit reader language) {text rest : List Char}
    (htext : Blank text) (hrest : byteLength (text ++ rest) < limit) :
    reader (text ++ rest) = reader rest := by
  rw [Text.byteLength_append] at hrest
  have hskip : reader (skipBlanks rest) = reader rest := h.skips (by omega)
  rw [← hskip, ← htext.skip_append, h.skips]
  rw [Text.byteLength_append]
  exact hrest

/-- A text with blanks around it is read with the blanks behind it. -/
theorem complete_spaced (h : Lexical limit reader language) {text shorter : List Char} {x : β}
    (hrest : byteLength (text ++ shorter) < limit) (hx : Spaced language text x)
    (hstop : Unlike continues shorter) :
    reader (text ++ shorter) = some (x, skipBlanks shorter) := by
  obtain @⟨before, text, after, x, hbefore, hx, hafter⟩ := hx
  simp only [List.append_assoc] at hrest ⊢
  rw [h.skip_append hbefore hrest, h.complete ?_ hx (unlike_blank hafter hstop),
    hafter.skip_append]
  rw [Text.byteLength_append] at hrest
  omega

/-- The same language in other words. -/
theorem congr (h : Lexical limit reader language)
    (hlanguage : ∀ text x, language text x ↔ language' text x) :
    Lexical limit reader language' := by
  have heq : language = language' := by
    funext text x
    exact propext (hlanguage text x)
  rwa [← heq]

theorem map (f : β → γ) (h : Lexical limit reader language) :
    Lexical limit (Reader.map f reader) fun text y => ∃ x, language text x ∧ y = f x where
  skips hrest := by rw [Reader.map, Reader.map, h.skips hrest]
  sound hrest hread := by
    obtain ⟨⟨x, shorter⟩, hread', heq⟩ := Option.map_eq_some_iff.mp hread
    cases heq
    obtain ⟨text, htext, hx⟩ := h.sound hrest hread'
    refine ⟨text, htext, ?_⟩
    obtain @⟨before, text, after, x, hbefore, hx, hafter⟩ := hx
    exact .mk hbefore ⟨x, hx, rfl⟩ hafter
  complete hrest hx hstop := by
    obtain ⟨x, hx, rfl⟩ := hx
    rw [Reader.map, h.complete hrest hx hstop]
    rfl

/-- Nothing is read where no text of the language begins behind the blanks. -/
theorem eq_none {accepts : Char → Bool} (h : Lexical limit reader language)
    (hleads : Leads accepts language) {rest : List Char} (hrest : byteLength rest < limit)
    (hunlike : Unlike accepts (skipBlanks rest)) : reader rest = none := by
  have hskipped := Nat.lt_of_le_of_lt (byteLength_skipBlanks_le rest) hrest
  rw [← h.skips hrest]
  cases hread : reader (skipBlanks rest) with
  | none => rfl
  | some found =>
      obtain ⟨text, htext, hx⟩ := h.sound hskipped hread
      obtain @⟨before, text, after, x, hbefore, hx, hafter⟩ := hx
      obtain ⟨c, cs, rfl, haccepts⟩ := hleads _ _ hx
      have hblank := unlike_skipBlanks rest
      rw [htext] at hunlike hblank
      cases before with
      | nil =>
          have hrefused : accepts c = false := hunlike c (by simp)
          rw [haccepts] at hrefused
          cases hrefused
      | cons b before =>
          have hfalse : Text.isBlank b = false := hblank b (by simp)
          rw [hbefore b (List.mem_cons_self ..)] at hfalse
          cases hfalse

theorem first_nil : Lexical limit (Reader.first []) (fun _ (_ : β) => False) where
  skips _ := rfl
  sound _ hread := by cases hread
  complete _ hx _ := hx.elim

/-- Readers whose languages begin differently, and not with blanks. -/
theorem first_cons {accepts accepts' : Char → Bool} {readers : List (Reader β)}
    (h : Lexical limit reader language) (hothers : Lexical limit (Reader.first readers) language')
    (hleads : Leads accepts language) (hleads' : Leads accepts' language')
    (haccepts' : ∀ c, accepts' c = true → accepts c = false ∧ Text.isBlank c = false) :
    Lexical limit (Reader.first (reader :: readers))
      (fun text x => language text x ∨ language' text x) where
  skips hrest := by rw [Reader.first, h.skips hrest, hothers.skips hrest, Reader.first]
  sound hrest hread := by
    rcases Option.or_eq_some_iff.mp hread with hread | ⟨-, hread⟩
    · obtain ⟨text, htext, hbefore, hx, hafter⟩ := h.sound hrest hread
      exact ⟨_, htext, .mk hbefore (.inl hx) hafter⟩
    · obtain ⟨text, htext, hbefore, hx, hafter⟩ := hothers.sound hrest hread
      exact ⟨_, htext, .mk hbefore (.inr hx) hafter⟩
  complete {text x shorter} hrest hx hstop := by
    rw [Reader.first]
    rcases hx with hx | hx
    · rw [h.complete hrest hx hstop, Option.some_or]
    · obtain ⟨c, cs, rfl, hc⟩ := hleads' _ _ hx
      obtain ⟨hrefused, hblank⟩ := haccepts' c hc
      have hskip : skipBlanks (c :: cs ++ shorter) = c :: cs ++ shorter :=
        skip_of_unlike (unlike_cons.mpr hblank)
      rw [h.eq_none hleads hrest (by rw [hskip]; exact unlike_cons.mpr hrefused),
        hothers.complete hrest hx hstop, Option.none_or]

/-- Further blanks around do not matter. -/
theorem padded (h : Lexical limit reader language) :
    Lexical limit (Reader.padded reader) language where
  skips _ := by rw [Reader.padded, Reader.padded, skip_skipBlanks]
  sound {rest x shorter} hrest hread := by
    obtain ⟨⟨x, behind⟩, hread', heq⟩ := Option.map_eq_some_iff.mp hread
    cases heq
    rw [h.skips hrest] at hread'
    obtain ⟨text, rfl, hx⟩ := h.sound hrest hread'
    refine ⟨_, ?_, spaced_blanks blank_nil hx (blank_takeWhile behind)⟩
    rw [List.nil_append, List.append_assoc, ← takeWhile_append_skipBlanks behind]
  complete {text x shorter} hrest hx hstop := by
    rw [Reader.padded, h.skips hrest, h.complete hrest hx hstop]
    simp

end Lexical

/-- A reader for a language whose texts do not begin with blanks, with all blanks skipped. -/
theorem lexical_padded {β : Type} {limit : Nat} {reader : Reader β} {accepts : Char → Bool}
    {language : List Char → β → Prop} (h : Exact limit reader language (Unlike continues))
    (hleads : Leads accepts language) (haccepts : ∀ c, accepts c = true → Text.isBlank c = false) :
    Lexical limit (Reader.padded reader) language where
  skips _ := by rw [Reader.padded, Reader.padded, skip_skipBlanks]
  sound {rest x shorter} hrest hread := by
    obtain ⟨⟨x, behind⟩, hread', heq⟩ := Option.map_eq_some_iff.mp hread
    cases heq
    obtain ⟨text, htext, hx⟩ :=
      h.sound (Nat.lt_of_le_of_lt (byteLength_skipBlanks_le rest) hrest) hread'
    have hspaced := Spaced.mk (blank_takeWhile rest) hx (blank_takeWhile behind)
    refine ⟨_, ?_, hspaced⟩
    rw [List.append_assoc, List.append_assoc]
    calc rest = rest.takeWhile Text.isBlank ++ (text ++ behind) := by
          rw [← htext]
          exact takeWhile_append_skipBlanks rest
      _ = _ := by
          rw [← takeWhile_append_skipBlanks behind]
  complete {text x shorter} hrest hx hstop := by
    obtain ⟨c, cs, rfl, hc⟩ := hleads _ _ hx
    have hskip : skipBlanks (c :: cs ++ shorter) = c :: cs ++ shorter :=
      skip_of_unlike (unlike_cons.mpr (haccepts c hc))
    rw [Reader.padded, hskip, h.complete hrest hx hstop]
    rfl

/-! ## Symbols -/

section Symbols

variable {symbol : String} {c : Char} {rest shorter : List Char}

theorem behind_sound (hsymbol : symbol.toList = [c]) (h : behind symbol rest = some shorter) :
    ∃ before after, Blank before ∧ Blank after ∧ rest = before ++ c :: (after ++ shorter) := by
  rw [behind, hsymbol] at h
  obtain ⟨hstarts, heq⟩ := Option.ite_none_right_eq_some.mp h
  obtain ⟨tail, htail⟩ := List.isPrefixOf_iff_prefix.mp hstarts
  rw [← htail] at heq
  cases heq
  refine ⟨_, tail.takeWhile Text.isBlank, blank_takeWhile rest, blank_takeWhile tail, ?_⟩
  calc rest = rest.takeWhile Text.isBlank ++ skipBlanks rest := takeWhile_append_skipBlanks rest
    _ = rest.takeWhile Text.isBlank ++ c :: tail := by rw [← htail]; rfl
    _ = _ := by
        congr 2
        exact takeWhile_append_skipBlanks tail

end Symbols

/-! ## Lists -/

/-- An item behind a comma. -/
def afterComma (item : Reader Payload) : Reader Payload := fun rest =>
  (behind "," rest).bind item

/-- What is read of items with commas between them. -/
theorem joinedReading_eq (item : Reader Payload) (rest : List Char) :
    Ladder.joinedReading .items Payload.toItems item (symbol ",").read rest =
      match item rest with
      | none => some (.items [], rest)
      | some (x, shorter) => some (Prod.map (fun xs => .items (x :: xs)) id
          (Reader.many (afterComma item) shorter)) := by
  have htail : Ladder.tailReading .items (symbol ",").read item = afterComma item := by
    funext rest
    rw [afterComma, Ladder.tailReading, Reader.map, Reader.all, symbol, read_token]
    cases behind "," rest with
    | none => rfl
    | some shorter =>
        simp only [Option.map_some, Option.bind_some, Reader.all]
        cases item shorter <;> rfl
  rw [Ladder.joinedReading, htail, Reader.optional, Reader.map, Reader.all]
  cases item rest <;> rfl

section Lists

variable {limit : Nat} {item : Reader Payload} {language : List Char → Payload → Prop}

theorem comma : ",".toList = [','] := rfl

/-- The items behind the first one, each behind a comma. -/
theorem tails_sound (h : Lexical limit item language) {rest shorter text : List Char}
    {x : Payload} {xs : List Payload} (hrest : byteLength rest < limit)
    (hread : Reader.many (afterComma item) rest = (xs, shorter))
    (hx : Spaced language text x) :
    ∃ texts, rest = texts ++ shorter ∧ Listed (Spaced language) (text ++ texts) (x :: xs) := by
  fun_induction Reader.many (afterComma item) rest
      generalizing text x xs with
  | case1 rest hnone =>
      cases hread
      exact ⟨[], rfl, by rw [List.append_nil]; exact .one hx⟩
  | case2 rest y behind' hsome hlt ih =>
      obtain ⟨inner, hbehind, hitem⟩ := Option.bind_eq_some_iff.mp hsome
      obtain ⟨before, after, hbefore, hafter, rfl⟩ := behind_sound comma hbehind
      have hinner : byteLength inner < limit := by
        simp only [Text.byteLength_append, Text.byteLength_cons] at hrest
        omega
      obtain ⟨text', rfl, hy⟩ := h.sound hinner hitem
      have hy' : Spaced language (after ++ text') y := by
        simpa using spaced_blanks hafter hy blank_nil
      rcases hmany : Reader.many (afterComma item) behind' with ⟨ys, last⟩
      rw [hmany] at hread
      obtain ⟨rfl, rfl⟩ := Prod.mk.inj hread
      obtain ⟨texts, rfl, hlisted⟩ := ih (Nat.lt_trans hlt hrest) hmany hy'
      have hx' : Spaced language (text ++ before) x := by
        simpa using spaced_blanks blank_nil hx hbefore
      refine ⟨before ++ ',' :: (after ++ text' ++ texts), ?_, ?_⟩
      · simp
      · simpa using Listed.more hx' hlisted
  | case3 rest y behind' hsome hlt =>
      obtain ⟨inner, hbehind, hitem⟩ := Option.bind_eq_some_iff.mp hsome
      have hinner := behind_lt (by decide) hbehind
      obtain ⟨text', rfl, -⟩ := h.sound (Nat.lt_trans hinner hrest) hitem
      rw [Text.byteLength_append] at hinner
      exact absurd (by omega) hlt

/-- Items with commas between them are read one by one up to what does not go on with them. -/
theorem items_complete (h : Lexical limit item language) {text shorter : List Char}
    {xs : List Payload} (hlisted : Listed (Spaced language) text xs)
    (hrest : byteLength (text ++ shorter) < limit) (hstop : Unlike continues shorter)
    (hcomma : Unlike (· == ',') (skipBlanks shorter)) :
    ∃ x xs' behind', xs = x :: xs' ∧ item (text ++ shorter) = some (x, behind') ∧
      Reader.many (afterComma item) behind' =
        (xs', skipBlanks shorter) := by
  induction hlisted with
  | @one text x hx =>
      refine ⟨x, [], _, rfl, h.complete_spaced hrest hx hstop, many_of_none ?_⟩
      have hnone : behind "," shorter = none := behind_eq_none comma hcomma
      rw [afterComma, behind_skipBlanks, hnone]
      rfl
  | @more text texts x xs hx _ ih =>
      have hassoc : text ++ ',' :: texts ++ shorter = text ++ ',' :: (texts ++ shorter) := by simp
      rw [hassoc] at hrest ⊢
      have hbehind : byteLength (texts ++ shorter) < limit := by
        rw [Text.byteLength_append, Text.byteLength_cons] at hrest
        omega
      obtain ⟨y, ys, behind', rfl, hitem, hmany⟩ := ih hbehind
      have hfirst := h.complete_spaced hrest hx (unlike_cons.mpr rfl)
      rw [skip_of_unlike (unlike_cons.mpr (by decide))] at hfirst
      refine ⟨x, y :: ys, _, rfl, hfirst, ?_⟩
      obtain ⟨text', htext', -⟩ := h.sound hbehind hitem
      have hshorter : byteLength behind' < byteLength (',' :: (texts ++ shorter)) := by
        rw [htext', Text.byteLength_cons, Text.byteLength_append]
        have hpos := (',').utf8Size_pos
        omega
      have hcomma' : behind "," (',' :: (texts ++ shorter)) =
          some (skipBlanks (texts ++ shorter)) := behind_cons comma (by decide)
      have htail : afterComma item (',' :: (texts ++ shorter)) = some (y, behind') := by
        rw [afterComma, hcomma', Option.bind_some, h.skips hbehind, hitem]
      rw [many_of_some htail hshorter, hmany]
      rfl

/-- Items with commas between them, or none, between two brackets. -/
inductive Bracketed {β : Type} (opening closing : Char) (item : List Char → β → Prop) :
    List Char → List β → Prop where
  | empty {blanks : List Char} (h : Blank blanks) :
      Bracketed opening closing item (opening :: (blanks ++ [closing])) []
  | listed {text : List Char} {xs : List β} (h : Listed item text xs) :
      Bracketed opening closing item (opening :: (text ++ [closing])) xs

/-- What is read of a list in brackets. -/
def listReading (opening closing : String) (item : Reader Payload) : Reader Payload :=
  Reader.map (fun payloads => payloads.getD 1 filler) (Reader.all
    [(symbol opening).read, Ladder.joinedReading .items Payload.toItems item (symbol ",").read,
      (symbol closing).read])

theorem listReading_eq (opening closing : String) (item : Reader Payload) (rest : List Char) :
    listReading opening closing item rest =
      (behind opening rest).bind fun rest =>
        (Ladder.joinedReading .items Payload.toItems item (symbol ",").read rest).bind
          fun (x, rest) => (behind closing rest).map (x, ·) := by
  simp only [listReading, Reader.map, Reader.all, symbol, read_token]
  cases behind opening rest with
  | none => rfl
  | some inner =>
      simp only [Option.map_some, Option.bind_some, Option.map_map]
      cases Ladder.joinedReading .items Payload.toItems item
          (token filler "," filler).read inner with
      | none => rfl
      | some found =>
          simp only [Option.bind_some]
          cases behind closing found.2 <;> rfl

variable {opening closing : String} {open' close' : Char} {accepts : Char → Bool}

theorem listed_blanks {β : Type} {spells : List Char → β → Prop} {before text after : List Char}
    {xs : List β} (hbefore : Blank before) (h : Listed (Spaced spells) text xs)
    (hafter : Blank after) : Listed (Spaced spells) (before ++ text ++ after) xs := by
  induction h generalizing before with
  | one h => exact .one (spaced_blanks hbefore h hafter)
  | @more text texts x xs h _ ih =>
      have hmore := Listed.more (spaced_blanks hbefore h blank_nil) (ih blank_nil)
      simpa using hmore

theorem list_sound (h : Lexical limit item language) (hopening : opening.toList = [open'])
    (hclosing : closing.toList = [close']) {rest shorter : List Char} {x : Payload}
    (hrest : byteLength rest < limit + 1)
    (hread : listReading opening closing item rest = some (x, shorter)) :
    ∃ text, rest = text ++ shorter ∧ Spaced (fun text payload => ∃ xs,
      Bracketed open' close' (Spaced language) text xs ∧ payload = .items xs) text x := by
  rw [listReading_eq] at hread
  obtain ⟨inner, hbehind, hread⟩ := Option.bind_eq_some_iff.mp hread
  obtain ⟨⟨y, last⟩, hjoined, hread⟩ := Option.bind_eq_some_iff.mp hread
  obtain ⟨shorter', hlast, heq⟩ := Option.map_eq_some_iff.mp hread
  cases heq
  obtain ⟨before, after, hbefore, hafter, rfl⟩ := behind_sound hopening hbehind
  obtain ⟨before', after', hbefore', hafter', rfl⟩ := behind_sound hclosing hlast
  have hinner : byteLength inner < limit := by
    have hpos := open'.utf8Size_pos
    simp only [Text.byteLength_append, Text.byteLength_cons] at hrest
    omega
  rw [joinedReading_eq] at hjoined
  cases hitem : item inner with
  | none =>
      rw [hitem] at hjoined
      cases hjoined
      refine ⟨before ++ (open' :: ((after ++ before') ++ [close'])) ++ after', by simp, ?_⟩
      exact .mk hbefore ⟨[], .empty (hafter.append hbefore'), rfl⟩ hafter'
  | some found =>
      obtain ⟨x, behind'⟩ := found
      rcases hmany : Reader.many (afterComma item) behind' with ⟨xs, last⟩
      rw [hitem] at hjoined
      dsimp only at hjoined
      rw [hmany] at hjoined
      obtain ⟨rfl, rfl⟩ := Prod.mk.inj (Option.some.inj hjoined)
      obtain ⟨text, rfl, hx⟩ := h.sound hinner hitem
      have hbehind' : byteLength behind' < limit := by
        rw [Text.byteLength_append] at hinner
        omega
      obtain ⟨texts, rfl, hlisted⟩ := tails_sound h hbehind' hmany hx
      refine ⟨before ++ (open' :: ((after ++ (text ++ texts) ++ before') ++ [close'])) ++ after',
        by simp, ?_⟩
      exact .mk hbefore ⟨_, .listed (listed_blanks hafter hlisted hbefore'), rfl⟩ hafter'

theorem list_complete (h : Lexical limit item language) (hleads : Leads accepts language)
    (hopening : opening.toList = [open']) (hclosing : closing.toList = [close'])
    (hopen : Text.isBlank open' = false) (hclose : Text.isBlank close' = false)
    (hcontinues : continues close' = false) (hrefused : accepts close' = false)
    (hcomma : close' ≠ ',') {text shorter : List Char} {xs : List Payload}
    (hrest : byteLength (text ++ shorter) < limit + 1)
    (hx : Bracketed open' close' (Spaced language) text xs) :
    listReading opening closing item (text ++ shorter) = some (.items xs, skipBlanks shorter) := by
  have hskip : ∀ rest, skipBlanks (close' :: rest) = close' :: rest :=
    fun rest => skip_of_unlike (unlike_cons.mpr hclose)
  have hpos := open'.utf8Size_pos
  rw [listReading_eq]
  cases hx with
  | @empty blanks hblanks =>
      have hassoc : open' :: (blanks ++ [close']) ++ shorter =
          open' :: (blanks ++ close' :: shorter) := by simp
      rw [hassoc] at hrest ⊢
      rw [behind_cons hopening hopen, Option.bind_some, hblanks.skip_append, hskip]
      have hnone : item (close' :: shorter) = none := by
        refine h.eq_none hleads ?_ (by rw [hskip]; exact unlike_cons.mpr hrefused)
        simp only [Text.byteLength_cons, Text.byteLength_append] at hrest ⊢
        omega
      rw [joinedReading_eq, hnone]
      dsimp only [Option.bind_some]
      rw [behind_cons hclosing hclose]
      rfl
  | @listed inner xs hlisted =>
      have hassoc : open' :: (inner ++ [close']) ++ shorter =
          open' :: (inner ++ close' :: shorter) := by simp
      rw [hassoc] at hrest ⊢
      rw [behind_cons hopening hopen, Option.bind_some]
      have hinner : byteLength (inner ++ close' :: shorter) < limit := by
        rw [Text.byteLength_cons] at hrest
        omega
      obtain ⟨x, xs', behind', rfl, hitem, hmany⟩ := items_complete h hlisted hinner
        (unlike_cons.mpr hcontinues)
        (by rw [hskip]; exact unlike_cons.mpr (beq_eq_false_iff_ne.mpr hcomma))
      rw [joinedReading_eq, h.skips hinner, hitem]
      dsimp only [Option.bind_some]
      rw [hmany, hskip]
      dsimp only [Prod.map_apply, id]
      rw [behind_cons hclosing hclose]
      rfl

/-- A list in brackets is lexical if its items are, in front of texts that are shorter by one. -/
theorem list_lexical (h : Lexical limit item language) (hleads : Leads accepts language)
    (hopening : opening.toList = [open']) (hclosing : closing.toList = [close'])
    (hopen : Text.isBlank open' = false) (hclose : Text.isBlank close' = false)
    (hcontinues : continues close' = false) (hrefused : accepts close' = false)
    (hcomma : close' ≠ ',') :
    Lexical (limit + 1) (listReading opening closing item) fun text payload =>
      ∃ xs, Bracketed open' close' (Spaced language) text xs ∧ payload = .items xs where
  skips {rest} _ := by rw [listReading_eq, listReading_eq, behind_skipBlanks]
  sound hrest hread := list_sound h hopening hclosing hrest hread
  complete hrest hx _ := by
    obtain ⟨xs, hx, rfl⟩ := hx
    exact list_complete h hleads hopening hclosing hopen hclose hcontinues hrefused hcomma hrest hx

end Lists

end Packrat.Json
