import Packrat.Proofs.Reader.Exact
import Packrat.Proofs.Reader.Transfer

/-!
# Items with separators between them

Separators stand between items, terminators behind them.  A reader of separated items goes on for
as long as a separator has an item behind it.
-/

namespace Packrat.Reader

open Text (byteLength)

variable {β γ : Type}

/-! ## Languages -/

/-- One or more texts of a language with separators between them. -/
inductive Separated (separator : List Char → Prop) (item : List Char → β → Prop) :
    List Char → List β → Prop where
  | one {text : List Char} {x : β} (h : item text x) : Separated separator item text [x]
  | more {text mark texts : List Char} {x : β} {xs : List β} (h : item text x)
      (hmark : separator mark) (hs : Separated separator item texts xs) :
      Separated separator item (text ++ (mark ++ texts)) (x :: xs)

/-- Texts of a language, each with a terminator behind it. -/
inductive Terminated (terminator : List Char → Prop) (item : List Char → β → Prop) :
    List Char → List β → Prop where
  | nil : Terminated terminator item [] []
  | cons {text mark texts : List Char} {x : β} {xs : List β} (h : item text x)
      (hmark : terminator mark) (hs : Terminated terminator item texts xs) :
      Terminated terminator item (text ++ (mark ++ texts)) (x :: xs)

section Languages

variable {separator : List Char → Prop} {item : List Char → β → Prop} {text front last : List Char}
  {x : β} {xs : List β}

theorem Separated.ne_nil (h : Separated separator item text xs) : xs ≠ [] := by
  cases h <;> exact List.cons_ne_nil _ _

/-- A further item behind terminated ones is separated from them. -/
theorem Terminated.append_item (h : Terminated separator item front xs) (hlast : item last x) :
    Separated separator item (front ++ last) (xs ++ [x]) := by
  induction h with
  | nil => exact .one hlast
  | cons hitem hmark _ ih =>
      have hmore := Separated.more hitem hmark ih
      simpa only [List.append_assoc, List.cons_append] using hmore

/-- All separated items but the last are terminated. -/
theorem Separated.exists_terminated (h : Separated separator item text xs) :
    ∃ front last ys y, Terminated separator item front ys ∧ item last y ∧
      text = front ++ last ∧ xs = ys ++ [y] := by
  induction h with
  | @one text x hitem => exact ⟨[], text, [], x, .nil, hitem, rfl, rfl⟩
  | @more text mark texts x xs hitem hmark _ ih =>
      obtain ⟨front, last, ys, y, hfront, hlast, rfl, rfl⟩ := ih
      have hcons := Terminated.cons hitem hmark hfront
      exact ⟨text ++ (mark ++ front), last, x :: ys, y, hcons, hlast, by simp, rfl⟩

/-- One more terminated item at the end. -/
theorem Terminated.append {mark : List Char} (h : Terminated separator item front xs)
    (hlast : item last x) (hmark : separator mark) :
    Terminated separator item (front ++ (last ++ mark)) (xs ++ [x]) := by
  induction h with
  | nil => simpa using Terminated.cons hlast hmark .nil
  | cons hitem hmark' _ ih =>
      have hcons := Terminated.cons hitem hmark' ih
      simpa only [List.append_assoc, List.cons_append] using hcons

/-- Behind a separator stands an item. -/
def Behind (separator : List Char → Prop) (item : List Char → β → Prop) (text : List Char)
    (x : β) : Prop :=
  ∃ mark behind, text = mark ++ behind ∧ separator mark ∧ item behind x

/-- Separated items are one item and, over and over, a separator with one more. -/
theorem separated_iff_star :
    Separated separator item text xs ↔
      ∃ first others x xs', text = first ++ others ∧ xs = x :: xs' ∧ item first x ∧
        Star (Behind separator item) others xs' := by
  constructor
  · intro h
    induction h with
    | @one text x hitem => exact ⟨text, [], x, [], (List.append_nil _).symm, rfl, hitem, .nil⟩
    | @more text mark texts x xs hitem hmark _ ih =>
        obtain ⟨first, others, y, ys, rfl, rfl, hfirst, hothers⟩ := ih
        have hcons : Star (Behind separator item) ((mark ++ first) ++ others) (y :: ys) :=
          .cons ⟨mark, first, rfl, hmark, hfirst⟩ hothers
        exact ⟨text, mark ++ first ++ others, x, y :: ys, by simp, rfl, hitem, hcons⟩
  · rintro ⟨first, others, x, xs', rfl, rfl, hfirst, hothers⟩
    induction hothers generalizing first x with
    | nil => simpa using Separated.one hfirst
    | @cons text texts y ys hbehind _ ih =>
        obtain ⟨mark, behind, rfl, hmark, hitem⟩ := hbehind
        have hmore := Separated.more hfirst hmark (ih behind y hitem)
        simpa only [List.append_assoc] using hmore

end Languages

/-! ## Readers -/

/-- The reader behind a separator. -/
def after (separator : Reader γ) (item : Reader β) : Reader β := fun rest =>
  (separator rest).bind fun found => item found.2

/-- One or more items with separators between them. -/
def separated (separator : Reader γ) (item : Reader β) : Reader (List β) := fun rest =>
  (item rest).map fun found =>
    Prod.map (found.1 :: ·) id (many (after separator item) found.2)

section Maps

variable {separator : Reader γ} {item : Reader β} {δ : Type} (f : β → δ)

theorem after_map : after separator (map f item) = map f (after separator item) := by
  funext rest
  rw [map, after, after, Option.map_bind]
  rfl

theorem separated_map :
    separated separator (map f item) = map (List.map f) (separated separator item) := by
  funext rest
  rw [separated, after_map, map, map, separated]
  cases item rest with
  | none => rfl
  | some found =>
      simp only [Option.map_some, many_map]
      rfl

end Maps

namespace Exact

variable {limit : Nat} {separator : Reader γ} {item : Reader β} {marks : List Char → γ → Prop}
  {mark : List Char → Prop} {language : List Char → β → Prop} {stops : List Char → Prop}

theorem after (hseparator : Exact limit separator marks fun _ => True)
    (hmark : ∀ text, mark text ↔ ∃ y, marks text y) (hitem : Exact limit item language stops) :
    Exact limit (Reader.after separator item) (Behind mark language) stops where
  sound {rest x shorter} hrest hread := by
    obtain ⟨⟨y, behind⟩, hfirst, hitemRead⟩ := Option.bind_eq_some_iff.mp hread
    clear hread
    obtain ⟨text, rfl, hy⟩ := hseparator.sound hrest hfirst
    rw [Text.byteLength_append] at hrest
    have hbehind : byteLength behind < limit := by omega
    obtain ⟨text', rfl, hx⟩ := hitem.sound hbehind hitemRead
    exact ⟨text ++ text', (List.append_assoc _ _ _).symm, text, text', rfl,
      (hmark text).mpr ⟨y, hy⟩, hx⟩
  complete {text x shorter} hrest hx hstop := by
    obtain ⟨text, behind, rfl, htext, hx⟩ := hx
    obtain ⟨y, hy⟩ := (hmark text).mp htext
    rw [List.append_assoc] at hrest ⊢
    rw [Reader.after, hseparator.complete hrest hy trivial, Option.bind_some]
    rw [Text.byteLength_append] at hrest
    exact hitem.complete (by omega) hx hstop

/-- Items may not go on with what separators begin with. -/
theorem separated (accepts : Char → Bool) (hseparator : Exact limit separator marks fun _ => True)
    (hmark : ∀ text, mark text ↔ ∃ y, marks text y) (hitem : Exact limit item language stops)
    (hleads : ∀ text, mark text → ∃ c cs, text = c :: cs ∧ accepts c = true)
    (hstops : ∀ c rest, accepts c = true → stops (c :: rest)) :
    Exact limit (Reader.separated separator item) (Separated mark language)
      (fun rest => stops rest ∧ Unlike accepts rest) := by
  have hafter := after hseparator hmark hitem
  have hlead : Leads accepts (Behind mark language) := by
    rintro text x ⟨text', behind, rfl, htext, -⟩
    obtain ⟨c, cs, rfl, hc⟩ := hleads _ htext
    exact ⟨c, _, rfl, hc⟩
  have hstar : ∀ text xs shorter, Star (Behind mark language) text xs → stops shorter →
      stops (text ++ shorter) := by
    intro text xs shorter hs hstop
    cases hs with
    | nil => exact hstop
    | cons h _ =>
        obtain ⟨c, cs, rfl, hc⟩ := hlead _ _ h
        exact hstops c _ hc
  have hmany := hafter.many (fun text x h => by
    obtain ⟨c, cs, rfl, -⟩ := hlead _ _ h
    exact List.cons_ne_nil _ _) hstar
  constructor
  · intro rest xs shorter hrest hread
    obtain ⟨⟨x, behind⟩, hfirst, heq⟩ := Option.map_eq_some_iff.mp hread
    obtain ⟨text, rfl, hx⟩ := hitem.sound hrest hfirst
    rw [Text.byteLength_append] at hrest
    have hbehind : byteLength behind < limit := by omega
    cases heq
    obtain ⟨others, hothers, hxs⟩ := hmany.sound hbehind rfl
    refine ⟨text ++ others, ?_, separated_iff_star.mpr ⟨text, others, x, _, rfl, rfl, hx, hxs⟩⟩
    rw [List.append_assoc]
    exact congrArg (text ++ ·) hothers
  · intro text xs shorter hrest hxs hstop
    obtain ⟨first, others, x, xs', rfl, rfl, hx, hothers⟩ := separated_iff_star.mp hxs
    rw [List.append_assoc] at hrest ⊢
    rw [Reader.separated, hitem.complete hrest hx (hstar _ _ _ hothers hstop.1)]
    rw [Text.byteLength_append] at hrest
    have hshorter : byteLength shorter < limit := by
      rw [Text.byteLength_append] at hrest
      omega
    have hread := hmany.complete (by omega) hothers
      ⟨hstop.1, hafter.eq_none hlead hshorter hstop.2⟩
    rw [Option.map_some, Option.some.inj hread]
    rfl

end Exact

end Packrat.Reader

/-! ## Parsers -/

namespace Packrat.Parser

open Reader

variable {α : Type} {first item separator : Parser α}

theorem read_guarded (id : Nat) (parser : Parser α) : (guarded id parser).read = parser.read := by
  funext rest
  rw [read, read, means]

theorem read_after (separator item : Parser α) (filler : α) :
    (sequence [separator, item] fun payloads => payloads.getD 1 filler).read =
      after separator.read item.read := by
  funext rest
  simp only [read_sequence, List.map_cons, List.map_nil, Reader.map, Reader.all, after]
  cases separator.read rest with
  | none => rfl
  | some found =>
      simp only [Option.bind_some]
      cases item.read found.2 <;> rfl

/-- An item and, over and over, a separator with one more. -/
theorem read_separated {filler : α} {collect combine join : List α → α}
    (hfirst : first.read = item.read) (hjoin : ∀ x xs, combine [x, collect xs] = join (x :: xs)) :
    (sequence [first, many (sequence [separator, item] fun payloads => payloads.getD 1 filler)
        collect] combine).read = Reader.map join (separated separator.read item.read) := by
  funext rest
  simp only [read_sequence _ combine, List.map_cons, List.map_nil, Reader.map, Reader.all,
    read_many, read_after, separated, hfirst]
  cases item.read rest with
  | none => rfl
  | some found =>
      obtain ⟨x, shorter⟩ := found
      simp only [Option.bind_some, Option.map_some, Prod.map, hjoin]
      rfl

theorem read_joined {tailId itemsId : Nat} {pack : List α → α} {unpack : α → List α}
    (hpack : ∀ x xs, pack (x :: unpack (pack xs)) = pack (x :: xs)) :
    (joined tailId itemsId pack unpack item separator).read =
      Reader.optional (fun xs => pack (xs.getD [])) (separated separator.read item.read) := by
  rw [joined, read_optional]
  refine (congrArg (Reader.optional _) (read_separated (read_guarded itemsId item) hpack)).trans ?_
  rw [read_guarded]
  funext rest
  rw [Reader.optional, Reader.optional, Reader.map]
  cases separated separator.read item.read rest <;> rfl

end Packrat.Parser
