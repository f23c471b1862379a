import Packrat.Proofs.Json.Language
import Packrat.Proofs.Json.Writing

/-!
# Printing and parsing again

The text that is written for a value, on one line or over several, is a document that denotes the
value with `null` in the place of infinities.  So what is parsed, printed and parsed again comes
back.
-/

namespace Packrat.Json

variable {v : Value} {style : Style} {depth : Nat}

/-! ## Values inside of values -/

mutual

/-- A value and all values inside of it. -/
def Value.parts : Value → List Value
  | .array items => .array items :: partsOfItems items
  | .object members => .object members :: partsOfMembers members
  | v => [v]

def partsOfItems : List Value → List Value
  | [] => []
  | v :: items => v.parts ++ partsOfItems items

def partsOfMembers : List (List Char × Value) → List Value
  | [] => []
  | (_, v) :: members => v.parts ++ partsOfMembers members

end

mutual

/-- A value with `null` in the place of every infinity. -/
def Value.withoutInfinities : Value → Value
  | .number x => if x.isInf then .null else .number x
  | .array items => .array (itemsWithoutInfinities items)
  | .object members => .object (membersWithoutInfinities members)
  | v => v

def itemsWithoutInfinities : List Value → List Value
  | [] => []
  | v :: items => v.withoutInfinities :: itemsWithoutInfinities items

def membersWithoutInfinities : List (List Char × Value) → List (List Char × Value)
  | [] => []
  | (key, v) :: members => (key, v.withoutInfinities) :: membersWithoutInfinities members

end

theorem keys_membersWithoutInfinities (members : List (List Char × Value)) :
    (membersWithoutInfinities members).map Prod.fst = members.map Prod.fst := by
  induction members with
  | nil => rfl
  | cons member members ih => rw [membersWithoutInfinities, List.map_cons, ih, List.map_cons]

mutual

/-- Values without infinities stay as they are. -/
theorem withoutInfinities_of_finite :
    (v : Value) → (∀ x, .number x ∈ v.parts → x.isInf = false) → v.withoutInfinities = v
  | .null, _ => rfl
  | .bool _, _ => rfl
  | .string _, _ => rfl
  | .number x, h => by rw [Value.withoutInfinities, h x (List.mem_singleton_self _)]; rfl
  | .array items, h => by
      rw [Value.withoutInfinities,
        itemsWithoutInfinities_of_finite items fun x hx => h x (List.mem_cons_of_mem _ hx)]
  | .object members, h => by
      rw [Value.withoutInfinities,
        membersWithoutInfinities_of_finite members fun x hx => h x (List.mem_cons_of_mem _ hx)]

theorem itemsWithoutInfinities_of_finite :
    (items : List Value) → (∀ x, .number x ∈ partsOfItems items → x.isInf = false) →
      itemsWithoutInfinities items = items
  | [], _ => rfl
  | v :: items, h => by
      rw [itemsWithoutInfinities,
        withoutInfinities_of_finite v fun x hx => h x (List.mem_append_left _ hx),
        itemsWithoutInfinities_of_finite items fun x hx => h x (List.mem_append_right _ hx)]

theorem membersWithoutInfinities_of_finite :
    (members : List (List Char × Value)) →
      (∀ x, .number x ∈ partsOfMembers members → x.isInf = false) →
        membersWithoutInfinities members = members
  | [], _ => rfl
  | (key, v) :: members, h => by
      rw [membersWithoutInfinities,
        withoutInfinities_of_finite v fun x hx => h x (List.mem_append_left _ hx),
        membersWithoutInfinities_of_finite members fun x hx => h x (List.mem_append_right _ hx)]

end

mutual

/-- Infinities are written as `null` anyway. -/
theorem writeAt_withoutInfinities (style : Style) (depth : Nat) :
    (v : Value) → writeAt style depth v.withoutInfinities = writeAt style depth v
  | .null => rfl
  | .bool _ => rfl
  | .string _ => rfl
  | .number x => by
      cases hx : x.isInf with
      | true => simp only [Value.withoutInfinities, hx, writeAt, writeNumber_of_isInf hx, if_true]
      | false => simp only [Value.withoutInfinities, hx, Bool.false_eq_true, if_false]
  | .array items => by
      rw [Value.withoutInfinities, writeAt, writeAt, writeItems_withoutInfinities]
  | .object members => by
      rw [Value.withoutInfinities, writeAt, writeAt, writeMembers_withoutInfinities]

theorem writeItems_withoutInfinities (style : Style) (depth : Nat) :
    (items : List Value) →
      writeItems style depth (itemsWithoutInfinities items) = writeItems style depth items
  | [] => rfl
  | v :: items => by
      rw [itemsWithoutInfinities, writeItems, writeItems, writeAt_withoutInfinities,
        writeItems_withoutInfinities]

theorem writeMembers_withoutInfinities (style : Style) (depth : Nat) :
    (members : List (List Char × Value)) →
      writeMembers style depth (membersWithoutInfinities members) =
        writeMembers style depth members
  | [] => rfl
  | (key, v) :: members => by
      rw [membersWithoutInfinities, writeMembers, writeMembers, writeAt_withoutInfinities,
        writeMembers_withoutInfinities]

end

/-! ## Parts of documents -/

theorem Listed.exists_item {β : Type} {item : List Char → β → Prop} {text : List Char} {xs : List β}
    (h : Listed item text xs) {x : β} (hx : x ∈ xs) : ∃ text', item text' x := by
  induction h with
  | one h => exact ⟨_, List.mem_singleton.mp hx ▸ h⟩
  | more h _ ih =>
      rcases List.mem_cons.mp hx with rfl | hx
      · exact ⟨_, h⟩
      · exact ih hx

theorem Spaced.exists_spells {β : Type} {spells : List Char → β → Prop} {text : List Char} {x : β}
    (h : Spaced spells text x) : ∃ text', spells text' x := by
  cases h with
  | mk _ h _ => exact ⟨_, h⟩

/-- The items of an array are spelled somewhere in its text. -/
theorem Spells.exists_item {text : List Char} {items : List Value} (h : Spells text (.array items))
    {item : Value} (hitem : item ∈ items) : ∃ text', Spells text' item := by
  cases h with
  | emptyArray => cases hitem
  | array h =>
      obtain ⟨text', h'⟩ := h.exists_item hitem
      exact h'.exists_spells

/-- So are the values of an object. -/
theorem Spells.exists_member {text : List Char} {object : Members}
    (h : Spells text (.object object)) {key : List Char} {value : Value}
    (hmember : (key, value) ∈ object) : ∃ text', Spells text' value := by
  cases h with
  | emptyObject => cases hmember
  | @object _ members _ h hobject =>
      have hlast := hobject.last key value hmember
      have hmem : (key, value) ∈ members := by
        obtain ⟨before, after, heq, -⟩ := List.lookup_eq_some_iff.mp hlast
        rw [← List.mem_reverse, heq]
        exact List.mem_append_right _ (List.mem_cons_self ..)
      obtain ⟨text', h'⟩ := h.exists_item hmem
      cases h' with
      | mk _ hvalue => exact hvalue.exists_spells

mutual

/-- Every part of a value that is spelled is spelled itself. -/
theorem exists_spells_part :
    (v : Value) → (∃ text, Spells text v) → ∀ part ∈ v.parts, ∃ text, Spells text part
  | .null, h => fun part hpart => List.mem_singleton.mp hpart ▸ h
  | .bool _, h => fun part hpart => List.mem_singleton.mp hpart ▸ h
  | .string _, h => fun part hpart => List.mem_singleton.mp hpart ▸ h
  | .number _, h => fun part hpart => List.mem_singleton.mp hpart ▸ h
  | .array items, ⟨text, h⟩ => fun part hpart => by
      rcases List.mem_cons.mp hpart with rfl | hpart
      · exact ⟨text, h⟩
      · exact exists_spells_items items (fun item hitem => h.exists_item hitem) part hpart
  | .object members, ⟨text, h⟩ => fun part hpart => by
      rcases List.mem_cons.mp hpart with rfl | hpart
      · exact ⟨text, h⟩
      · exact exists_spells_members members (fun key value hmember => h.exists_member hmember) part
          hpart

theorem exists_spells_items :
    (items : List Value) → (∀ item ∈ items, ∃ text, Spells text item) →
      ∀ part ∈ partsOfItems items, ∃ text, Spells text part
  | [], _ => fun part hpart => by cases hpart
  | v :: items, h => fun part hpart => by
      rcases List.mem_append.mp hpart with hpart | hpart
      · exact exists_spells_part v (h v (List.mem_cons_self ..)) part hpart
      · exact exists_spells_items items (fun item hitem => h item (List.mem_cons_of_mem _ hitem))
          part hpart

theorem exists_spells_members :
    (members : List (List Char × Value)) →
      (∀ key value, (key, value) ∈ members → ∃ text, Spells text value) →
        ∀ part ∈ partsOfMembers members, ∃ text, Spells text part
  | [], _ => fun part hpart => by cases hpart
  | (key, v) :: members, h => fun part hpart => by
      rcases List.mem_append.mp hpart with hpart | hpart
      · exact exists_spells_part v (h key v (List.mem_cons_self ..)) part hpart
      · exact exists_spells_members members
          (fun key value hmember => h key value (List.mem_cons_of_mem _ hmember)) part hpart

end

/-! ## Written values -/

/-- What the printer needs of a part: that a number is one and can be read back, and that an object
has no key twice. -/
def Printable : Value → Prop
  | .number x =>
      x.isNaN = false ∧ (x.isFinite = true → (Decimal.Numeral.ofChars (writeNumber x)).toFloat = x)
  | .object members => (members.map Prod.fst).Nodup
  | _ => True

theorem blank_newline (style : Style) (depth : Nat) : Blank (style.newline depth) := by
  cases style with
  | compact => exact blank_nil
  | pretty =>
      intro c hc
      rcases List.mem_cons.mp hc with rfl | hc
      · decide
      · rw [List.eq_of_mem_replicate hc]
        decide

/-- The texts of items, with a comma and blanks between them and blanks around them. -/
theorem listed_separated {β : Type} {item : List Char → β → Prop} {blanks after : List Char}
    (hblanks : Blank blanks) (hafter : Blank after) {texts : List (List Char)} {xs : List β}
    (h : List.Forall₂ item texts xs) (hne : texts ≠ []) :
    Listed (Spaced item) (blanks ++ separated (',' :: blanks) texts ++ after) xs := by
  induction h with
  | nil => exact absurd rfl hne
  | @cons text x texts xs hitem hrest ih =>
      cases hrest with
      | nil => exact .one (.mk hblanks hitem hafter)
      | @cons text' x' texts xs hitem' hrest =>
          have hmore := Listed.more (Spaced.mk hblanks hitem blank_nil) (ih (List.cons_ne_nil _ _))
          simpa [separated] using hmore

/-- Blanks around a key with its value belong to the key and to the value. -/
theorem Pair.of_spaced {text : List Char} {member : List Char × Value}
    (h : Spaced (Pair (Spaced Spells)) text member) : Pair (Spaced Spells) text member := by
  obtain @⟨before, _, after, _, hbefore, hpair, hafter⟩ := h
  obtain @⟨keyText, valueText, key, v, hkey, hvalue⟩ := hpair
  have hmk := Pair.mk (spaced_blanks hbefore hkey blank_nil) (spaced_blanks blank_nil hvalue hafter)
  simpa using hmk

theorem listed_pairs {text : List Char} {members : List (List Char × Value)}
    (h : Listed (Spaced (Pair (Spaced Spells))) text members) :
    Listed (Pair (Spaced Spells)) text members := by
  induction h with
  | one h => exact .one (.of_spaced h)
  | more h _ ih => exact .more (.of_spaced h) ih

theorem pair_colon (style : Style) {valueText : List Char} (key : List Char)
    (h : Spells valueText v) :
    Pair (Spaced Spells) (writeString key ++ style.colon ++ valueText) (key, v) := by
  have hkey := Spaced.of_spells (quoted_writeString key)
  cases style with
  | compact => simpa [Style.colon] using Pair.mk hkey (Spaced.of_spells h)
  | pretty =>
      have hblank : Blank [' '] := by
        intro c hc
        rw [List.mem_singleton.mp hc]
        decide
      have hmk := Pair.mk hkey (Spaced.mk hblank h blank_nil)
      simpa [Style.colon] using hmk

theorem spells_number {x : Float} (h : Printable (.number x)) :
    Spells (writeNumber x) (Value.withoutInfinities (.number x)) := by
  obtain ⟨hnan, hback⟩ := h
  cases hinf : x.isInf with
  | true =>
      rw [writeNumber_of_isInf hinf, Value.withoutInfinities, if_pos hinf]
      exact .null
  | false =>
      have hfinite := Decimal.isFinite_of_not hnan hinf
      obtain ⟨numeral, hliteral⟩ := exists_literal hfinite
      have h := Spells.number hliteral
      rw [← hliteral.ofChars_eq, hback hfinite] at h
      rwa [Value.withoutInfinities, if_neg (by simp [hinf])]

theorem spells_array {style : Style} {depth : Nat} {texts : List (List Char)} {items : List Value}
    (h : List.Forall₂ Spells texts items) :
    Spells (style.bracket depth '[' ']' texts) (.array items) := by
  cases h with
  | nil => exact .emptyArray blank_nil
  | cons hitem hrest =>
      have hlisted := listed_separated (blank_newline style (depth + 1)) (blank_newline style depth)
        (.cons hitem hrest) (List.cons_ne_nil _ _)
      have harray := Spells.array hlisted
      simpa [Style.bracket] using harray

theorem spells_object {style : Style} {depth : Nat} {texts : List (List Char)}
    {members : List (List Char × Value)} (h : List.Forall₂ (Pair (Spaced Spells)) texts members)
    (hnodup : (members.map Prod.fst).Nodup) :
    Spells (style.bracket depth '\x7b' '\x7d' texts) (.object members) := by
  cases h with
  | nil => exact .emptyObject blank_nil
  | cons hmember hrest =>
      have hlisted := listed_separated (blank_newline style (depth + 1)) (blank_newline style depth)
        (.cons hmember hrest) (List.cons_ne_nil _ _)
      have hobject := Spells.object (listed_pairs hlisted)
        (collects_iff.mpr (Members.ofList_of_nodup hnodup).symm)
      simpa [Style.bracket] using hobject

mutual

/-- What is written for a value of printable parts spells it, with `null` for infinities. -/
theorem spells_writeAt (style : Style) (depth : Nat) :
    (v : Value) → (∀ part ∈ v.parts, Printable part) →
      Spells (writeAt style depth v) v.withoutInfinities
  | .null, _ => .null
  | .bool true, _ => .true
  | .bool false, _ => .false
  | .string chars, _ => .string (quoted_writeString chars)
  | .number x, h => spells_number (h _ (List.mem_singleton_self _))
  | .array items, h => by
      rw [writeAt, Value.withoutInfinities]
      exact spells_array (spells_writeItems style (depth + 1) items fun part hpart =>
        h part (List.mem_cons_of_mem _ hpart))
  | .object members, h => by
      rw [writeAt, Value.withoutInfinities]
      have hnodup : (members.map Prod.fst).Nodup := h _ (List.mem_cons_self ..)
      rw [← keys_membersWithoutInfinities] at hnodup
      exact spells_object (pairs_writeMembers style (depth + 1) members fun part hpart =>
        h part (List.mem_cons_of_mem _ hpart)) hnodup

theorem spells_writeItems (style : Style) (depth : Nat) :
    (items : List Value) → (∀ part ∈ partsOfItems items, Printable part) →
      List.Forall₂ Spells (writeItems style depth items) (itemsWithoutInfinities items)
  | [], _ => .nil
  | v :: items, h =>
      .cons (spells_writeAt style depth v fun part hpart => h part (List.mem_append_left _ hpart))
        (spells_writeItems style depth items fun part hpart =>
          h part (List.mem_append_right _ hpart))

theorem pairs_writeMembers (style : Style) (depth : Nat) :
    (members : List (List Char × Value)) → (∀ part ∈ partsOfMembers members, Printable part) →
      List.Forall₂ (Pair (Spaced Spells)) (writeMembers style depth members)
        (membersWithoutInfinities members)
  | [], _ => .nil
  | (key, v) :: members, h => by
      have hvalue := spells_writeAt style depth v fun part hpart =>
        h part (List.mem_append_left _ hpart)
      exact .cons (pair_colon style key hvalue)
        (pairs_writeMembers style depth members fun part hpart =>
          h part (List.mem_append_right _ hpart))

end

/-! ## Parsing what is written -/

/-- The parts of a document are printable, if its finite numbers are written such that they can be
read back. -/
theorem printable_parts {text : List Char} (h : Spells text v)
    (hback : ∀ x, .number x ∈ v.parts → x.isFinite = true →
      (Decimal.Numeral.ofChars (writeNumber x)).toFloat = x) :
    ∀ part ∈ v.parts, Printable part := by
  intro part hpart
  obtain ⟨text', hspells⟩ := exists_spells_part v ⟨text, h⟩ part hpart
  cases hspells with
  | number hliteral => exact ⟨Decimal.Numeral.isNaN_toFloat _, hback _ hpart⟩
  | emptyObject => exact List.nodup_nil
  | object _ hobject =>
      rw [collects_iff.mp hobject]
      exact Members.nodup_keys_ofList _
  | null | true | false | string | emptyArray | array => trivial

/--
What is written for a parsed value, in either style, is parsed again, to the value with `null` in
the place of infinities: to the value itself, if all its numbers are finite.  So what is written for
the result is the same text once more.  Of the digits that are written for finite numbers it is
supposed that they denote these numbers.
-/
theorem parse_write {text : String}
    (hparse : (grammar.observe text).map (·.result) = .ok (.ok (.value v)))
    (hback : ∀ x, .number x ∈ v.parts → x.isFinite = true →
      (Decimal.Numeral.ofChars (writeNumber x)).toFloat = x) :
    (∀ style, (grammar.observe (v.write style)).map (·.result) =
      .ok (.ok (.value v.withoutInfinities))) ∧
    ((∀ x, .number x ∈ v.parts → x.isInf = false) → v.withoutInfinities = v) ∧
    ∀ style, v.withoutInfinities.write style = v.write style := by
  rw [grammar_reads.observe] at hparse
  obtain ⟨_, hspaced, hv⟩ := answer_iff.mp (Except.ok.inj hparse)
  cases hv
  obtain ⟨text', hspells⟩ := hspaced.exists_spells
  refine ⟨fun style => ?_, withoutInfinities_of_finite v, fun style => ?_⟩
  · have hwritten := spells_writeAt style 0 v (printable_parts hspells hback)
    rw [grammar_reads.observe, Value.write, String.toList_ofList]
    exact congrArg _ (answer_iff.mpr ⟨_, .of_spells hwritten, rfl⟩)
  · rw [Value.write, Value.write, writeAt_withoutInfinities]

/-- A fraction, a negative zero and an infinity, which becomes `null`. -/
theorem parse_write_infinity :
    (∀ style, (grammar.observe ((Value.array [.number 1.5, .number (-0.0),
      .number Decimal.infinity]).write style)).map (·.result) =
        .ok (.ok (.value (.array [.number 1.5, .number (-0.0), .null])))) ∧
      (Value.array [.number 1.5, .number (-0.0), .number Decimal.infinity]).write .compact =
        "[1.5,-0.0,null]" := by
  have hdigit : Whole ['1'] := .positive rfl (by decide) (by decide)
  have hone : Literal ['1', '.', '5'] ⟨false, ['1'], ['5'], false, []⟩ :=
    .mk .absent (by decide) hdigit (.present (List.cons_ne_nil '5' []) (by decide)) .absent
  have hzero : Literal ['-', '0', '.', '0'] ⟨true, ['0'], ['0'], false, []⟩ :=
    .mk .minus (by decide) .zero (.present (List.cons_ne_nil '0' []) (by decide)) .absent
  have hlarge : Literal ['1', 'E', '+', '4', '0', '0'] ⟨false, ['1'], [], false, ['4', '0', '0']⟩ :=
    .mk .absent (by decide) hdigit .absent
      (.present (.inr rfl) .plus (List.cons_ne_nil '4' ['0', '0']) (by decide))
  have hspells := Spells.array (.more (.of_spells (.number hone))
    (.more (.of_spells (.number hzero)) (.one (.of_spells (.number hlarge)))))
  have hvalues : (Decimal.Numeral.toFloat ⟨false, ['1'], ['5'], false, []⟩ = 1.5) ∧
      Decimal.Numeral.toFloat ⟨true, ['0'], ['0'], false, []⟩ = -0.0 ∧
      Decimal.Numeral.toFloat ⟨false, ['1'], [], false, ['4', '0', '0']⟩ = Decimal.infinity := by
    decide +kernel
  rw [hvalues.1, hvalues.2.1, hvalues.2.2] at hspells
  have hparse : (grammar.observe "[1.5,-0.0,1E+400]").map (·.result) = .ok (.ok (.value _)) :=
    (grammar_reads.observe _).trans (congrArg _ (answer_iff.mpr ⟨_, .of_spells hspells, rfl⟩))
  have hback : ∀ x, .number x ∈ (Value.array [.number 1.5, .number (-0.0),
      .number Decimal.infinity]).parts → x.isFinite = true →
        (Decimal.Numeral.ofChars (writeNumber x)).toFloat = x := by
    intro x hx
    simp only [Value.parts, partsOfItems, List.mem_cons, List.mem_append, Value.number.injEq,
      reduceCtorEq, false_or, List.not_mem_nil, or_false] at hx
    rcases hx with rfl | rfl | rfl <;> decide +kernel
  obtain ⟨hagain, -, -⟩ := parse_write hparse hback
  have hinf : Float.isInf 1.5 = false ∧ Float.isInf (-0.0) = false ∧
      Decimal.infinity.isInf = true := by decide +kernel
  simp only [Value.withoutInfinities, itemsWithoutInfinities, hinf, Bool.false_eq_true, if_true,
    if_false] at hagain
  exact ⟨hagain, by decide +kernel⟩

end Packrat.Json
