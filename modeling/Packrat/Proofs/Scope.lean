import Packrat.Proofs.Nodes
import Packrat.Proofs.Supervision

/-!
# Operands in scope, and the replay of stored results

A cached match is stored under an offset and a left context, and replayed at every cursor with that
offset and that left context.  Operands are told apart by their tags, so a scope says for every tag
that was given out which operand has it and where it was put.  Within a scope only one cursor of a
text has a given key, and what is stored under the key was a match at that very cursor.
-/

namespace Packrat

open Text (byteLength)

variable {α : Type}

/-! ## Moving on -/

namespace Cursor

/-- The cursor `next` stands behind the characters `taken`, which come next at `cursor`. -/
structure Takes (cursor : Cursor α) (taken : List Char) (next : Cursor α) : Prop where
  source_eq : next.source = cursor.source
  offset_eq : next.offset = cursor.offset + byteLength taken
  rest_eq : cursor.rest = taken ++ next.rest

namespace Takes

variable {cursor next further : Cursor α} {taken more : List Char}

theorem of_same (hsource : next.source = cursor.source) (hoffset : next.offset = cursor.offset) :
    cursor.Takes [] next where
  source_eq := hsource
  offset_eq := hoffset
  rest_eq := by rw [List.nil_append, cursor.rest_eq, next.rest_eq, hsource, hoffset]

theorem refl (cursor : Cursor α) : cursor.Takes [] cursor := of_same rfl rfl

theorem consume {rest : List Char} (h : cursor.rest = taken ++ rest) :
    cursor.Takes taken (cursor.consume taken rest h) :=
  ⟨rfl, rfl, h⟩

theorem trans (h : cursor.Takes taken next) (h' : next.Takes more further) :
    cursor.Takes (taken ++ more) further where
  source_eq := h'.source_eq.trans h.source_eq
  offset_eq := by rw [h'.offset_eq, h.offset_eq, Text.byteLength_append, Nat.add_assoc]
  rest_eq := by rw [h.rest_eq, h'.rest_eq, List.append_assoc]

/-- Left contexts have no part in it. -/
theorem withLeft (h : cursor.Takes taken next) (left : Left α) :
    cursor.Takes taken (next.withLeft left) :=
  ⟨h.source_eq, h.offset_eq, h.rest_eq⟩

theorem of_withLeft {left : Left α} (h : (cursor.withLeft left).Takes taken next) :
    cursor.Takes taken next :=
  ⟨h.source_eq, h.offset_eq, h.rest_eq⟩

theorem offset_le (h : cursor.Takes taken next) : cursor.offset ≤ next.offset := by
  rw [h.offset_eq]
  exact Nat.le_add_right _ _

end Takes

/--
The cursor `next` stands where `cursor` does, or behind some of the characters in front of it.
-/
def Reaches (cursor next : Cursor α) : Prop := ∃ taken, cursor.Takes taken next

namespace Reaches

variable {cursor next further : Cursor α}

theorem of_same (hsource : next.source = cursor.source) (hoffset : next.offset = cursor.offset) :
    cursor.Reaches next :=
  ⟨[], .of_same hsource hoffset⟩

theorem refl (cursor : Cursor α) : cursor.Reaches cursor := of_same rfl rfl

theorem trans (h : cursor.Reaches next) (h' : next.Reaches further) : cursor.Reaches further := by
  obtain ⟨taken, htaken⟩ := h
  obtain ⟨more, hmore⟩ := h'
  exact ⟨taken ++ more, htaken.trans hmore⟩

/-- Left contexts have no part in it. -/
theorem withLeft (h : cursor.Reaches next) (left : Left α) : cursor.Reaches (next.withLeft left) :=
  h.trans (of_same rfl rfl)

theorem of_withLeft {left : Left α} (h : (cursor.withLeft left).Reaches next) :
    cursor.Reaches next :=
  trans (of_same rfl rfl : cursor.Reaches (cursor.withLeft left)) h

theorem withoutLeft (h : cursor.Reaches next) : cursor.withoutLeft.Reaches next :=
  trans (of_same rfl rfl : cursor.withoutLeft.Reaches cursor) h

theorem source_eq (h : cursor.Reaches next) : next.source = cursor.source :=
  let ⟨_, htaken⟩ := h
  htaken.source_eq

theorem offset_le (h : cursor.Reaches next) : cursor.offset ≤ next.offset :=
  let ⟨_, htaken⟩ := h
  htaken.offset_le

end Reaches

/-- A cursor that is reached from `cursor`, with the same left context or none. -/
structure Leads (cursor next : Cursor α) : Prop where
  reaches : cursor.Reaches next
  left : next.left = cursor.left ∨ next.left = .empty

namespace Leads

variable {cursor next further : Cursor α}

theorem refl (cursor : Cursor α) : cursor.Leads cursor := ⟨.refl cursor, Or.inl rfl⟩

theorem trans (h : cursor.Leads next) (h' : next.Leads further) : cursor.Leads further := by
  refine ⟨h.reaches.trans h'.reaches, ?_⟩
  rcases h'.left with hsame | hempty
  · exact hsame ▸ h.left
  · exact Or.inr hempty

/-- Whatever stood to the left, it may be dropped. -/
theorem dropped {left : Left α} (h : (cursor.withLeft left).Leads next) :
    cursor.Leads next.withoutLeft :=
  ⟨h.reaches.of_withLeft.withLeft .empty, Or.inr rfl⟩

/-- A cursor without a left context may follow one with any. -/
theorem replaced {left : Left α} (h : (cursor.withLeft left).Leads next)
    (hnext : next.left = .empty) : cursor.withoutLeft.Leads next :=
  ⟨h.reaches.of_withLeft.withoutLeft, Or.inr hnext⟩

theorem withoutLeft (cursor : Cursor α) : cursor.Leads cursor.withoutLeft :=
  ⟨.of_same rfl rfl, Or.inr rfl⟩

end Leads

end Cursor

/-! ## Scopes -/

/-- Where a run begins, and for every tag the operand that has it and the offset it was put at. -/
structure Scope (α : Type) where
  start : Cursor α
  operand : Nat → Option α × Nat

namespace Scope

/-- The scope of a run that begins at a cursor: only the cursor itself may carry an operand. -/
def initial (cursor : Cursor α) : Scope α := ⟨cursor, fun _ => (cursor.left.value?, cursor.offset)⟩

/-- The scope in which the next tag is given to an operand. -/
def put (scope : Scope α) (tag : Nat) (value : Option α) (place : Nat) : Scope α :=
  { scope with operand := fun other => if other = tag then (value, place) else scope.operand other }

/-- The later scope knows all that the earlier one knows of the tags below a bound. -/
structure Extends (scope : Scope α) (tags : Nat) (later : Scope α) : Prop where
  start_eq : later.start = scope.start
  operand_eq : ∀ tag < tags, later.operand tag = scope.operand tag

variable {scope later further : Scope α} {tags tags' place place' : Nat} {cursor next : Cursor α}

theorem Extends.refl (scope : Scope α) (tags : Nat) : scope.Extends tags scope :=
  ⟨rfl, fun _ _ => rfl⟩

theorem Extends.trans (h : scope.Extends tags later) (h' : later.Extends tags' further)
    (hle : tags ≤ tags') : scope.Extends tags further where
  start_eq := h'.start_eq.trans h.start_eq
  operand_eq tag htag :=
    (h'.operand_eq tag (Nat.lt_of_lt_of_le htag hle)).trans (h.operand_eq tag htag)

theorem extends_put (scope : Scope α) (tag : Nat) (value : Option α) (place : Nat) :
    scope.Extends tag (scope.put tag value place) where
  start_eq := rfl
  operand_eq _ hother := if_neg (Nat.ne_of_lt hother)

/--
The run reaches the cursor, and an operand that it carries has a tag below the bound and is the one
in scope, which was put at `place`.  Where no operand is carried, `place` is that of the cursor.
-/
structure Covers (scope : Scope α) (tags place : Nat) (cursor : Cursor α) : Prop where
  reaches : scope.start.Reaches cursor
  operand : ∀ tag value, cursor.left = .operand tag value →
    tag < tags ∧ scope.operand tag = (value, place)
  plain : cursor.left.isOperand = false → place = cursor.offset

namespace Covers

theorem of_plain (hreaches : scope.start.Reaches cursor) (hleft : cursor.left.isOperand = false) :
    scope.Covers tags cursor.offset cursor where
  reaches := hreaches
  operand tag value heq := by
    rw [heq] at hleft
    cases hleft
  plain _ := rfl

theorem wider (h : scope.Covers tags place cursor) (hextends : scope.Extends tags later)
    (hle : tags ≤ tags') : later.Covers tags' place cursor where
  reaches := hextends.start_eq ▸ h.reaches
  operand tag value heq := by
    obtain ⟨htag, hvalue⟩ := h.operand tag value heq
    exact ⟨Nat.lt_of_lt_of_le htag hle, (hextends.operand_eq tag htag).trans hvalue⟩
  plain := h.plain

/-- The cursor that a run begins at is covered, if the tag of its operand was given out. -/
theorem initial (htag : ∀ tag value, cursor.left = .operand tag value → tag < tags) :
    (Scope.initial cursor).Covers tags cursor.offset cursor where
  reaches := .refl cursor
  operand tag value heq := ⟨htag tag value heq, by rw [Scope.initial, heq]; rfl⟩
  plain _ := rfl

/-- A cursor that a covered one leads to is covered. -/
theorem handed (h : scope.Covers tags place cursor) (hleads : cursor.Leads next) :
    scope.Covers tags (handed place cursor next) next := by
  have hreaches := h.reaches.trans hleads.reaches
  cases hoperand : next.left.isOperand with
  | false =>
      rw [handed_of_plain hoperand]
      exact of_plain hreaches hoperand
  | true =>
      rcases hleads.left with hsame | hempty
      · rw [handed_of_carried hoperand hsame]
        refine ⟨hreaches, fun tag value heq => h.operand tag value (hsame ▸ heq), ?_⟩
        rw [hoperand]
        exact nofun
      · rw [hempty] at hoperand
        cases hoperand

theorem handed_self (h : scope.Covers tags place cursor) :
    Packrat.handed place cursor cursor = place := by
  cases hoperand : cursor.left.isOperand with
  | false => rw [handed_of_plain hoperand, h.plain hoperand]
  | true => exact handed_of_carried hoperand rfl

/-- The operand that was put last is in scope where it was put. -/
theorem put {value : Option α} (hreaches : scope.start.Reaches cursor) (tag : Nat) :
    (scope.put tag value cursor.offset).Covers (tag + 1) cursor.offset
      (cursor.withLeft (.operand tag value)) where
  reaches := hreaches.withLeft _
  operand other value' heq := by
    obtain ⟨rfl, rfl⟩ := Left.operand.inj heq
    exact ⟨Nat.lt_succ_self _, if_pos rfl⟩
  plain hoperand := by cases hoperand

/-- Within a scope only one cursor has a given offset and left context. -/
theorem unique (h : scope.Covers tags place cursor) (h' : scope.Covers tags place' next)
    (hoffset : next.offset = cursor.offset) (hkey : next.left.key = cursor.left.key) :
    next = cursor ∧ place' = place := by
  have hsource := h'.reaches.source_eq.trans h.reaches.source_eq.symm
  cases hleft : cursor.left with
  | empty =>
      have hnext := Left.key_eq_empty_iff.mp (hkey.trans (by rw [hleft]; rfl))
      refine ⟨Cursor.ext hsource hoffset (hnext.trans hleft.symm), ?_⟩
      rw [h.plain (by rw [hleft]; rfl), h'.plain (by rw [hnext]; rfl), hoffset]
  | rightOperand =>
      have hnext := Left.key_eq_rightOperand_iff.mp (hkey.trans (by rw [hleft]; rfl))
      refine ⟨Cursor.ext hsource hoffset (hnext.trans hleft.symm), ?_⟩
      rw [h.plain (by rw [hleft]; rfl), h'.plain (by rw [hnext]; rfl), hoffset]
  | operand tag value =>
      cases hnext : next.left with
      | empty => rw [hleft, hnext] at hkey; cases hkey
      | rightOperand => rw [hleft, hnext] at hkey; cases hkey
      | operand tag' value' =>
          rw [hleft, hnext] at hkey
          obtain rfl : tag' = tag := LeftKey.operand.inj hkey
          have hpair := (h'.operand tag' value' hnext).2.symm.trans (h.operand tag' value hleft).2
          obtain ⟨rfl, rfl⟩ := Prod.mk.inj hpair
          exact ⟨Cursor.ext hsource hoffset (hnext.trans hleft.symm), rfl⟩

end Covers

end Scope

/-! ## Stored results -/

namespace Engine

variable {engine engine' : Engine α} {cache cache' : Nat} {key key' : CacheKey}
  {result : Option (Output α)}

/-- What a cache stores under a key. -/
def entryIn (engine : Engine α) (cache : Nat) (key : CacheKey) : Option (Option (Output α)) :=
  (engine.caches.get cache).entries[key]?

@[simp] theorem entryIn_counted :
    (engine.counted cache' key').entryIn cache key = engine.entryIn cache key := by
  by_cases h : cache' = cache
  · subst h
    simp [entryIn, counted]
  · simp [entryIn, counted, h]

theorem entryIn_stored :
    (engine.stored cache' key' result).entryIn cache key =
      if cache' = cache ∧ key' = key then some result else engine.entryIn cache key := by
  by_cases h : cache' = cache
  · subst h
    simp [entryIn, stored, Cache.getElem?_store]
  · simp [entryIn, stored, h]

/-- At the end of a clearing node an entry is as it was, or its cache is emptied. -/
theorem entryIn_ended (id : Nat) :
    (engine.ended id cache').entryIn cache key = engine.entryIn cache key ∨
      cache' = cache ∧ (engine.ended id cache').entryIn cache key = none := by
  unfold ended
  split
  · by_cases h : cache' = cache
    · subst h
      exact Or.inr ⟨rfl, by simp [entryIn, cleared, Cache.clear]⟩
    · exact Or.inl (by simp [entryIn, cleared, ascended, h])
  · exact Or.inl rfl

/-- No cache holds anything. -/
def Blank (engine : Engine α) : Prop := ∀ cache key, engine.entryIn cache key = none

theorem blank_fresh : (fresh : Engine α).Blank := by
  intro cache key
  rw [entryIn, fresh, Table.get_empty]
  exact Std.HashMap.getElem?_empty

end Engine

/-- A condition on the matches of a parser at a cursor whose operand was put at a place. -/
abbrev Goodness (α : Type) := (place : Nat) → Parser α → Cursor α → Output α → Prop

/-- All matches that are stored are good where they are replayed, and no tag is used in advance. -/
structure Engine.Sound (grammar : Grammar α) (good : Goodness α) (scope : Scope α)
    (engine : Engine α) : Prop where
  replayed : ∀ {id cache place parser cursor output},
    Parser.memo id cache parser ∈ grammar.nodes → scope.Covers engine.nextTag place cursor →
      engine.entryIn cache ⟨id, cursor.offset, cursor.left.key⟩ = some (some output) →
        good place parser cursor output
  unused : ∀ cache node offset tag, engine.nextTag ≤ tag →
    engine.entryIn cache ⟨node, offset, .operand tag⟩ = none

namespace Engine.Sound

variable {grammar : Grammar α} {good : Goodness α} {scope : Scope α} {engine engine' : Engine α}

theorem of_blank (h : engine.Blank) : engine.Sound grammar good scope where
  replayed _ _ hentry := by rw [h] at hentry; cases hentry
  unused _ _ _ _ _ := h _ _

/-- Entries may go, and the rest of the state may change. -/
theorem of_fewer (h : engine.Sound grammar good scope) (htag : engine'.nextTag = engine.nextTag)
    (hentry : ∀ cache key, engine'.entryIn cache key = engine.entryIn cache key ∨
      engine'.entryIn cache key = none) : engine'.Sound grammar good scope where
  replayed hmemo hcovers hfound := by
    rcases hentry _ _ with heq | hnone
    · exact h.replayed hmemo (htag ▸ hcovers) (heq ▸ hfound)
    · rw [hnone] at hfound
      cases hfound
  unused cache node offset tag hle := by
    rcases hentry cache ⟨node, offset, .operand tag⟩ with heq | hnone
    · exact heq.trans (h.unused cache node offset tag (htag ▸ hle))
    · exact hnone

/-- A good match may be stored, and that there is none. -/
theorem stored {id cache place : Nat} {cursor : Cursor α}
    {result : Option (Output α)} (h : engine.Sound grammar good scope)
    (hcovers : scope.Covers engine.nextTag place cursor)
    (hresult : ∀ parser', .memo id cache parser' ∈ grammar.nodes →
      ∀ output, result = some output → good place parser' cursor output) :
    (engine.stored cache ⟨id, cursor.offset, cursor.left.key⟩ result).Sound grammar good scope where
  replayed {id' cache' place' parser' cursor' output} hmemo hcovers' hfound := by
    rw [entryIn_stored] at hfound
    split at hfound
    · next heq =>
        obtain ⟨rfl, hkey⟩ := heq
        injection hkey with hid hoffset hleft
        subst hid
        obtain ⟨rfl, rfl⟩ := hcovers.unique hcovers' hoffset.symm hleft.symm
        exact hresult parser' hmemo output (Option.some.inj hfound)
    · exact h.replayed hmemo hcovers' hfound
  unused cache' node offset tag hle := by
    rw [entryIn_stored, if_neg]
    · exact h.unused cache' node offset tag hle
    · rintro ⟨rfl, hkey⟩
      injection hkey with hid hoffset hleft
      cases hcursor : cursor.left with
      | empty => rw [hcursor] at hleft; cases hleft
      | rightOperand => rw [hcursor] at hleft; cases hleft
      | operand tag' value =>
          rw [hcursor] at hleft
          obtain rfl : tag' = tag := LeftKey.operand.inj hleft
          exact absurd (hcovers.operand tag' value hcursor).1 (Nat.not_lt_of_le hle)

/-- Nothing is stored for an operand that is given the next tag. -/
theorem covers_of_put (h : engine.Sound grammar good scope) {id cache place place' : Nat}
    {value : Option α} {cursor : Cursor α} {result : Option (Output α)}
    (hcovers : (scope.put engine.nextTag value place).Covers (engine.nextTag + 1) place' cursor)
    (hfound : engine.entryIn cache ⟨id, cursor.offset, cursor.left.key⟩ = some result) :
    scope.Covers engine.nextTag place' cursor := by
  refine ⟨hcovers.reaches, fun tag value' heq => ?_, hcovers.plain⟩
  obtain ⟨htag, hoperand⟩ := hcovers.operand tag value' heq
  rcases Nat.lt_succ_iff_lt_or_eq.mp htag with hlt | rfl
  · exact ⟨hlt, ((scope.extends_put _ value place).operand_eq tag hlt).symm.trans hoperand⟩
  · have hnone := h.unused cache id cursor.offset engine.nextTag (Nat.le_refl _)
    rw [heq] at hfound
    exact absurd (hnone.symm.trans hfound) nofun

/-- The next tag is given to an operand. -/
theorem tagged (h : engine.Sound grammar good scope) (value : Option α) (place : Nat) :
    engine.tagged.Sound grammar good (scope.put engine.nextTag value place) where
  replayed hmemo hcovers hfound := h.replayed hmemo (h.covers_of_put hcovers hfound) hfound
  unused cache node offset tag hle := h.unused cache node offset tag (Nat.le_of_succ_le hle)

end Engine.Sound

/--
The state is sound in a scope that knows at least what `scope` knows of the tags below a bound.
-/
def Engine.Holds (grammar : Grammar α) (good : Goodness α) (scope : Scope α) (tags : Nat)
    (engine : Engine α) : Prop :=
  ∃ later, scope.Extends tags later ∧ tags ≤ engine.nextTag ∧ engine.Sound grammar good later

namespace Engine.Holds

variable {grammar : Grammar α} {good : Goodness α} {scope later : Scope α} {tags tags' : Nat}
  {engine engine' : Engine α}

theorem of_sound (h : engine.Sound grammar good scope) :
    engine.Holds grammar good scope engine.nextTag :=
  ⟨scope, .refl _ _, Nat.le_refl _, h⟩

theorem of_extends (h : engine.Holds grammar good later tags') (hextends : scope.Extends tags later)
    (hle : tags ≤ tags') : engine.Holds grammar good scope tags := by
  obtain ⟨further, hfurther, hle', hsound⟩ := h
  exact ⟨further, hextends.trans hfurther hle, Nat.le_trans hle hle', hsound⟩

theorem of_fewer (h : engine.Holds grammar good scope tags)
    (htag : engine'.nextTag = engine.nextTag)
    (hentry : ∀ cache key, engine'.entryIn cache key = engine.entryIn cache key ∨
      engine'.entryIn cache key = none) : engine'.Holds grammar good scope tags := by
  obtain ⟨later, hextends, hle, hsound⟩ := h
  exact ⟨later, hextends, htag ▸ hle, hsound.of_fewer htag hentry⟩

theorem entered (h : engine.Holds grammar good scope tags) (id offset : Nat) :
    (engine.entered id offset).Holds grammar good scope tags :=
  h.of_fewer rfl fun _ _ => Or.inl rfl

theorem freed (h : engine.Holds grammar good scope tags) (id offset : Nat) :
    (engine.freed id offset).Holds grammar good scope tags :=
  h.of_fewer rfl fun _ _ => Or.inl rfl

theorem pushed (h : engine.Holds grammar good scope tags) (id index : Nat) :
    (engine.pushed id index).Holds grammar good scope tags :=
  h.of_fewer rfl fun _ _ => Or.inl rfl

theorem popped (h : engine.Holds grammar good scope tags) (id : Nat) :
    (engine.popped id).Holds grammar good scope tags :=
  h.of_fewer rfl fun _ _ => Or.inl rfl

theorem recorded (h : engine.Holds grammar good scope tags) (event : Event) :
    (engine.recorded event).Holds grammar good scope tags :=
  h.of_fewer rfl fun _ _ => Or.inl rfl

theorem descended (h : engine.Holds grammar good scope tags) (id : Nat) :
    (engine.descended id).Holds grammar good scope tags :=
  h.of_fewer rfl fun _ _ => Or.inl rfl

theorem counted (h : engine.Holds grammar good scope tags) (cache : Nat) (key : CacheKey) :
    (engine.counted cache key).Holds grammar good scope tags :=
  h.of_fewer rfl fun _ _ => Or.inl entryIn_counted

theorem ended (h : engine.Holds grammar good scope tags) (id cache : Nat) :
    (engine.ended id cache).Holds grammar good scope tags :=
  h.of_fewer (nextTag_ended id) fun _ _ => (entryIn_ended id).imp_right fun hnone => hnone.2

theorem stored {id cache place : Nat} {cursor : Cursor α}
    {result : Option (Output α)} (h : engine.Holds grammar good scope tags)
    (hcovers : scope.Covers tags place cursor)
    (hresult : ∀ parser', .memo id cache parser' ∈ grammar.nodes →
      ∀ output, result = some output → good place parser' cursor output) :
    (engine.stored cache ⟨id, cursor.offset, cursor.left.key⟩ result).Holds grammar good
      scope tags := by
  obtain ⟨later, hextends, hle, hsound⟩ := h
  exact ⟨later, hextends, hle, hsound.stored (hcovers.wider hextends hle) hresult⟩

end Engine.Holds

end Packrat
