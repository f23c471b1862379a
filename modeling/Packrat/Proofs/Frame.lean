import Mathlib.Data.List.Nodup
import Packrat.Proofs.Plain.Run
import Packrat.Proofs.Reader.Basic

/-!
# What a run relies on, and what it leaves behind

Guards and cached rules are ranked: at one offset a run works its way up the ranks, and it starts at
the bottom again at a later offset only.  A run that starts at an offset and a rank relies on the
guards and stored results from there on (`Ready`), and changes nothing else (`Kept`).
-/

namespace Packrat

variable {α : Type}

/-- A cached rule: its number, its rank, and what it reads where nothing stands to its left. -/
structure Slot (α : Type) where
  memo : Nat
  rank : Nat
  value : Reader α

/--
The precedence node of a grammar, its guards with their ranks, and its rules, which store what they
read if the grammar is cached.
-/
structure Layout (α : Type) where
  node : Nat
  cached : Bool
  guards : List (Nat × Nat)
  slots : List (Slot α)
  guards_nodup : (guards.map Prod.fst).Nodup
  slots_nodup : (slots.map Slot.memo).Nodup

/-- The rank at the later offset is no earlier than the threshold at the offset. -/
def Ahead (offset threshold later rank : Nat) : Prop :=
  offset < later ∨ offset = later ∧ threshold ≤ rank

namespace Ahead

variable {offset threshold later rank further higher : Nat}

theorem refl (offset threshold : Nat) : Ahead offset threshold offset threshold :=
  Or.inr ⟨rfl, Nat.le_refl _⟩

theorem trans (h : Ahead offset threshold later rank) (h' : Ahead later rank further higher) :
    Ahead offset threshold further higher := by
  unfold Ahead at *
  omega

theorem of_lt (h : offset < later) : Ahead offset threshold later rank := Or.inl h

theorem of_le (h : threshold ≤ rank) : Ahead offset threshold offset rank := Or.inr ⟨rfl, h⟩

theorem le (h : Ahead offset threshold later rank) : offset ≤ later := by
  unfold Ahead at h
  omega

end Ahead

/-- What the first cache stores under a key. -/
def Engine.entry (engine : Engine α) (key : CacheKey) : Option (Option (Output α)) :=
  (engine.caches.get 0).entries[key]?

/-- What a run from an offset and a threshold on finds free, and what it finds stored. -/
structure Ready (layout : Layout α) (source : Source) (offset threshold : Nat)
    (engine : Engine α) : Prop where
  free : ∀ id later, offset ≤ later →
    (∀ rank, (id, rank) ∈ layout.guards → Ahead offset threshold later rank) →
      later ∉ engine.active.get id
  sound : ∀ slot ∈ layout.slots, ∀ later result,
    engine.entry ⟨slot.memo, later, .empty⟩ = some result →
      Ahead offset threshold later slot.rank →
        Matches source .empty (slot.value (Text.dropBytes later source.chars)) result
  refused : ∀ memo later result,
    engine.entry ⟨memo, later, .rightOperand⟩ = some result → result = none
  unused : ∀ memo later tag, engine.nextTag ≤ tag →
    engine.entry ⟨memo, later, .operand tag⟩ = none
  calm : ∀ id, id ≠ layout.node → engine.climbing.get id = []

/-- What a run from an offset and a threshold on may store; operands have tags given out in it. -/
inductive Fresh (layout : Layout α) (source : Source) (offset threshold tag tag' : Nat) :
    CacheKey → Option (Output α) → Prop
  | value {slot : Slot α} {later : Nat} {result : Option (Output α)}
      (hslot : slot ∈ layout.slots) (hahead : Ahead offset threshold later slot.rank)
      (hmatches : Matches source .empty (slot.value (Text.dropBytes later source.chars)) result) :
      Fresh layout source offset threshold tag tag' ⟨slot.memo, later, .empty⟩ result
  | refused {memo later : Nat} :
      Fresh layout source offset threshold tag tag' ⟨memo, later, .rightOperand⟩ none
  | operand {memo later other : Nat} {result : Option (Output α)} (hle : tag ≤ other)
      (hlt : other < tag') :
      Fresh layout source offset threshold tag tag' ⟨memo, later, .operand other⟩ result

theorem Fresh.mono {layout : Layout α} {source : Source} {offset threshold : Nat}
    {later rank low high low' high' : Nat} {key : CacheKey} {result : Option (Output α)}
    (h : Fresh layout source later rank low high key result)
    (hahead : Ahead offset threshold later rank) (hlow : low' ≤ low) (hhigh : high ≤ high') :
    Fresh layout source offset threshold low' high' key result := by
  cases h with
  | value hslot hlater hmatches => exact .value hslot (hahead.trans hlater) hmatches
  | refused => exact .refused
  | operand hle hlt =>
      exact .operand (Nat.le_trans hlow hle) (Nat.lt_of_lt_of_le hlt hhigh)

/-- What a run from an offset and a threshold on leaves as it was, and what it stores. -/
structure Kept (layout : Layout α) (source : Source) (offset threshold : Nat)
    (engine engine' : Engine α) : Prop where
  active : ∀ id, engine'.active.get id = engine.active.get id
  climbing : ∀ id, engine'.climbing.get id = engine.climbing.get id
  depth : ∀ id, engine'.depth.get id = engine.depth.get id
  nextTag : engine.nextTag ≤ engine'.nextTag
  bare : layout.cached = false → ∀ key, engine'.entry key = engine.entry key
  grows : ∀ key result, engine.entry key = some result → engine'.entry key = some result
  fresh : ∀ key result, engine.entry key = none → engine'.entry key = some result →
    Fresh layout source offset threshold engine.nextTag engine'.nextTag key result

/-- A result is put under a key in a cached grammar; all else is as it was. -/
structure Written (cached : Bool) (key : CacheKey) (result : Option (Output α))
    (engine engine' : Engine α) : Prop where
  active : ∀ id, engine'.active.get id = engine.active.get id
  climbing : ∀ id, engine'.climbing.get id = engine.climbing.get id
  depth : ∀ id, engine'.depth.get id = engine.depth.get id
  nextTag : engine'.nextTag = engine.nextTag
  here : cached = true → engine'.entry key = some result
  elsewhere : ∀ other, (cached = true → other ≠ key) → engine'.entry other = engine.entry other

namespace Layout

variable {layout : Layout α}

theorem rank_unique {id rank rank' : Nat} (h : (id, rank) ∈ layout.guards)
    (h' : (id, rank') ∈ layout.guards) : rank = rank' :=
  congrArg Prod.snd (List.inj_on_of_nodup_map layout.guards_nodup h h' rfl)

theorem slot_unique {slot slot' : Slot α} (h : slot ∈ layout.slots) (h' : slot' ∈ layout.slots)
    (hmemo : slot.memo = slot'.memo) : slot = slot' :=
  List.inj_on_of_nodup_map layout.slots_nodup h h' hmemo

end Layout

variable {layout : Layout α} {source : Source} {offset threshold later rank : Nat}
  {engine engine' engine'' : Engine α}

/-! ## Kept states -/

namespace Kept

theorem of_untouched (h : Untouched engine engine') :
    Kept layout source offset threshold engine engine' where
  active := h.active
  climbing := h.climbing
  depth := h.depth
  nextTag := h.nextTag
  bare _ key := by rw [Engine.entry, Engine.entry, h.caches]
  grows key result hentry := by rwa [Engine.entry, h.caches]
  fresh key result hnone hsome := by
    rw [Engine.entry, h.caches] at hsome
    rw [Engine.entry, hsome] at hnone
    cases hnone

theorem refl (engine : Engine α) : Kept layout source offset threshold engine engine :=
  of_untouched (.refl engine)

theorem trans (h : Kept layout source offset threshold engine engine')
    (h' : Kept layout source offset threshold engine' engine'') :
    Kept layout source offset threshold engine engine'' where
  active id := (h'.active id).trans (h.active id)
  climbing id := (h'.climbing id).trans (h.climbing id)
  depth id := (h'.depth id).trans (h.depth id)
  nextTag := Nat.le_trans h.nextTag h'.nextTag
  bare hcached key := (h'.bare hcached key).trans (h.bare hcached key)
  grows key result hentry := h'.grows key result (h.grows key result hentry)
  fresh key result hnone hsome := by
    cases hmiddle : engine'.entry key with
    | none => exact (h'.fresh key result hmiddle hsome).mono (.refl _ _) h.nextTag (Nat.le_refl _)
    | some result' =>
        obtain rfl := Option.some.inj ((h'.grows key result' hmiddle).symm.trans hsome)
        exact (h.fresh key result' hnone hmiddle).mono (.refl _ _) (Nat.le_refl _) h'.nextTag

/-- A run from further on keeps all that a run from here keeps. -/
theorem wider (h : Kept layout source later rank engine engine')
    (hahead : Ahead offset threshold later rank) :
    Kept layout source offset threshold engine engine' where
  active := h.active
  climbing := h.climbing
  depth := h.depth
  nextTag := h.nextTag
  bare := h.bare
  grows := h.grows
  fresh key result hnone hsome :=
    (h.fresh key result hnone hsome).mono hahead (Nat.le_refl _) (Nat.le_refl _)

theorem freed {id at_ : Nat}
    (h : Kept layout source offset threshold (engine.entered id at_) engine') :
    Kept layout source offset threshold engine (engine'.freed id at_) where
  active := Engine.active_freed h.active
  climbing := h.climbing
  depth := h.depth
  nextTag := h.nextTag
  bare := h.bare
  grows := h.grows
  fresh := h.fresh

theorem popped {id index : Nat}
    (h : Kept layout source offset threshold (engine.pushed id index) engine') :
    Kept layout source offset threshold engine (engine'.popped id) where
  active := h.active
  climbing := Engine.climbing_popped h.climbing
  depth := h.depth
  nextTag := h.nextTag
  bare := h.bare
  grows := h.grows
  fresh := h.fresh

/-- What is stored for a rule goes on being its value. -/
theorem sound {slot : Slot α} {at_ : Nat}
    (h : Kept layout source offset threshold engine engine') (hslot : slot ∈ layout.slots)
    (hsound : ∀ result, engine.entry ⟨slot.memo, at_, .empty⟩ = some result →
      Matches source .empty (slot.value (Text.dropBytes at_ source.chars)) result) :
    ∀ result, engine'.entry ⟨slot.memo, at_, .empty⟩ = some result →
      Matches source .empty (slot.value (Text.dropBytes at_ source.chars)) result := by
  intro result hentry
  cases hbefore : engine.entry ⟨slot.memo, at_, .empty⟩ with
  | some result' =>
      obtain rfl := Option.some.inj ((h.grows _ _ hbefore).symm.trans hentry)
      exact hsound result' hbefore
  | none =>
      generalize hkey : (⟨slot.memo, at_, .empty⟩ : CacheKey) = key at hentry hbefore
      cases h.fresh key result hbefore hentry with
      | value hslot' _ hmatches =>
          injection hkey with hmemo hlater _
          subst hlater
          rwa [layout.slot_unique hslot hslot' hmemo]
      | refused => cases hkey
      | operand => cases hkey

/-- Nothing is stored for an operand of before. -/
theorem missing_operand {memo at_ tag : Nat}
    (h : Kept layout source offset threshold engine engine') (htag : tag < engine.nextTag)
    (hmissing : engine.entry ⟨memo, at_, .operand tag⟩ = none) :
    engine'.entry ⟨memo, at_, .operand tag⟩ = none := by
  cases hentry : engine'.entry ⟨memo, at_, .operand tag⟩ with
  | none => rfl
  | some result =>
      cases h.fresh _ result hmissing hentry with
      | operand hle _ => exact absurd htag (Nat.not_lt_of_le hle)

/-- After a run, a rule whose result was missing is run and its result stored. -/
theorem written {key : CacheKey} {result : Option (Output α)}
    {before begun ended : Engine α} (hbefore : Kept layout source offset threshold before engine)
    (hbegun : Written layout.cached key none engine begun)
    (h : Kept layout source offset threshold begun engine')
    (hended : Written layout.cached key result engine' ended)
    (hmissing : layout.cached = true → engine.entry key = none)
    (hfresh : layout.cached = true →
      Fresh layout source offset threshold before.nextTag ended.nextTag key result) :
    Kept layout source offset threshold before ended where
  active id := by rw [hended.active, h.active, hbegun.active, hbefore.active]
  climbing id := by rw [hended.climbing, h.climbing, hbegun.climbing, hbefore.climbing]
  depth id := by rw [hended.depth, h.depth, hbegun.depth, hbefore.depth]
  nextTag := by
    rw [hended.nextTag]
    exact Nat.le_trans hbefore.nextTag (hbegun.nextTag ▸ h.nextTag)
  bare hcached other := by
    have hother : layout.cached = true → other ≠ key := fun h => by rw [hcached] at h; cases h
    rw [hended.elsewhere other hother, h.bare hcached, hbegun.elsewhere other hother,
      hbefore.bare hcached]
  grows other result' hentry := by
    have hentry := hbefore.grows other result' hentry
    have hother : layout.cached = true → other ≠ key := by
      rintro hcached rfl
      rw [hmissing hcached] at hentry
      cases hentry
    rw [hended.elsewhere other hother]
    refine h.grows other result' ?_
    rw [hbegun.elsewhere other hother, hentry]
  fresh other result' hnone hsome := by
    by_cases hkey : layout.cached = true ∧ other = key
    · obtain ⟨hcached, rfl⟩ := hkey
      obtain rfl := Option.some.inj ((hended.here hcached).symm.trans hsome)
      exact hfresh hcached
    · have hother : layout.cached = true → other ≠ key := fun hcached heq => hkey ⟨hcached, heq⟩
      have htags := hbegun.nextTag ▸ h.nextTag
      rw [hended.elsewhere other hother] at hsome
      rw [hended.nextTag]
      cases hfirst : engine.entry other with
      | some first =>
          obtain rfl := Option.some.inj ((h.grows other first
            ((hbegun.elsewhere other hother).trans hfirst)).symm.trans hsome)
          exact (hbefore.fresh other first hnone hfirst).mono (.refl _ _) (Nat.le_refl _) htags
      | none =>
          rw [← hbegun.elsewhere other hother] at hfirst
          refine (h.fresh other result' hfirst hsome).mono (.refl _ _) ?_ (Nat.le_refl _)
          rw [hbegun.nextTag]
          exact hbefore.nextTag

end Kept

/-! ## Ready states -/

namespace Ready

theorem kept (h : Ready layout source offset threshold engine)
    (hkept : Kept layout source later rank engine engine') :
    Ready layout source offset threshold engine' where
  free id further hle hrank := by
    rw [hkept.active]
    exact h.free id further hle hrank
  sound slot hslot further result hentry hahead :=
    hkept.sound hslot (fun result' hentry' => h.sound slot hslot further result' hentry' hahead)
      result hentry
  refused memo further result hentry := by
    cases hbefore : engine.entry ⟨memo, further, .rightOperand⟩ with
    | some result' =>
        obtain rfl := Option.some.inj ((hkept.grows _ _ hbefore).symm.trans hentry)
        exact h.refused memo further result' hbefore
    | none =>
        cases hkept.fresh _ result hbefore hentry with
        | refused => rfl
  unused memo further tag htag := by
    have hbefore := h.unused memo further tag (Nat.le_trans hkept.nextTag htag)
    cases hentry : engine'.entry ⟨memo, further, .operand tag⟩ with
    | none => rfl
    | some result =>
        cases hkept.fresh _ result hbefore hentry with
        | operand hle hlt => exact absurd htag (Nat.not_le_of_lt hlt)
  calm id hid := by
    rw [hkept.climbing]
    exact h.calm id hid

/-- A run from further on relies on less. -/
theorem ahead (h : Ready layout source offset threshold engine)
    (hahead : Ahead offset threshold later rank) : Ready layout source later rank engine where
  free id further hle hrank :=
    h.free id further (Nat.le_trans hahead.le hle) fun rank' hmem => hahead.trans (hrank rank' hmem)
  sound slot hslot further result hentry hlater :=
    h.sound slot hslot further result hentry (hahead.trans hlater)
  refused := h.refused
  unused := h.unused
  calm := h.calm

theorem pushed (h : Ready layout source offset threshold engine) (index : Nat) :
    Ready layout source offset threshold (engine.pushed layout.node index) where
  free := h.free
  sound := h.sound
  refused := h.refused
  unused := h.unused
  calm id hid := by
    rw [Engine.climbing_pushed_of_ne _ hid.symm]
    exact h.calm id hid

theorem descended (h : Ready layout source offset threshold engine) (id : Nat) :
    Ready layout source offset threshold (engine.descended id) :=
  ⟨h.free, h.sound, h.refused, h.unused, h.calm⟩

/-- A guard is entered at its rank, below the threshold of what goes on inside. -/
theorem entered {id : Nat} (h : Ready layout source offset threshold engine)
    (hguard : (id, rank) ∈ layout.guards) (hrank : rank < threshold) :
    Ready layout source offset threshold (engine.entered id offset) where
  free other further hle hother := by
    by_cases hid : id = other
    · subst hid
      rw [Engine.active_entered_self]
      rintro (_ | ⟨_, hmem⟩)
      · rcases hother rank hguard with hlt | ⟨-, hle⟩
        · exact Nat.lt_irrefl _ hlt
        · exact absurd hrank (Nat.not_lt_of_le hle)
      · exact h.free id further hle hother hmem
    · rw [Engine.active_entered_of_ne _ hid]
      exact h.free other further hle hother
  sound := h.sound
  refused := h.refused
  unused := h.unused
  calm := h.calm

/-- A guard of the threshold's rank or a higher one is free. -/
theorem free_of_le {id : Nat} (h : Ready layout source offset threshold engine)
    (hguard : (id, rank) ∈ layout.guards) (hrank : threshold ≤ rank) :
    offset ∉ engine.active.get id := by
  refine h.free id offset (Nat.le_refl _) fun rank' hmem => ?_
  rw [layout.rank_unique hmem hguard]
  exact .of_le hrank

/-- The run of a rule under a key is under way. -/
theorem begun {cached : Bool} {key : CacheKey} (h : Ready layout source offset threshold engine)
    (hbegun : Written cached key none engine engine')
    (hslot : ∀ slot ∈ layout.slots, slot.memo = key.node → key.left = .empty →
      ¬ Ahead later rank key.offset slot.rank)
    (htag : ∀ tag, key.left = .operand tag → tag < engine.nextTag)
    (hahead : Ahead offset threshold later rank) : Ready layout source later rank engine' where
  free id further hle hrank := by
    rw [hbegun.active]
    exact (h.ahead hahead).free id further hle hrank
  sound slot hmem further result hentry hlater := by
    have hother : cached = true → (⟨slot.memo, further, .empty⟩ : CacheKey) ≠ key := by
      rintro - rfl
      exact hslot slot hmem rfl rfl hlater
    rw [hbegun.elsewhere _ hother] at hentry
    exact h.sound slot hmem further result hentry (hahead.trans hlater)
  refused memo further result hentry := by
    by_cases hkey : cached = true ∧ (⟨memo, further, .rightOperand⟩ : CacheKey) = key
    · rw [hkey.2, hbegun.here hkey.1] at hentry
      exact (Option.some.inj hentry).symm
    · rw [hbegun.elsewhere _ fun hcached heq => hkey ⟨hcached, heq⟩] at hentry
      exact h.refused memo further result hentry
  unused memo further tag hle := by
    rw [hbegun.nextTag] at hle
    have hother : cached = true → (⟨memo, further, .operand tag⟩ : CacheKey) ≠ key := by
      rintro - rfl
      exact absurd (htag tag rfl) (Nat.not_lt_of_le hle)
    rw [hbegun.elsewhere _ hother]
    exact h.unused memo further tag hle
  calm id hid := by
    rw [hbegun.climbing]
    exact h.calm id hid

end Ready

end Packrat
