import Packrat.Proofs.Plain.Meaning

/-!
# Idle states

A plain parser leaves a state as it finds it, but for the tags that it gives out: `Untouched`.  What
it finds does not depend on the state either, as long as none of its own guards and precedence nodes
is under way: `Idle`.
-/

namespace Packrat

variable {α : Type}

/-! ## States that are left as they were -/

/-- What other parsers see of the state is the same; tags may have been given out. -/
structure Untouched (engine engine' : Engine α) : Prop where
  active : ∀ id, engine'.active.get id = engine.active.get id
  climbing : ∀ id, engine'.climbing.get id = engine.climbing.get id
  depth : ∀ id, engine'.depth.get id = engine.depth.get id
  caches : ∀ cache, engine'.caches.get cache = engine.caches.get cache
  nextTag : engine.nextTag ≤ engine'.nextTag

namespace Untouched

variable {engine engine' engine'' : Engine α}

theorem refl (engine : Engine α) : Untouched engine engine :=
  ⟨fun _ => rfl, fun _ => rfl, fun _ => rfl, fun _ => rfl, Nat.le_refl _⟩

theorem trans (h : Untouched engine engine') (h' : Untouched engine' engine'') :
    Untouched engine engine'' where
  active id := (h'.active id).trans (h.active id)
  climbing id := (h'.climbing id).trans (h.climbing id)
  depth id := (h'.depth id).trans (h.depth id)
  caches cache := (h'.caches cache).trans (h.caches cache)
  nextTag := Nat.le_trans h.nextTag h'.nextTag

theorem recorded (engine : Engine α) (event : Event) : Untouched engine (engine.recorded event) :=
  ⟨fun _ => rfl, fun _ => rfl, fun _ => rfl, fun _ => rfl, Nat.le_refl _⟩

theorem tagged (engine : Engine α) : Untouched engine engine.tagged :=
  ⟨fun _ => rfl, fun _ => rfl, fun _ => rfl, fun _ => rfl, Nat.le_succ _⟩

/-- A guard that is entered and left again is as it was. -/
theorem freed {id offset : Nat} (h : Untouched (engine.entered id offset) engine') :
    Untouched engine (engine'.freed id offset) where
  active := Engine.active_freed h.active
  climbing := h.climbing
  depth := h.depth
  caches := h.caches
  nextTag := h.nextTag

/-- An alternative that was tried to its end leaves no mark on its precedence node. -/
theorem popped {id index : Nat} (h : Untouched (engine.pushed id index) engine') :
    Untouched engine (engine'.popped id) where
  active := h.active
  climbing := Engine.climbing_popped h.climbing
  depth := h.depth
  caches := h.caches
  nextTag := h.nextTag

end Untouched

/-! ## States in which a parser is idle -/

/-- The given guards are busy nowhere from an offset on, and the precedence nodes try nothing. -/
structure Idle (guards climbs : List Nat) (offset : Nat) (engine : Engine α) : Prop where
  free : ∀ id ∈ guards, ∀ later, offset ≤ later → later ∉ engine.active.get id
  calm : ∀ id ∈ climbs, engine.climbing.get id = []

namespace Idle

variable {guards climbs guards' climbs' : List Nat} {offset : Nat} {engine engine' : Engine α}

theorem mono (h : Idle guards climbs offset engine) (hguards : ∀ id ∈ guards', id ∈ guards)
    (hclimbs : ∀ id ∈ climbs', id ∈ climbs) : Idle guards' climbs' offset engine :=
  ⟨fun id hid => h.free id (hguards id hid), fun id hid => h.calm id (hclimbs id hid)⟩

theorem ahead {later : Nat} (h : Idle guards climbs offset engine) (hle : offset ≤ later) :
    Idle guards climbs later engine :=
  ⟨fun id hid further hfurther => h.free id hid further (Nat.le_trans hle hfurther), h.calm⟩

theorem untouched (h : Idle guards climbs offset engine) (hsame : Untouched engine engine') :
    Idle guards climbs offset engine' :=
  ⟨fun id hid later hlater => by rw [hsame.active]; exact h.free id hid later hlater,
    fun id hid => by rw [hsame.climbing]; exact h.calm id hid⟩

theorem entered {id : Nat} (h : Idle guards climbs offset engine) (hid : id ∉ guards) (at_ : Nat) :
    Idle guards climbs offset (engine.entered id at_) where
  free other hother later hlater := by
    have hne : id ≠ other := fun heq => hid (heq ▸ hother)
    rw [Engine.active_entered_of_ne _ hne]
    exact h.free other hother later hlater
  calm := h.calm

theorem pushed {id : Nat} (h : Idle guards climbs offset engine) (hid : id ∉ climbs)
    (index : Nat) : Idle guards climbs offset (engine.pushed id index) where
  free := h.free
  calm other hother := by
    have hne : id ≠ other := fun heq => hid (heq ▸ hother)
    rw [Engine.climbing_pushed_of_ne _ hne]
    exact h.calm other hother

end Idle

/-! ### The parts of a node are idle where it is -/

namespace Engine

variable {parser first last : Parser α} {parsers middle : List (Parser α)}
  {combine : List α → α} {id offset : Nat} {engine : Engine α}

theorem idle_head
    (h : Idle (Parser.guardsAll (parser :: parsers)) (Parser.climbsAll (parser :: parsers)) offset
      engine) : Idle parser.guards parser.climbs offset engine :=
  h.mono (fun _ hid => List.mem_append_left _ hid) (fun _ hid => List.mem_append_left _ hid)

theorem idle_tail
    (h : Idle (Parser.guardsAll (parser :: parsers)) (Parser.climbsAll (parser :: parsers)) offset
      engine) : Idle (Parser.guardsAll parsers) (Parser.climbsAll parsers) offset engine :=
  h.mono (fun _ hid => List.mem_append_right _ hid) (fun _ hid => List.mem_append_right _ hid)

theorem idle_except
    (h : Idle (Parser.except parser parsers).guards (Parser.except parser parsers).climbs offset
      engine) :
    Idle parser.guards parser.climbs offset engine ∧
      Idle (Parser.guardsAll parsers) (Parser.climbsAll parsers) offset engine :=
  ⟨h.mono (fun _ hid => List.mem_append_left _ hid) (fun _ hid => List.mem_append_left _ hid),
    h.mono (fun _ hid => List.mem_append_right _ hid) (fun _ hid => List.mem_append_right _ hid)⟩

theorem idle_foldLeft
    (h : Idle (Parser.foldLeft first middle last combine).guards
      (Parser.foldLeft first middle last combine).climbs offset engine) :
    Idle first.guards first.climbs offset engine ∧
      Idle (Parser.guardsAll middle) (Parser.climbsAll middle) offset engine ∧
        Idle last.guards last.climbs offset engine := by
  refine ⟨h.mono ?_ ?_, h.mono ?_ ?_, h.mono ?_ ?_⟩
  · exact fun _ hid => List.mem_append_left _ (List.mem_append_left _ hid)
  · exact fun _ hid => List.mem_append_left _ (List.mem_append_left _ hid)
  · exact fun _ hid => List.mem_append_left _ (List.mem_append_right _ hid)
  · exact fun _ hid => List.mem_append_left _ (List.mem_append_right _ hid)
  · exact fun _ hid => List.mem_append_right _ hid
  · exact fun _ hid => List.mem_append_right _ hid

theorem idle_guarded
    (h : Idle (Parser.guarded id parser).guards (Parser.guarded id parser).climbs offset engine) :
    Idle parser.guards parser.climbs offset engine :=
  h.mono (fun _ hid => List.mem_cons_of_mem _ hid) (fun _ hid => hid)

theorem idle_climb
    (h : Idle (Parser.climb id parsers).guards (Parser.climb id parsers).climbs offset engine) :
    Idle (Parser.guardsAll parsers) (Parser.climbsAll parsers) offset engine :=
  h.mono (fun _ hid => hid) (fun _ hid => List.mem_cons_of_mem _ hid)

end Engine

end Packrat
