import Packrat.Engine.Run

/-!
# Computations that end

`Yields` says that a computation of the engine ends without a stop, and what its result and the
state behind it are like.  The rules below follow the way computations are put together, one rule
for each piece of the interpreter, so that no later proof opens the interpreter itself.
-/

namespace Packrat

variable {α β γ : Type}

/-- The computation ends, with a result and a state that meet a condition. -/
def Yields (action : EngineM α β) (engine : Engine α) (post : β → Engine α → Prop) : Prop :=
  ∃ result engine', action engine = .ok (result, engine') ∧ post result engine'

namespace Yields

variable {engine : Engine α} {post : β → Engine α → Prop}

theorem pure {result : β} (h : post result engine) :
    Yields (Pure.pure result : EngineM α β) engine post :=
  ⟨result, engine, rfl, h⟩

/-- Two computations in a row. -/
theorem bind {action : EngineM α β} {next : β → EngineM α γ} {post : γ → Engine α → Prop}
    (h : Yields action engine fun result engine' => Yields (next result) engine' post) :
    Yields (action >>= next) engine post := by
  obtain ⟨result, engine', hrun, result', engine'', hnext, hpost⟩ := h
  refine ⟨result', engine'', ?_, hpost⟩
  simp only [Bind.bind, StateT.bind, hrun, Except.bind]
  exact hnext

theorem mono {action : EngineM α β} {weaker : β → Engine α → Prop} (h : Yields action engine post)
    (himp : ∀ result engine', post result engine' → weaker result engine') :
    Yields action engine weaker := by
  obtain ⟨result, engine', hrun, hpost⟩ := h
  exact ⟨result, engine', hrun, himp result engine' hpost⟩

/-- A computation whose outcome is known. -/
theorem of_eq {action : EngineM α β} {result : β} {engine' : Engine α}
    (hrun : action engine = .ok (result, engine')) (h : post result engine') :
    Yields action engine post :=
  ⟨result, engine', hrun, h⟩

end Yields

/-- A computation in two parts returns where both parts do. -/
theorem bind_eq_ok {action : EngineM α β} {next : β → EngineM α γ} {engine out : Engine α}
    {result : γ} (h : (action >>= next) engine = .ok (result, out)) :
    ∃ first mid, action engine = .ok (first, mid) ∧ next first mid = .ok (result, out) := by
  simp only [Bind.bind, StateT.bind, Except.bind] at h
  cases hrun : action engine with
  | error stop =>
      rw [hrun] at h
      cases h
  | ok pair =>
      rw [hrun] at h
      exact ⟨pair.1, pair.2, rfl, h⟩

namespace Engine

/-! ## Effects as functions on the state -/

/-- The state in which a guard is busy at one more offset. -/
def entered (engine : Engine α) (id offset : Nat) : Engine α :=
  { engine with active := engine.active.update id (offset :: ·) }

/-- The state in which a guard is free at an offset again. -/
def freed (engine : Engine α) (id offset : Nat) : Engine α :=
  { engine with active := engine.active.update id (·.erase offset) }

/-- The state in which a precedence node tries one more alternative. -/
def pushed (engine : Engine α) (id index : Nat) : Engine α :=
  { engine with climbing := engine.climbing.update id (index :: ·) }

/-- The state in which a precedence node is done with its innermost alternative. -/
def popped (engine : Engine α) (id : Nat) : Engine α :=
  { engine with climbing := engine.climbing.update id (·.tail) }

/-- The state behind the lookup of a key. -/
def counted (engine : Engine α) (cache : Nat) (key : CacheKey) : Engine α :=
  { engine with caches := engine.caches.update cache (·.count key) }

/-- The state in which a result is stored. -/
def stored (engine : Engine α) (cache : Nat) (key : CacheKey) (result : Option (Output α)) :
    Engine α :=
  { engine with caches := engine.caches.update cache (·.store key result) }

/-- The state with one more event in its trace. -/
def recorded (engine : Engine α) (event : Event) : Engine α :=
  { engine with trace := engine.trace.push event }

/-- The state in which a clearing node is nested one deeper in itself. -/
def descended (engine : Engine α) (id : Nat) : Engine α :=
  { engine with depth := engine.depth.update id (· + 1) }

/-- The state in which a clearing node is nested one less deep in itself. -/
def ascended (engine : Engine α) (id : Nat) : Engine α :=
  { engine with depth := engine.depth.update id (· - 1) }

/-- The state in which a cache has no entries. -/
def cleared (engine : Engine α) (cache : Nat) : Engine α :=
  { engine with caches := engine.caches.update cache .clear }

/-- The state that has given out one more tag. -/
def tagged (engine : Engine α) : Engine α := { engine with nextTag := engine.nextTag + 1 }

/-! ## What is under way behind an effect -/

section UnderWay

variable {engine engine' : Engine α} {id other : Nat}

@[simp] theorem active_entered_self (engine : Engine α) (id offset : Nat) :
    (engine.entered id offset).active.get id = offset :: engine.active.get id :=
  Table.get_update_self ..

theorem active_entered_of_ne (engine : Engine α) (h : id ≠ other) (offset : Nat) :
    (engine.entered id offset).active.get other = engine.active.get other :=
  Table.get_update_of_ne _ h _

@[simp] theorem climbing_pushed_self (engine : Engine α) (id index : Nat) :
    (engine.pushed id index).climbing.get id = index :: engine.climbing.get id :=
  Table.get_update_self ..

theorem climbing_pushed_of_ne (engine : Engine α) (h : id ≠ other) (index : Nat) :
    (engine.pushed id index).climbing.get other = engine.climbing.get other :=
  Table.get_update_of_ne _ h _

@[simp] theorem depth_descended_self (engine : Engine α) (id : Nat) :
    (engine.descended id).depth.get id = engine.depth.get id + 1 :=
  Table.get_update_self ..

theorem depth_descended_of_ne (engine : Engine α) (h : id ≠ other) :
    (engine.descended id).depth.get other = engine.depth.get other :=
  Table.get_update_of_ne _ h _

/-- All guards are as they were before one was entered that is free again. -/
theorem active_freed {offset : Nat}
    (h : ∀ other, engine'.active.get other = (engine.entered id offset).active.get other)
    (other : Nat) : (engine'.freed id offset).active.get other = engine.active.get other := by
  rw [freed, Table.get_update, h, h]
  split
  · next hid =>
      subst hid
      rw [active_entered_self, List.erase_cons_head]
  · next hid => rw [active_entered_of_ne _ hid]

/-- All precedence nodes try what they did before one tried an alternative that it is done with. -/
theorem climbing_popped {index : Nat}
    (h : ∀ other, engine'.climbing.get other = (engine.pushed id index).climbing.get other)
    (other : Nat) : (engine'.popped id).climbing.get other = engine.climbing.get other := by
  rw [popped, Table.get_update, h, h]
  split
  · next hid =>
      subst hid
      rw [climbing_pushed_self, List.tail_cons]
  · next hid => rw [climbing_pushed_of_ne _ hid]

/-- All clearing nodes are as deep as they were before one began that has come to its end. -/
theorem depth_ascended
    (h : ∀ other, engine'.depth.get other = (engine.descended id).depth.get other)
    (other : Nat) : (engine'.ascended id).depth.get other = engine.depth.get other := by
  rw [ascended, Table.get_update, h, h]
  split
  · next hid =>
      subst hid
      rw [depth_descended_self, Nat.add_sub_cancel]
  · next hid => rw [depth_descended_of_ne _ hid]

end UnderWay

/-! ## The pieces of the interpreter as effects -/

theorem enter_of_free {engine : Engine α} {id offset : Nat}
    (hfree : offset ∉ engine.active.get id) :
    enter id offset engine = .ok (true, engine.entered id offset) := by
  have hcontains : (engine.active.get id).contains offset = false := by simpa using hfree
  simp only [enter, Bind.bind, StateT.bind, get, getThe, MonadStateOf.get, StateT.get, Pure.pure,
    Except.pure, Except.bind, hcontains]
  rfl

theorem enter_of_busy {engine : Engine α} {id offset : Nat}
    (hbusy : offset ∈ engine.active.get id) : enter id offset engine = .ok (false, engine) := by
  have hcontains : (engine.active.get id).contains offset = true := by simpa using hbusy
  simp only [enter, Bind.bind, StateT.bind, get, getThe, MonadStateOf.get, StateT.get, Pure.pure,
    Except.pure, Except.bind, hcontains]
  rfl

theorem leave_eq (engine : Engine α) (id offset : Nat) :
    leave id offset engine = .ok ((), engine.freed id offset) := rfl

theorem innermost?_eq (engine : Engine α) (id : Nat) :
    innermost? id engine = .ok ((engine.climbing.get id).head?, engine) := rfl

theorem pushAlternative_eq (engine : Engine α) (id index : Nat) :
    pushAlternative id index engine = .ok ((), engine.pushed id index) := rfl

theorem popAlternative_eq (engine : Engine α) (id : Nat) :
    popAlternative id engine = .ok ((), engine.popped id) := rfl

theorem lookup?_eq (engine : Engine α) (cache : Nat) (key : CacheKey) :
    lookup? cache key engine =
      .ok ((engine.caches.get cache).entries[key]?, engine.counted cache key) := rfl

theorem store_eq (engine : Engine α) (cache : Nat) (key : CacheKey)
    (result : Option (Output α)) :
    store cache key result engine = .ok ((), engine.stored cache key result) := rfl

theorem record_eq (engine : Engine α) (event : Event) :
    record event engine = .ok ((), engine.recorded event) := rfl

theorem descend_eq (engine : Engine α) (id : Nat) :
    descend id engine = .ok ((), engine.descended id) := rfl

theorem ascend_eq (engine : Engine α) (id : Nat) :
    ascend id engine = .ok ((engine.ascended id).depth.get id == 0, engine.ascended id) := rfl

theorem freshTag_eq (engine : Engine α) :
    freshTag engine = .ok (engine.nextTag, engine.tagged) := rfl

end Engine

/-! ## Whole texts -/

/-- The answer to a whole text, by what is found at its start. -/
def Source.answer (source : Source) : Option (Output α) → Except (Failure α) α
  | none => .error .noMatch
  | some output =>
      if output.next.offset < source.size then .error (.leftover output.next.offset output.payload)
      else .ok output.payload

theorem parseText_of_parse {rules : Rules α} {parser : Parser α} {source : Source}
    {found : Option (Output α)} {engine out : Engine α}
    (h : parser.parse rules (.start source) engine = .ok (found, out)) :
    parser.parseText rules source engine = .ok (source.answer found, out) := by
  simp only [Parser.parseText, Bind.bind, StateT.bind, h, Except.bind]
  cases found with
  | none => rfl
  | some output =>
      simp only [Source.answer]
      split <;> rfl

end Packrat
