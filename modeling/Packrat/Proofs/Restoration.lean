import Packrat.Proofs.Precedence.Attempts
import Packrat.Proofs.Sentinel
import Packrat.Proofs.Termination.Calls
import Packrat.Proofs.Tracking.Steps

/-!
# Calls leave as much under way as there was

A guard is busy, an alternative is being tried and a clearing node is open for as long as the call
that began it, however often it is entered again inside.  So a call that returns leaves the state as
it was, but for caches, traces and tags, and what the state says to be under way is told by the
calls that are.
-/

namespace Packrat

variable {α : Type}

namespace Engine

/-! ## States with as much under way -/

/-- As much is under way in both states: guards, alternatives and clearing nodes. -/
abbrev Balanced (engine engine' : Engine α) : Prop := engine.Restored (fun _ => False) engine'

namespace Balanced

variable {base engine : Engine α} {id cache offset index : Nat}

theorem congr_get {β : Type} [Inhabited β] {table table' : Table β}
    (h : ∀ i, table'.get i = table.get i) (id : Nat) (f : β → β) (i : Nat) :
    (table'.update id f).get i = (table.update id f).get i := by
  rw [Table.get_update, Table.get_update, h, h]

theorem entered (h : base.Balanced engine) (id offset : Nat) :
    (base.entered id offset).Balanced (engine.entered id offset) :=
  ⟨congr_get h.active id _, h.climbing, h.depth, fun _ _ => False.elim⟩

theorem pushed (h : base.Balanced engine) (id index : Nat) :
    (base.pushed id index).Balanced (engine.pushed id index) :=
  ⟨h.active, congr_get h.climbing id _, h.depth, fun _ _ => False.elim⟩

theorem descended (h : base.Balanced engine) (id : Nat) :
    (base.descended id).Balanced (engine.descended id) :=
  ⟨h.active, h.climbing, congr_get h.depth id _, fun _ _ => False.elim⟩

theorem ended (h : (base.descended id).Balanced engine) (cache : Nat) :
    base.Balanced (engine.ended id cache) :=
  Restored.ended h False.elim

/-- The depth at which a clearing node ends is the one at which it began. -/
theorem depth_ascended (h : (base.descended id).Balanced engine) :
    (engine.ascended id).depth.get id = base.depth.get id :=
  Engine.depth_ascended h.depth id

end Balanced

theorem entryIn_cleared (engine : Engine α) (cache cache' : Nat) (key : CacheKey) :
    (engine.cleared cache').entryIn cache key =
      if cache' = cache then none else engine.entryIn cache key := by
  by_cases h : cache' = cache
  · subst h
    simp [entryIn, cleared, Cache.clear]
  · simp [entryIn, cleared, h]

/-- What a cache stores behind the end of a clearing node that began at a known depth. -/
theorem Balanced.entryIn_ended {base engine : Engine α} {id cache' : Nat}
    (h : (base.descended id).Balanced engine) (cache : Nat) (key : CacheKey) :
    (engine.ended id cache').entryIn cache key =
      if base.depth.get id = 0 ∧ cache' = cache then none else engine.entryIn cache key := by
  rw [Engine.ended, h.depth_ascended]
  by_cases houtermost : base.depth.get id = 0
  · simp only [houtermost, if_true, entryIn_cleared, true_and]
    rfl
  · simp only [houtermost, if_false, false_and]
    rfl

end Engine

/-! ## What holds at every call -/

/-- The number of a precedence node. -/
def Parser.climb? : Parser α → Option Nat
  | .climb id _ => some id
  | _ => none

/--
A condition on the state, on the calls under way and on the next one, which a run keeps to.  It has
to follow the alternatives that precedence nodes try; the rest of the state may change as it likes.
-/
structure Sentinel.Watch (sentinel : Sentinel α) (rules : Rules α) where
  ready : Engine α → List (Parser α × Cursor α) → Parser α → Cursor α → Prop
  quiet : ∀ {engine around parser cursor}, ready engine around parser cursor →
    sentinel.objects engine around parser cursor = false
  congr : ∀ {engine engine' around parser cursor},
    (∀ id, engine'.climbing.get id = engine.climbing.get id) → ready engine around parser cursor →
      ready engine' around parser cursor
  called : ∀ {engine around parser cursor part next}, ready engine around parser cursor →
    rules.Calls parser part → parser.climb? = none →
      ready engine ((parser, cursor) :: around) part next
  attempted : ∀ {engine around id alternatives cursor index part next},
    ready engine around (.climb id alternatives) cursor →
      rules.Attempts alternatives (engine.climbing.get id) cursor index part next →
        ready (engine.pushed id index) ((.climb id alternatives, cursor) :: around) part next

section Runs

variable {sentinel : Sentinel α} {rules : Rules α} {fuel : Nat}
  {around : List (Parser α × Cursor α)} {parser : Parser α} {cursor : Cursor α} {engine : Engine α}

/-- A part that is called with as much under way as there is at the node leaves as much under way. -/
def Engine.Balances (engine : Engine α) (call call' : Call α) (part : Parser α) : Prop :=
  ∀ base : Engine α, (∀ id, base.climbing.get id = engine.climbing.get id) →
    Engine.Kept base.Balanced call call' part

namespace Engine.Balances

variable {call call' : Call α} {part : Parser α} {id cache : Nat}

theorem guarded (hpart : engine.Balances call call' part) :
    Tracks (fun _ => True) (guardedMatch call id part cursor) (guardedMatch call' id part cursor)
      engine fun _ out => engine.Balanced out := by
  apply tracks_guardedMatch
  · intro _
    have hentered := hpart (engine.entered id cursor.offset) fun _ => rfl
    apply (hentered cursor _ (.refl _)).mono
    exact fun _ _ hbalanced => hbalanced.freed
  · exact fun _ => .refl engine

theorem memo (hpart : engine.Balances call call' part) :
    Tracks (fun _ => True) (memoMatch call id cache part cursor)
      (memoMatch call' id cache part cursor) engine fun _ out => engine.Balanced out := by
  apply tracks_memoMatch rfl
  · exact fun _ _ => .counted cache _
  · intro _
    have hstored : ∀ key, engine.Balanced ((engine.counted cache key).stored cache key none) :=
      fun key => (Restored.counted cache key).stored cache key none
    apply (hpart engine (fun _ => rfl) cursor _ (hstored _)).mono
    exact fun found _ hbalanced => hbalanced.stored cache _ found

theorem clearing (hpart : engine.Balances call call' part) :
    Tracks (fun _ => True) (clearingMatch call id cache part cursor)
      (clearingMatch call' id cache part cursor) engine fun _ out => engine.Balanced out := by
  have hdescended := hpart (engine.descended id) fun _ => rfl
  apply tracks_clearingMatch
  apply (hdescended cursor _ (.refl _)).mono
  exact fun _ _ hbalanced => Balanced.ended hbalanced cache

theorem logged {name : String} (hpart : engine.Balances call call' part) :
    Tracks (fun _ => True) (loggedMatch call name part cursor) (loggedMatch call' name part cursor)
      engine fun _ out => engine.Balanced out := by
  apply tracks_loggedMatch
  apply (hpart engine (fun _ => rfl) cursor _ ((Restored.refl engine).recorded _)).mono
  exact fun _ _ hbalanced => hbalanced.recorded _

end Engine.Balances

/--
Where the condition of a watch holds at the beginning, its sentinel has nothing to object to, and
the run leaves as much under way as there was.
-/
theorem Sentinel.Watch.tracks_run (watch : sentinel.Watch rules) (alarm : Stop)
    (h : watch.ready engine around parser cursor) :
    Tracks (fun _ => True) (sentinel.run alarm rules fuel around parser cursor)
      (Engine.run rules fuel parser cursor) engine fun _ out => engine.Balanced out := by
  induction fuel generalizing engine around parser cursor with
  | zero => exact Tracks.throw trivial
  | succ fuel ih =>
      apply Sentinel.tracks_run (watch.quiet h)
      have hcall : parser.climb? = none → ∀ part, rules.Calls parser part →
          engine.Balances (sentinel.run alarm rules fuel ((parser, cursor) :: around))
            (Engine.run rules fuel) part := by
        intro hclimb part hpart base hbase next engine' hbalanced
        have hsame : ∀ id, engine'.climbing.get id = engine.climbing.get id :=
          fun id => (hbalanced.climbing id).trans (hbase id)
        apply (ih (watch.congr hsame (watch.called h hpart hclimb))).mono
        exact fun _ _ => hbalanced.trans
      by_cases hstateless : parser.Stateless
      · have hclimb : parser.climb? = none := by
          cases parser <;> first | rfl | exact hstateless.elim
        exact Engine.tracks_stateless hstateless
          (fun part hpart => hcall hclimb part hpart engine fun _ => rfl)
          (fun _ hbalanced => hbalanced.tagged) (.refl engine)
      cases parser with
      | guarded id part => exact (hcall rfl part (.child List.mem_cons_self)).guarded
      | climb id alternatives =>
          apply Engine.tracks_climb _ (Engine.Restored.refl engine)
          intro engine' hbalanced index part next hattempts
          have hpushed := Engine.Balanced.pushed hbalanced id index
          have hready := watch.congr hpushed.climbing (watch.attempted h hattempts)
          apply (ih hready).mono
          exact fun _ _ hinner => hbalanced.trans hinner.popped
      | memo id cache part => exact (hcall rfl part (.child List.mem_cons_self)).memo
      | clearing id cache part => exact (hcall rfl part (.child List.mem_cons_self)).clearing
      | logged name part => exact (hcall rfl part (.child List.mem_cons_self)).logged
      | redirected move part =>
          have hpart := hcall rfl part (.child List.mem_cons_self) engine fun _ => rfl
          apply Engine.tracks_redirected
          · exact fun next => hpart next engine (.refl engine)
          · exact fun _ => trivial
      | _ => exact absurd trivial hstateless

/-- A sentinel that objects to nothing lets every run go its way. -/
def Sentinel.idleWatch (rules : Rules α) :
    Sentinel.Watch (⟨fun _ _ _ _ => false⟩ : Sentinel α) rules where
  ready _ _ _ _ := True
  quiet _ := rfl
  congr _ _ := trivial
  called _ _ _ := trivial
  attempted _ _ := trivial

/-- Whatever a run does, it leaves as much under way as there was. -/
theorem tracks_balanced :
    Tracks (fun _ => True) (Engine.run rules fuel parser cursor)
      (Engine.run rules fuel parser cursor) engine fun _ out => engine.Balanced out := by
  have hready : (Sentinel.idleWatch rules).ready engine [] parser cursor := trivial
  exact ((Sentinel.idleWatch rules).tracks_run .tooDeep hready).self

end Runs

/-! ## The alternatives under way -/

/--
The alternatives of a precedence node that are being tried along a path of calls, each with the node
that tries it.  Calls and alternatives are given innermost first.
-/
def Parser.tried (id : Nat) : List (Parser α) → List (Parser α × Parser α)
  | part :: caller :: path =>
      if caller.climb? = some id then (caller, part) :: tried id (caller :: path)
      else tried id (caller :: path)
  | _ => []

section Tried

variable {id : Nat} {caller part : Parser α} {path alternatives : List (Parser α)}

theorem Parser.tried_of_climb :
    tried id (part :: .climb id alternatives :: path) =
      (.climb id alternatives, part) :: tried id (.climb id alternatives :: path) :=
  if_pos rfl

theorem Parser.tried_of_other (h : caller.climb? ≠ some id) :
    tried id (part :: caller :: path) = tried id (caller :: path) :=
  if_neg h

end Tried

/--
On top of the indices that a run began with, a precedence node has those of the alternatives that it
tries along the path.
-/
def Tells (id : Nat) (start : List Nat) (path : List (Parser α)) (stack : List Nat) : Prop :=
  ∃ indices, stack = indices ++ start ∧
    List.Forall₂ (fun index tried => tried.1.children[index]? = some tried.2) indices
      (Parser.tried id path)

namespace Tells

variable {id index : Nat} {start stack : List Nat} {path alternatives : List (Parser α)}
  {parser part : Parser α}

theorem first (id : Nat) (start : List Nat) (parser : Parser α) : Tells id start [parser] start :=
  ⟨[], rfl, .nil⟩

theorem called (h : Tells id start (parser :: path) stack) (hparser : parser.climb? ≠ some id) :
    Tells id start (part :: parser :: path) stack := by
  rw [Tells, Parser.tried_of_other hparser]
  exact h

theorem attempted (h : Tells id start (.climb id alternatives :: path) stack)
    (hget : alternatives[index]? = some part) :
    Tells id start (part :: .climb id alternatives :: path) (index :: stack) := by
  obtain ⟨indices, rfl, hall⟩ := h
  rw [Tells, Parser.tried_of_climb]
  exact ⟨index :: indices, rfl, .cons hget hall⟩

end Tells

open Classical in
/--
Objects to a call at which the indices of a precedence node are not those of the alternatives that
it is trying.
-/
noncomputable def Sentinel.climbing (id : Nat) (start : List Nat) : Sentinel α where
  objects engine around parser _ :=
    !decide (Tells id start (parser :: around.map Prod.fst) (engine.climbing.get id))

/-- The indices of a precedence node tell at every call what it tries. -/
def Sentinel.climbingWatch (rules : Rules α) (id : Nat) (start : List Nat) :
    (Sentinel.climbing id start : Sentinel α).Watch rules where
  ready engine around parser _ :=
    Tells id start (parser :: around.map Prod.fst) (engine.climbing.get id)
  quiet h := by simpa [climbing] using h
  congr hsame h := by rwa [hsame]
  called h _ hclimb := h.called (by rw [hclimb]; nofun)
  attempted {engine _ other _ _ index _ _} h hattempts := by
    by_cases hid : other = id
    · subst hid
      rw [Engine.climbing_pushed_self]
      exact h.attempted hattempts.getElem?_eq
    · rw [Engine.climbing_pushed_of_ne _ hid]
      exact h.called (by simpa [Parser.climb?] using hid)

/--
Every call that returns leaves all guards, alternatives and clearing nodes as it found them, whether
it matches or not.  While a run goes on, the alternatives that a precedence node has under way are
those that it is trying, and the innermost one is on top.
-/
theorem run_restores (rules : Rules α) (fuel : Nat) (parser : Parser α) (cursor : Cursor α)
    (engine : Engine α) :
    Ends (fun _ => True)
      (fun _ out => ∀ id, out.active.get id = engine.active.get id ∧
        out.climbing.get id = engine.climbing.get id ∧ out.depth.get id = engine.depth.get id)
      (Engine.run rules fuel parser cursor engine) ∧
    ∀ id alarm, (Sentinel.climbing id (engine.climbing.get id)).run alarm rules fuel [] parser
      cursor engine = Engine.run rules fuel parser cursor engine := by
  constructor
  · apply (tracks_balanced.mono _).ends
    exact fun _ _ hbalanced id =>
      ⟨hbalanced.active id, hbalanced.climbing id, hbalanced.depth id⟩
  · intro id alarm
    have hready : (Sentinel.climbingWatch rules id (engine.climbing.get id)).ready engine [] parser
        cursor := .first id _ parser
    exact (Sentinel.Watch.tracks_run _ alarm hready).same

end Packrat
