import Packrat.Proofs.Termination.Fits

/-!
# Calls that end

A call is poised if its cursor and its state are such as a run comes to.  `EndsWithin` says of a
bound that all poised calls that fit it end, with whatever room there is for them beyond it, and
leave the state as a caller relies on.  The lemmas below give the calls that a node makes, one for
each way in which less is left to them.
-/

namespace Packrat

variable {α : Type}

/-! ## What a run relies on and leaves behind -/

namespace Engine

/-- Guards, precedence and nesting are as they were, and no entry of a lasting cache is gone. -/
structure Restored (lasting : Nat → Prop) (engine engine' : Engine α) : Prop where
  active : ∀ id, engine'.active.get id = engine.active.get id
  climbing : ∀ id, engine'.climbing.get id = engine.climbing.get id
  depth : ∀ id, engine'.depth.get id = engine.depth.get id
  retains : engine.Retains lasting engine'

theorem depth_descended_pos (engine : Engine α) (id : Nat) :
    0 < (engine.descended id).depth.get id := by
  rw [depth_descended_self]
  exact Nat.succ_pos _

theorem depth_le_descended (engine : Engine α) (id other : Nat) :
    engine.depth.get other ≤ (engine.descended id).depth.get other := by
  by_cases hid : id = other
  · subst hid
    rw [depth_descended_self]
    exact Nat.le_succ _
  · rw [depth_descended_of_ne _ hid]

/--
Where a cache lasts, the nodes that clear it are under way, so that none of them is outermost.
-/
def Steady (grammar : Grammar α) (lasting : Nat → Prop) (engine : Engine α) : Prop :=
  ∀ ⦃id cache parser⦄, grammar.Reached (.clearing id cache parser) → lasting cache →
    0 < engine.depth.get id

/-- The wrappers around each alternative that a precedence node is trying come to an end. -/
def Settled (grammar : Grammar α) (engine : Engine α) : Prop :=
  ∀ ⦃id alternatives index alternative⦄, Parser.climb id alternatives ∈ grammar.nodes →
    index ∈ engine.climbing.get id → alternatives[index]? = some alternative →
      grammar.rules.Settles alternative

namespace Restored

variable {lasting : Nat → Prop} {engine engine' engine'' : Engine α}

theorem refl (engine : Engine α) : Restored lasting engine engine :=
  ⟨fun _ => rfl, fun _ => rfl, fun _ => rfl, fun _ _ _ hnone => hnone⟩

theorem trans (h : Restored lasting engine engine') (h' : Restored lasting engine' engine'') :
    Restored lasting engine engine'' where
  active id := (h'.active id).trans (h.active id)
  climbing id := (h'.climbing id).trans (h.climbing id)
  depth id := (h'.depth id).trans (h.depth id)
  retains cache key hlasting hnone :=
    h.retains cache key hlasting (h'.retains cache key hlasting hnone)

theorem freed {id offset : Nat} (h : Restored lasting (engine.entered id offset) engine') :
    Restored lasting engine (engine'.freed id offset) where
  active := Engine.active_freed h.active
  climbing := h.climbing
  depth := h.depth
  retains := h.retains

theorem popped {id index : Nat} (h : Restored lasting (engine.pushed id index) engine') :
    Restored lasting engine (engine'.popped id) where
  active := h.active
  climbing := Engine.climbing_popped h.climbing
  depth := h.depth
  retains := h.retains

theorem recorded (h : Restored lasting engine engine') (event : Event) :
    Restored lasting engine (engine'.recorded event) :=
  ⟨h.active, h.climbing, h.depth, h.retains⟩

theorem tagged (h : Restored lasting engine engine') : Restored lasting engine engine'.tagged :=
  ⟨h.active, h.climbing, h.depth, h.retains⟩

theorem counted (cache : Nat) (key : CacheKey) :
    Restored lasting engine (engine.counted cache key) where
  active _ := rfl
  climbing _ := rfl
  depth _ := rfl
  retains _ _ _ hnone := entryIn_counted.symm.trans hnone

theorem stored (h : Restored lasting engine engine') (cache : Nat) (key : CacheKey)
    (result : Option (Output α)) : Restored lasting engine (engine'.stored cache key result) where
  active := h.active
  climbing := h.climbing
  depth := h.depth
  retains cache' key' hlasting hnone := by
    rw [entryIn_stored] at hnone
    split at hnone
    · cases hnone
    · exact h.retains cache' key' hlasting hnone

/-- A clearing node that is not outermost, or clears a cache that does not last, may end. -/
theorem ended {id cache : Nat} (h : Restored lasting (engine.descended id) engine')
    (hsteady : lasting cache → 0 < engine.depth.get id) :
    Restored lasting engine (engine'.ended id cache) := by
  have hdepth := Engine.depth_ascended h.depth
  refine ⟨fun other => ?_, fun other => ?_, fun other => ?_, fun cache' key hlasting hnone => ?_⟩
  · rw [active_ended]
    exact h.active other
  · rw [climbing_ended]
    exact h.climbing other
  · rw [depth_ended]
    exact hdepth other
  · refine h.retains cache' key hlasting ?_
    by_cases houtermost : (engine'.ascended id).depth.get id = 0
    · have hother : cache ≠ cache' := by
        rintro rfl
        rw [hdepth] at houtermost
        exact absurd (hsteady hlasting) (by omega)
      rw [Engine.ended, if_pos houtermost] at hnone
      rw [← hnone, entryIn, entryIn, cleared, Table.get_update_of_ne _ hother]
      rfl
    · rw [Engine.ended, if_neg houtermost] at hnone
      exact hnone

end Restored

end Engine

/-- The run goes on from a state that is restored, and in which what is stored is sound. -/
def Resumes (grammar : Grammar α) (lasting : Nat → Prop) (scope : Scope α) (tags : Nat)
    (engine engine' : Engine α) : Prop :=
  engine.Restored lasting engine' ∧ engine'.Holds grammar (.progress grammar.rules) scope tags

/-- A call of a node on a cursor in scope, in a state such as a run comes to. -/
structure Poised (grammar : Grammar α) (lasting : Nat → Prop) (scope : Scope α) (tags place : Nat)
    (parser : Parser α) (cursor : Cursor α) (engine : Engine α) : Prop where
  reached : grammar.Reached parser
  covers : scope.Covers tags place cursor
  holds : engine.Holds grammar (.progress grammar.rules) scope tags
  steady : engine.Steady grammar lasting
  settled : grammar.rules.Settles parser → engine.Settled grammar

/-- The run has to wait for a rule that is yet to be made. -/
def Grammar.Awaits (grammar : Grammar α) (stop : Stop) : Prop :=
  ∃ rule, stop = .pending rule ∧ grammar.rules.find rule = .pending

/-- All poised calls that fit the bound end, alike with whatever room there is beyond the bound. -/
def EndsWithin (grammar : Grammar α) (lasting : Nat → Prop) (bound : Nat) : Prop :=
  ∀ {fuel fuel' tags place : Nat} {scope : Scope α} {parser : Parser α} {cursor : Cursor α}
    {engine : Engine α}, bound ≤ fuel → bound ≤ fuel' →
      Poised grammar lasting scope tags place parser cursor engine →
        HasRoom grammar lasting bound parser cursor engine →
          Tracks grammar.Awaits (Engine.run grammar.rules fuel parser cursor)
            (Engine.run grammar.rules fuel' parser cursor) engine
            (Leaves (Resumes grammar lasting scope tags engine)
              (Goodness.progress grammar.rules place parser cursor))

/--
A call that is under way, and has room for one call more than the calls inside it, all of which end
within a bound.
-/
structure Underway (grammar : Grammar α) (lasting : Nat → Prop) (bound fuel fuel' : Nat)
    (scope : Scope α) (tags place : Nat) (parser : Parser α) (cursor : Cursor α)
    (engine : Engine α) : Prop where
  checked : grammar.Checked lasting
  ends : ∀ smaller ≤ bound, EndsWithin grammar lasting smaller
  le_fuel : bound ≤ fuel
  le_fuel' : bound ≤ fuel'
  poised : Poised grammar lasting scope tags place parser cursor engine
  room : HasRoom grammar lasting (bound + 1) parser cursor engine

section Calls

variable {grammar : Grammar α} {lasting : Nat → Prop} {scope : Scope α}
  {tags place place' bound fuel fuel' : Nat} {parser part : Parser α} {cursor here next : Cursor α}
  {engine engine' engine'' : Engine α}

namespace Resumes

theorem refl (h : engine.Holds grammar (.progress grammar.rules) scope tags) :
    Resumes grammar lasting scope tags engine engine :=
  ⟨.refl engine, h⟩

theorem trans (h : Resumes grammar lasting scope tags engine engine')
    (h' : Resumes grammar lasting scope tags engine' engine'') :
    Resumes grammar lasting scope tags engine engine'' :=
  ⟨h.1.trans h'.1, h'.2⟩

end Resumes

theorem Tracks.restored {action action' : EngineM α (Option (Output α))}
    (h : Tracks grammar.Awaits action action' engine
      (Leaves (Resumes grammar lasting scope tags engine) fun _ => True)) :
    Tracks grammar.Awaits action action' engine fun _ engine' => engine.Restored lasting engine' :=
  h.mono fun _ _ hleaves => hleaves.1.1

theorem Engine.Steady.mono (h : engine.Steady grammar lasting)
    (hdepth : ∀ id, engine.depth.get id ≤ engine'.depth.get id) : engine'.Steady grammar lasting :=
  fun _ _ _ hclearing hlasting => Nat.lt_of_lt_of_le (h hclearing hlasting) (hdepth _)

theorem Engine.Settled.congr (h : engine.Settled grammar)
    (hclimbing : ∀ id, engine'.climbing.get id = engine.climbing.get id) :
    engine'.Settled grammar := by
  intro id alternatives index alternative hclimb hindex
  rw [hclimbing] at hindex
  exact h hclimb hindex

namespace Underway

/-- What is needed of a part that is called when the run goes on. -/
theorem called (h : Underway grammar lasting bound fuel fuel' scope tags place parser cursor engine)
    (hreached : grammar.Reached part)
      (hsettled : grammar.rules.Settles part → engine.Settled grammar)
    (hresumes : Resumes grammar lasting scope tags engine engine')
    (hcovers : scope.Covers tags place' next) :
    Poised grammar lasting scope tags place' part next engine' where
  reached := hreached
  covers := hcovers
  holds := hresumes.2
  steady := h.poised.steady.mono fun id => Nat.le_of_eq (hresumes.1.depth id).symm
  settled hsettles := (hsettled hsettles).congr hresumes.1.climbing

/-- A node that wraps nothing may count on the alternatives under way. -/
theorem settled (h : Underway grammar lasting bound fuel fuel' scope tags place parser
    cursor engine)
    (hbare : grammar.rules.wrapped? parser = none) : engine.Settled grammar :=
  h.poised.settled (Rules.settles_of_none hbare)

theorem settled_behind
    (h : Underway grammar lasting bound fuel fuel' scope tags place parser cursor engine)
    (hwrapped : grammar.rules.wrapped? parser = some part) (hsettles : grammar.rules.Settles part) :
    engine.Settled grammar :=
  h.poised.settled ((Rules.settles_iff_of_some hwrapped).mpr hsettles)

theorem source_eq (h : Underway grammar lasting bound fuel fuel' scope tags place parser
    cursor engine)
    (hcovers : scope.Covers tags place' next) : next.source = cursor.source :=
  hcovers.reaches.source_eq.trans h.poised.covers.reaches.source_eq.symm

/-- A part that is called at the same place. -/
theorem falls (h : Underway grammar lasting bound fuel fuel' scope tags place parser cursor engine)
    (hfalls : grammar.Falls lasting parser part)
    (hsettled : grammar.rules.Settles part → engine.Settled grammar)
    (hresumes : Resumes grammar lasting scope tags engine engine')
    (hcovers : scope.Covers tags place' next) (hoffset : next.offset = cursor.offset)
    (halike : cursor.Alike next) :
    Tracks grammar.Awaits (Engine.run grammar.rules fuel part next)
      (Engine.run grammar.rules fuel' part next) engine'
      (Leaves (Resumes grammar lasting scope tags engine)
        (Goodness.progress grammar.rules place' part next)) := by
  have hreached := hfalls.1.reached h.poised.reached
  refine (h.ends bound (Nat.le_refl _) h.le_fuel h.le_fuel'
    (h.called hreached hsettled hresumes hcovers)
    (h.room.falls h.checked hfalls hreached hresumes.1.active hresumes.1.retains
      (h.source_eq hcovers)
      hoffset halike)).mono fun found engine'' hleaves => ?_
  exact hleaves.mono hresumes.trans fun _ hgood => hgood

/-- A part that is called on the cursor of the node itself. -/
theorem at_cursor (h : Underway grammar lasting bound fuel fuel' scope tags place parser
    cursor engine)
    (hfalls : grammar.Falls lasting parser part)
    (hsettled : grammar.rules.Settles part → engine.Settled grammar)
    (hresumes : Resumes grammar lasting scope tags engine engine') :
    Tracks grammar.Awaits (Engine.run grammar.rules fuel part cursor)
      (Engine.run grammar.rules fuel' part cursor) engine'
      (Leaves (Resumes grammar lasting scope tags engine)
        (Goodness.progress grammar.rules place part cursor)) :=
  h.falls hfalls hsettled hresumes h.poised.covers rfl (.refl cursor)

/-- A part that is called further on. -/
theorem ahead (h : Underway grammar lasting bound fuel fuel' scope tags place parser cursor engine)
    (hreached : grammar.Reached part)
    (hsettled : grammar.rules.Settles part → engine.Settled grammar)
    (hresumes : Resumes grammar lasting scope tags engine engine')
    (hcovers : scope.Covers tags place' next) (hoffset : cursor.offset < next.offset) :
    Tracks grammar.Awaits (Engine.run grammar.rules fuel part next)
      (Engine.run grammar.rules fuel' part next) engine'
      (Leaves (Resumes grammar lasting scope tags engine)
        (Goodness.progress grammar.rules place' part next)) := by
  refine (h.ends bound (Nat.le_refl _) h.le_fuel h.le_fuel'
    (h.called hreached hsettled hresumes hcovers)
    (h.room.ahead hreached (h.source_eq hcovers) hoffset)).mono fun found engine'' hleaves => ?_
  exact hleaves.mono hresumes.trans fun _ hgood => hgood

/-- A part that is called where an operand was taken up. -/
theorem taken (h : Underway grammar lasting bound fuel fuel' scope tags place parser cursor engine)
    (hreached : grammar.Reached part)
    (hsettled : grammar.rules.Settles part → engine.Settled grammar)
    (hresumes : Resumes grammar lasting scope tags engine engine')
    (hcovers : scope.Covers tags place' next) (hoffset : next.offset = cursor.offset)
    (hoperand : cursor.left.isOperand = true) (hplain : next.left.isOperand = false) :
    Tracks grammar.Awaits (Engine.run grammar.rules fuel part next)
      (Engine.run grammar.rules fuel' part next) engine'
      (Leaves (Resumes grammar lasting scope tags engine)
        (Goodness.progress grammar.rules place' part next)) := by
  refine (h.ends bound (Nat.le_refl _) h.le_fuel h.le_fuel'
    (h.called hreached hsettled hresumes hcovers)
    (h.room.taken hreached hresumes.1.active (h.source_eq hcovers) hoffset hoperand hplain)).mono
    fun found engine'' hleaves => ?_
  exact hleaves.mono hresumes.trans fun _ hgood => hgood

end Underway

/-! ## Parts in a row -/

/--
The parts `before` led from one cursor to another: further on, or all of them are nullable, or one
of them has taken up the operand.
-/
structure Passes (rules : Rules α) (cursor : Cursor α) (before : List (Parser α))
    (here : Cursor α) : Prop where
  leads : cursor.Leads here
  progress : here.offset = cursor.offset →
    cursor.Alike here ∧ (∀ part ∈ before, Nullable rules part) ∨
      cursor.left.isOperand = true ∧ here.left = .empty

namespace Passes

variable {rules : Rules α} {before : List (Parser α)} {output : Output α}

theorem refl (cursor : Cursor α) : Passes rules cursor [] cursor :=
  ⟨.refl cursor, fun _ => Or.inl ⟨.refl cursor, nofun⟩⟩

theorem snoc (h : Passes rules cursor before here)
    (hgood : Goodness.progress rules place part here output) :
    Passes rules cursor (before ++ [part]) output.next := by
  refine ⟨h.leads.trans hgood.1, fun hoffset => ?_⟩
  have hle := h.leads.reaches.offset_le
  have hle' := hgood.1.reaches.offset_le
  rcases h.progress (by omega) with ⟨halike, hbefore⟩ | ⟨hoperand, hempty⟩
  · rcases hgood.2 (by omega) with hnullable | ⟨hoperand, hempty⟩
    · have hall : ∀ node ∈ before ++ [part], Nullable rules node :=
        List.forall_mem_append.mpr ⟨hbefore, List.forall_mem_singleton.mpr hnullable⟩
      rcases hgood.1.left with hsame | hempty
      · refine Or.inl ⟨?_, hall⟩
        rw [Cursor.Alike, hsame]
        exact halike
      · cases hoperand : cursor.left.isOperand with
        | true => exact Or.inr ⟨rfl, hempty⟩
        | false => exact Or.inl ⟨.of_plain hoperand (by rw [hempty]; rfl), hall⟩
    · rw [halike.isOperand_eq] at hoperand
      exact Or.inr ⟨hoperand, hempty⟩
  · exact Or.inr ⟨hoperand, hgood.1.left.elim (fun hsame => hsame.trans hempty) id⟩

end Passes

namespace Underway

variable {before after parts : List (Parser α)}

/-- A part that is called where the parts before it led, perhaps with another mark to its left. -/
theorem row (h : Underway grammar lasting bound fuel fuel' scope tags place parser cursor engine)
    (hrow : parser.InRow) (hchildren : parser.children = before ++ part :: after)
    (hpasses : Passes grammar.rules cursor before here) (halike : here.Alike next)
    (hoffset : next.offset = here.offset)
      (hresumes : Resumes grammar lasting scope tags engine engine')
    (hcovers : scope.Covers tags place' next) :
    Tracks grammar.Awaits (Engine.run grammar.rules fuel part next)
      (Engine.run grammar.rules fuel' part next) engine'
      (Leaves (Resumes grammar lasting scope tags engine)
        (Goodness.progress grammar.rules place' part next)) := by
  have hbare : grammar.rules.wrapped? parser = none ∧ ¬ parser.Checks lasting := by
    cases parser <;> first | exact ⟨rfl, id⟩ | exact hrow.elim
  have hreached : grammar.Reached part := h.poised.reached.child (by
    rw [hchildren]
    exact List.mem_append_right _ List.mem_cons_self)
  rcases Nat.lt_or_eq_of_le hpasses.leads.reaches.offset_le with hlt | heq
  · exact h.ahead hreached (fun _ => h.settled hbare.1) hresumes hcovers (hoffset ▸ hlt)
  · rcases hpasses.progress heq.symm with ⟨halike', hbefore⟩ | ⟨hoperand, hempty⟩
    · exact h.falls ⟨.part hchildren fun _ => hbefore, hbare.2⟩
        (fun _ => h.settled hbare.1) hresumes
        hcovers (hoffset.trans heq.symm) (halike'.trans halike)
    · refine h.taken hreached (fun _ => h.settled hbare.1) hresumes hcovers
        (hoffset.trans heq.symm) hoperand ?_
      rw [halike.isOperand_eq, hempty]
      rfl

/-- Some of the parts of a row. -/
theorem inSequence
    (h : Underway grammar lasting bound fuel fuel' scope tags place parser cursor engine)
    (hrow : parser.InRow) (hchildren : parser.children = before ++ (parts ++ after))
    (hpasses : Passes grammar.rules cursor before here)
    (hresumes : Resumes grammar lasting scope tags engine engine') :
    Tracks grammar.Awaits (Engine.inSequence (Engine.run grammar.rules fuel) parts here)
      (Engine.inSequence (Engine.run grammar.rules fuel') parts here) engine'
      fun found engine'' => Resumes grammar lasting scope tags engine engine'' ∧
        ∀ payloads behind, found = some (payloads, behind) →
          Passes grammar.rules cursor (before ++ parts) behind ∧ here.Leads behind := by
  refine Engine.tracks_inSequence
    (fun rest next => here.Leads next ∧
      ∃ passed, parts = passed ++ rest ∧ Passes grammar.rules cursor (before ++ passed) next)
    (fun _ _ _ behind => Passes grammar.rules cursor (before ++ parts) behind ∧ here.Leads behind)
    ?_ ?_ ⟨.refl here, [], rfl, by rwa [List.append_nil]⟩ hresumes
  · rintro next ⟨hleads, passed, rfl, hpasses⟩
    rw [List.append_nil]
    exact ⟨hpasses, hleads⟩
  · rintro part rest next engine' ⟨hleads, passed, rfl, hpasses⟩ hresumes
    have hchildren' : parser.children = (before ++ passed) ++ part :: (rest ++ after) := by
      rw [hchildren]
      simp only [List.append_assoc, List.cons_append]
    refine (h.row hrow hchildren' hpasses (.refl next) rfl hresumes
      (h.poised.covers.handed hpasses.leads)).mono fun found engine'' hleaves => ?_
    refine hleaves.mono id fun output hgood =>
      ⟨⟨hleads.trans hgood.1, passed ++ [part], ?_, ?_⟩, fun _ _ hgathered => hgathered⟩
    · rw [List.append_assoc, List.singleton_append]
    · rw [← List.append_assoc]
      exact hpasses.snoc hgood

end Underway

end Calls

end Packrat
