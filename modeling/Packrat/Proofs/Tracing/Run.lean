import Packrat.Proofs.Audit.Run
import Packrat.Proofs.Tracing.Untraced

/-!
# Runs with and without traces

A run without traces does what a run with traces does, in states that are the same but for what was
recorded.  What is recorded around a node takes room of its own: a run without traces has enough
where the other one has, and a run with traces where it has as much for every record as well.
-/

namespace Packrat

variable {α : Type}

/-! ## States that are the same but for their traces -/

/-- The states are the same but for their traces. -/
def Engine.Alike (engine engine' : Engine α) : Prop := engine'.withTrace #[] = engine.withTrace #[]

namespace Engine.Alike

variable {engine engine' engine'' : Engine α}

theorem refl (engine : Engine α) : engine.Alike engine := rfl

theorem symm (h : engine.Alike engine') : engine'.Alike engine := Eq.symm h

theorem trans (h : engine.Alike engine') (h' : engine'.Alike engine'') : engine.Alike engine'' :=
  Eq.trans h' h

theorem active (h : engine.Alike engine') : engine'.active = engine.active :=
  (congrArg Engine.active (show engine'.withTrace #[] = engine.withTrace #[] from h) :)

theorem climbing (h : engine.Alike engine') : engine'.climbing = engine.climbing :=
  (congrArg Engine.climbing (show engine'.withTrace #[] = engine.withTrace #[] from h) :)

theorem caches (h : engine.Alike engine') : engine'.caches = engine.caches :=
  (congrArg Engine.caches (show engine'.withTrace #[] = engine.withTrace #[] from h) :)

theorem nextTag (h : engine.Alike engine') : engine'.nextTag = engine.nextTag :=
  (congrArg Engine.nextTag (show engine'.withTrace #[] = engine.withTrace #[] from h) :)

theorem entered (h : engine.Alike engine') (id offset : Nat) :
    (engine.entered id offset).Alike (engine'.entered id offset) :=
  congrArg (Engine.entered · id offset) h

theorem freed (h : engine.Alike engine') (id offset : Nat) :
    (engine.freed id offset).Alike (engine'.freed id offset) :=
  congrArg (Engine.freed · id offset) h

theorem pushed (h : engine.Alike engine') (id index : Nat) :
    (engine.pushed id index).Alike (engine'.pushed id index) :=
  congrArg (Engine.pushed · id index) h

theorem popped (h : engine.Alike engine') (id : Nat) :
    (engine.popped id).Alike (engine'.popped id) :=
  congrArg (Engine.popped · id) h

theorem counted (h : engine.Alike engine') (cache : Nat) (key : CacheKey) :
    (engine.counted cache key).Alike (engine'.counted cache key) :=
  congrArg (Engine.counted · cache key) h

theorem stored (h : engine.Alike engine') (cache : Nat) (key : CacheKey)
    (result : Option (Output α)) :
    (engine.stored cache key result).Alike (engine'.stored cache key result) :=
  congrArg (Engine.stored · cache key result) h

theorem descended (h : engine.Alike engine') (id : Nat) :
    (engine.descended id).Alike (engine'.descended id) :=
  congrArg (Engine.descended · id) h

theorem ended (h : engine.Alike engine') (id cache : Nat) :
    (engine.ended id cache).Alike (engine'.ended id cache) := by
  rw [Alike, ← ended_withTrace, ← ended_withTrace, h]

theorem tagged (h : engine.Alike engine') : engine.tagged.Alike engine'.tagged :=
  congrArg Engine.tagged h

/-- A record in either state changes nothing else. -/
theorem recorded_left (h : engine.Alike engine') (event : Event) :
    (engine.recorded event).Alike engine' := h

theorem recorded_right (h : engine.Alike engine') (event : Event) :
    engine.Alike (engine'.recorded event) := h

end Engine.Alike

/-- Two runs on the same cursor, in states that are the same but for their traces. -/
def Bond.untraced : Bond α where
  like cursor cursor' := cursor = cursor'
  holds := Engine.Alike
  alike := by
    rintro cursor _ rfl
    exact .refl cursor
  withLeft := by
    rintro cursor _ left rfl _
    rfl
  consume := by
    rintro cursor _ taken rest rfl hrest
    rfl

section Found

variable {found found' : Option (Output α)} {engine engine' : Engine α}

theorem Bond.untraced_found_iff : Bond.untraced.Found found engine found' engine' ↔
    engine.Alike engine' ∧ found' = found :=
  found_iff_of_eq eq_comm

/-- What both states become alike changes nothing about what is found. -/
theorem Bond.Found.changed {after after' : Engine α}
    (h : Bond.untraced.Found found engine found' engine')
    (hafter : engine.Alike engine' → after.Alike after') :
    Bond.untraced.Found found after found' after' :=
  ⟨hafter h.1, h.2⟩

end Found

/-! ## One step -/

section Steps

variable {call call' : Call α} {rules : Rules α} {fuel fuel' : Nat} {parser part : Parser α}
  {cursor : Cursor α} {engine engine' : Engine α} {name : String}

/-- A folded payload is offered with the same tag. -/
theorem extends_untraced (h : Bond.untraced.Mirrored call call' call' parser) :
    Engine.Extends Bond.untraced call call' call' parser := by
  apply Engine.Extends.of_mirrored h
  rintro cursor _ engine engine' value rfl halike
  rw [show engine'.nextTag = engine.nextTag from Engine.Alike.nextTag halike]
  exact ⟨rfl, Engine.Alike.tagged halike⟩

theorem mirrored_attempt_untraced (id index : Nat)
    (h : Bond.untraced.Mirrored call call' call' part) :
    Bond.untraced.Mirrored (Engine.attempt call id index) (Engine.attempt call' id index)
      (Engine.attempt call' id index) part := by
  rintro cursor _ engine engine' rfl halike
  apply Engine.mirrors_attempt
  apply (h rfl (Engine.Alike.pushed halike id index)).mono
  intro found out found' out' hfound
  exact hfound.changed (·.popped id)

/-- A node that records nothing is mirrored where its calls are. -/
theorem mirrored_step_untraced (hlogs : parser.logs = 0)
    (hclimb : ∀ id alternatives, parser ≠ .climb id alternatives)
    (hcall : ∀ part, rules.Calls parser part → Bond.untraced.Mirrored call call' call' part)
    (hle : fuel ≤ fuel') :
    Bond.untraced.Mirrored (Engine.step rules fuel call) (Engine.step rules fuel' call')
      (Engine.step rules fuel' call') parser := by
  rintro cursor _ engine engine' rfl h
  by_cases hstateless : parser.Stateless
  · apply Engine.mirrors_step hstateless hcall _ (.inl hle) (.inl hle) rfl h
    rintro left middle right combine rfl
    exact extends_untraced (hcall left (.child List.mem_cons_self))
  cases parser with
  | guarded id part =>
      have hactive : engine'.active = engine.active := Engine.Alike.active h
      apply Engine.mirrors_guardedMatch rfl
      · intro hfree
        rw [hactive]
        refine ⟨hfree, ?_⟩
        apply (hcall part (.child List.mem_cons_self) rfl (Engine.Alike.entered h id _)).mono
        intro found out found' out' hfound
        exact hfound.changed (·.freed id _)
      · intro hbusy
        rw [hactive]
        exact ⟨hbusy, .none h⟩
  | climb id alternatives => exact absurd rfl (hclimb id alternatives)
  | memo id cache part =>
      have hcaches : engine'.caches = engine.caches := Engine.Alike.caches h
      apply Engine.mirrors_memoMatch rfl rfl
      · intro result hentry
        rw [hcaches]
        refine ⟨result, hentry, ?_⟩
        exact Bond.untraced_found_iff.mpr ⟨Engine.Alike.counted h cache _, rfl⟩
      · intro hentry
        rw [hcaches]
        refine ⟨hentry, ?_⟩
        apply (hcall part (.child List.mem_cons_self) rfl
          ((Engine.Alike.counted h cache _).stored cache _ none)).mono
        intro found out found' out' hfound
        obtain ⟨halike, rfl⟩ := Bond.untraced_found_iff.mp hfound
        exact Bond.untraced_found_iff.mpr ⟨halike.stored cache _ found', rfl⟩
  | clearing id cache part =>
      apply Engine.mirrors_clearingMatch
      apply (hcall part (.child List.mem_cons_self) rfl (Engine.Alike.descended h id)).mono
      intro found out found' out' hfound
      exact hfound.changed (·.ended id cache)
  | logged name part => cases hlogs
  | redirected move part =>
      simp only [Engine.step]
      cases move cursor with
      | ok moved => exact hcall part (.child List.mem_cons_self) rfl h
      | error fault => exact Mirrors.of_stop rfl
  | _ => exact absurd trivial hstateless

/-- A precedence node that tells groups as the other one does is mirrored where its calls are. -/
theorem mirrored_climb_untraced {restarts restarts' : Parser α → Except Stop Bool} {id : Nat}
    {alternatives : List (Parser α)}
    (hrestarts : ∀ part ∈ alternatives, ∀ answer, restarts part = .ok answer →
      restarts' part = .ok answer)
    (hcall : ∀ part ∈ alternatives, Bond.untraced.Mirrored call call' call' part)
    (halike : engine.Alike engine') :
    Mirrors (Engine.climbMatch call restarts id alternatives cursor) engine
      (Engine.climbMatch call' restarts' id alternatives cursor)
      (Engine.climbMatch call' restarts' id alternatives cursor) engine' Bond.untraced.Found := by
  have hclimbing : engine'.climbing.get id = engine.climbing.get id := by rw [halike.climbing]
  refine Engine.mirrors_climbMatch hclimbing (fun part hpart answer hanswer => ?_) ?_ rfl halike
  · exact ⟨hrestarts part hpart answer hanswer, hrestarts part hpart answer hanswer⟩
  · exact fun index part hpart => mirrored_attempt_untraced id index (hcall part hpart)

/-- The second run records the call, the first one does not. -/
theorem mirrors_logged_right {action : EngineM α (Option (Output α))}
    (h : ∀ engine', engine.Alike engine' →
      Mirrors action engine (call part cursor) (call part cursor) engine' Bond.untraced.Found)
    (halike : engine.Alike engine') :
    Mirrors action engine (Engine.loggedMatch call name part cursor)
      (Engine.loggedMatch call name part cursor) engine' Bond.untraced.Found := by
  intro found out hrun
  apply Engine.tracks_loggedMatch
  apply (h _ (halike.recorded_right _) found out hrun).mono
  intro found' out' hfound
  exact hfound.changed (·.recorded_right _)

/-- The first run records the call, the second one does not. -/
theorem mirrors_logged_left {action : EngineM α (Option (Output α))}
    (h : ∀ engine, engine.Alike engine' →
      Mirrors (call part cursor) engine action action engine' Bond.untraced.Found)
    (halike : engine.Alike engine') :
    Mirrors (Engine.loggedMatch call name part cursor) engine action action engine'
      Bond.untraced.Found := by
  intro found out hrun
  obtain ⟨_, mid, hrecord, hrest⟩ := bind_eq_ok hrun
  rw [Engine.record_eq] at hrecord
  cases hrecord
  obtain ⟨first, mid, hcall, hrest⟩ := bind_eq_ok hrest
  obtain ⟨_, last, hrecord, hpure⟩ := bind_eq_ok hrest
  rw [Engine.record_eq] at hrecord
  cases hrecord
  cases hpure
  apply (h _ (halike.recorded_left _) found mid hcall).mono
  intro found' out' hfound
  exact hfound.changed (·.recorded_left _)

end Steps

/-! ## Runs -/

/-- Runs a parser of a grammar with traces without them. -/
def Engine.quietRun (rules : Rules α) (fuel : Nat) : Call α :=
  fun part => Engine.run rules.untraced fuel part.untraced

section Runs

variable {rules : Rules α} {grammar : Grammar α} {fuel fuel' room most : Nat} {parser : Parser α}
  {cursor : Cursor α}

theorem quietRun_logged (name : String) (part : Parser α) :
    Engine.quietRun rules fuel (.logged name part) = Engine.quietRun rules fuel part := rfl

theorem quietRun_climb (id : Nat) (alternatives : List (Parser α)) :
    Engine.quietRun rules (fuel + 1) (.climb id alternatives) cursor =
      Engine.climbMatch (Engine.quietRun rules fuel)
        (fun part => Engine.restarts rules.untraced fuel part.untraced) id alternatives cursor :=
  Engine.step_untraced_climb id alternatives

theorem quietRun_succ (hlogs : parser.logs = 0)
    (hclimb : ∀ id alternatives, parser ≠ .climb id alternatives) :
    Engine.quietRun rules (fuel + 1) parser =
      Engine.step rules fuel (Engine.quietRun rules fuel) parser :=
  funext fun _ => Engine.step_untraced hlogs hclimb

/-- Wherever a run with traces returns, the run without them does, with as much room. -/
theorem mirrored_quietRun (hle : fuel ≤ fuel') :
    Bond.untraced.Mirrored (Engine.run rules fuel) (Engine.quietRun rules fuel')
      (Engine.quietRun rules fuel') parser := by
  induction fuel generalizing fuel' parser with
  | zero =>
      intro cursor cursor' engine engine' _ _
      exact Mirrors.of_stop rfl
  | succ fuel ih =>
      rintro cursor _ engine engine' rfl halike
      cases hlogs : parser.logs with
      | succ count =>
          obtain ⟨name, part, rfl, -⟩ := Parser.exists_of_logs_succ hlogs
          rw [quietRun_logged]
          exact mirrors_logged_left (fun _ => ih (Nat.le_of_succ_le hle) rfl) halike
      | zero =>
          obtain ⟨room, rfl⟩ := Nat.exists_eq_succ_of_ne_zero (Nat.ne_of_gt (Nat.zero_lt_of_lt hle))
          have hle := Nat.le_of_succ_le_succ hle
          have hcall : ∀ part, rules.Calls parser part →
              Bond.untraced.Mirrored (Engine.run rules fuel) (Engine.quietRun rules room)
                (Engine.quietRun rules room) part := fun part _ => ih hle
          by_cases hclimb : ∃ id alternatives, parser = .climb id alternatives
          · obtain ⟨id, alternatives, rfl⟩ := hclimb
            rw [quietRun_climb]
            refine mirrored_climb_untraced ?_ (fun part hpart => hcall part (.child hpart)) halike
            exact fun part _ answer hanswer => Rules.restarts_untraced hanswer hle
          · have hclimb : ∀ id alternatives, parser ≠ .climb id alternatives :=
              fun id alternatives heq => hclimb ⟨id, alternatives, heq⟩
            rw [quietRun_succ hlogs hclimb]
            exact mirrored_step_untraced hlogs hclimb hcall hle rfl halike

/-- Wherever a run without traces returns, the run with them does, with room for each record. -/
theorem mirrored_run_of_quiet (hmost : ∀ node ∈ grammar.nodes, node.logs ≤ most)
    (hnode : parser ∈ grammar.nodes) (hroom : fuel * (most + 1) ≤ room) :
    Bond.untraced.Mirrored (Engine.quietRun grammar.rules fuel) (Engine.run grammar.rules room)
      (Engine.run grammar.rules room) parser := by
  induction fuel generalizing room parser with
  | zero =>
      intro cursor cursor' engine engine' _ _
      exact Mirrors.of_stop rfl
  | succ fuel ih =>
      have hinner : fuel * (most + 1) + parser.logs < room := by
        have hlogs := hmost parser hnode
        rw [Nat.succ_mul] at hroom
        omega
      clear hroom
      -- one record after another, and then the node that is recorded
      induction hlogs : parser.logs generalizing parser room with
      | succ count ihcount =>
          rintro cursor _ engine engine' rfl halike
          obtain ⟨name, part, rfl, hcount⟩ := Parser.exists_of_logs_succ hlogs
          obtain ⟨room, rfl⟩ := Nat.exists_eq_add_of_lt hinner
          have hpart : part ∈ grammar.nodes := Grammar.child_mem_nodes hnode List.mem_cons_self
          rw [quietRun_logged]
          exact mirrors_logged_right (fun _ => ihcount hpart (by omega) hcount rfl) halike
      | zero =>
          rintro cursor _ engine engine' rfl halike
          obtain ⟨room, rfl⟩ := Nat.exists_eq_add_of_lt hinner
          have hroom : fuel * (most + 1) ≤ fuel * (most + 1) + parser.logs + room := by omega
          have hcall : ∀ part, grammar.rules.Calls parser part →
              Bond.untraced.Mirrored (Engine.quietRun grammar.rules fuel)
                (Engine.run grammar.rules (fuel * (most + 1) + parser.logs + room))
                (Engine.run grammar.rules (fuel * (most + 1) + parser.logs + room)) part :=
            fun part hcalls => ih (Grammar.mem_nodes_of_calls hnode hcalls) hroom
          by_cases hclimb : ∃ id alternatives, parser = .climb id alternatives
          · obtain ⟨id, alternatives, rfl⟩ := hclimb
            rw [quietRun_climb]
            refine mirrored_climb_untraced (fun part hpart answer hanswer => ?_)
              (fun part hpart => hcall part (.child hpart)) halike
            exact Grammar.restarts_of_untraced hmost (Grammar.child_mem_nodes hnode hpart) hanswer
              hroom
          · have hclimb : ∀ id alternatives, parser ≠ .climb id alternatives :=
              fun id alternatives heq => hclimb ⟨id, alternatives, heq⟩
            have hle : fuel ≤ fuel * (most + 1) + parser.logs + room :=
              Nat.le_trans (Nat.le_mul_of_pos_right fuel (Nat.succ_pos most)) hroom
            rw [quietRun_succ hlogs hclimb]
            exact mirrored_step_untraced hlogs hclimb hcall hle rfl halike

end Runs

end Packrat
