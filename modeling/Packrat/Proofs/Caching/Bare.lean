import Mathlib.Algebra.Order.BigOperators.Group.List
import Mathlib.Algebra.Order.Group.Nat
import Packrat.Proofs.Caching.Uncached
import Packrat.Proofs.Mirror.Combinators
import Packrat.Proofs.Sentinel
import Packrat.Proofs.Termination.Calls

/-!
# Runs past the caches

`Engine.bareRun` runs a parser and passes by all caches; it stops where a guard would reject a call.
So it returns the same from every state in which no more guards are busy, with any more room, and on
every cursor that differs in nothing but the tag of an operand.
-/

namespace Packrat

variable {α : Type}

/-! ## The run -/

namespace Engine

/-- Runs a parser past its caches.  A guard that is busy stops the run. -/
def bareRun (rules : Rules α) : Nat → Call α
  | 0, _, _ => throw .tooDeep
  | fuel + 1, .memo _ _ parser, cursor => bareRun rules fuel parser cursor
  | fuel + 1, parser, cursor => do
      if parser.isBusy (← get) cursor.offset then
        throw .tooDeep
      step rules fuel (bareRun rules fuel) parser cursor

variable {rules : Rules α} {fuel : Nat} {parser : Parser α} {cursor : Cursor α} {engine : Engine α}

theorem bareRun_succ (hmemo : ¬ parser.isMemo)
    (hbusy : parser.isBusy engine cursor.offset = false) :
    bareRun rules (fuel + 1) parser cursor engine =
      step rules fuel (bareRun rules fuel) parser cursor engine := by
  cases parser with
  | memo id cache part => exact absurd rfl hmemo
  | _ =>
      simp only [bareRun, Bind.bind, StateT.bind, get, getThe, MonadStateOf.get, StateT.get,
        Pure.pure, Except.pure, Except.bind, hbusy]
      rfl

theorem tracks_bareRun {allowed : Stop → Prop} {post : Option (Output α) → Engine α → Prop}
    (hmemo : ¬ parser.isMemo) (hbusy : parser.isBusy engine cursor.offset = false)
    (h : Tracks allowed (step rules fuel (bareRun rules fuel) parser cursor)
      (step rules fuel (bareRun rules fuel) parser cursor) engine post) :
    Tracks allowed (bareRun rules (fuel + 1) parser cursor)
      (bareRun rules (fuel + 1) parser cursor) engine post := by
  refine ⟨rfl, ?_⟩
  rw [bareRun_succ hmemo hbusy]
  exact h.ends

theorem of_bareRun_ok (hmemo : ¬ parser.isMemo) {result : Option (Output α)} {out : Engine α}
    (h : bareRun rules (fuel + 1) parser cursor engine = .ok (result, out)) :
    parser.isBusy engine cursor.offset = false ∧
      step rules fuel (bareRun rules fuel) parser cursor engine = .ok (result, out) := by
  cases hbusy : parser.isBusy engine cursor.offset with
  | false => exact ⟨rfl, bareRun_succ hmemo hbusy ▸ h⟩
  | true =>
      cases parser with
      | guarded id part =>
          simp only [bareRun, Bind.bind, StateT.bind, get, getThe, MonadStateOf.get, StateT.get,
            Pure.pure, Except.pure, Except.bind, hbusy] at h
          cases h
      | _ => cases hbusy

end Engine

/-! ## States with fewer busy guards -/

/-- Every guard that is busy in the second state is busy in the first one as well. -/
def Engine.Freer (engine engine' : Engine α) : Prop :=
  ∀ id, engine'.active.get id ⊆ engine.active.get id

/-- The same guards are busy in both states. -/
def Engine.AsBusy (engine engine' : Engine α) : Prop :=
  ∀ id, engine'.active.get id = engine.active.get id

namespace Engine

variable {start start' engine engine' engine'' : Engine α} {id offset : Nat} {parser : Parser α}

theorem Freer.refl (engine : Engine α) : engine.Freer engine := fun _ => List.Subset.refl _

theorem Freer.trans (h : engine.Freer engine') (h' : engine'.Freer engine'') :
    engine.Freer engine'' :=
  fun id => List.Subset.trans (h' id) (h id)

theorem Freer.entered (h : engine.Freer engine') (id offset : Nat) :
    (engine.entered id offset).Freer (engine'.entered id offset) := by
  intro other
  by_cases hid : id = other
  · subst hid
    simp only [Engine.active_entered_self]
    exact List.cons_subset_cons offset (h id)
  · simp only [Engine.active_entered_of_ne _ hid]
    exact h other

/-- A guard that is entered was perhaps free. -/
theorem freer_entered (engine : Engine α) (id offset : Nat) :
    (engine.entered id offset).Freer engine := by
  intro other
  by_cases hid : id = other
  · subst hid
    simp only [Engine.active_entered_self]
    exact List.subset_cons_self _ _
  · simp only [Engine.active_entered_of_ne _ hid]
    exact List.Subset.refl _

theorem freer_fresh (engine : Engine α) : engine.Freer fresh := by
  intro id
  rw [fresh, Table.get_empty]
  exact List.nil_subset _

theorem AsBusy.refl (engine : Engine α) : engine.AsBusy engine := fun _ => rfl

theorem AsBusy.freer (h : engine.AsBusy engine') : engine.Freer engine' :=
  fun id _ hmem => h id ▸ hmem

theorem AsBusy.symm (h : engine.AsBusy engine') : engine'.AsBusy engine := fun id => (h id).symm

theorem AsBusy.trans (h : engine.AsBusy engine') (h' : engine'.AsBusy engine'') :
    engine.AsBusy engine'' :=
  fun id => (h' id).trans (h id)

theorem AsBusy.entered (h : engine.AsBusy engine') (id offset : Nat) :
    (engine.entered id offset).AsBusy (engine'.entered id offset) := by
  intro other
  simp only [Engine.entered, Table.get_update, h id, h other]

theorem AsBusy.freed (h : (engine.entered id offset).AsBusy engine') :
    engine.AsBusy (engine'.freed id offset) :=
  Engine.active_freed h

theorem AsBusy.ended (h : engine.AsBusy engine') (cache : Nat) :
    engine.AsBusy (engine'.ended id cache) := by
  intro other
  rw [Engine.active_ended]
  exact h other

theorem isBusy_of_freer (h : engine.Freer engine') (hbusy : parser.isBusy engine offset = false) :
    parser.isBusy engine' offset = false := by
  cases parser with
  | guarded id part =>
      simp only [Parser.isBusy, List.contains_eq_mem, decide_eq_false_iff_not] at hbusy ⊢
      exact fun hmem => hbusy (h id hmem)
  | _ => rfl

end Engine

/-! ## Runs that agree -/

/-- Two runs on cursors that are alike, of which the second one may have fewer busy guards. -/
def Bond.bare (start start' : Engine α) : Bond α where
  like := Cursor.Like
  holds engine engine' := start.AsBusy engine ∧ start'.AsBusy engine'
  alike h := h
  withLeft h _ := h.withLeft rfl
  consume h hrest := h.consume hrest (h.rest_eq.trans hrest)

section Runs

variable {grammar : Grammar α} {start start' engine engine' : Engine α} {call call' : Call α}
  {cursor cursor' : Cursor α} {parser : Parser α} {fuel fuel' : Nat}

/-- A node that is not busy in the first state is not in the second one. -/
theorem Bond.not_busy (h : (Bond.bare start start').holds engine engine')
    (hfreer : start.Freer start') (hlike : cursor.Like cursor')
    (hbusy : parser.isBusy engine cursor.offset = false) :
    parser.isBusy engine' cursor'.offset = false := by
  rw [hlike.offset_eq]
  exact Engine.isBusy_of_freer (h.1.symm.freer.trans (hfreer.trans h.2.freer)) hbusy

/-- A guard that is free in the first run is free in the second one, and both enter it. -/
theorem mirrors_bare_guarded {id : Nat}
    (hpart : ∀ {start start' : Engine α}, start.Freer start' →
      (Bond.bare start start').Mirrored call call' call' parser)
    (hfreer : start.Freer start')
    (hbusy : (Parser.guarded id parser).isBusy engine cursor.offset = false)
    (hlike : cursor.Like cursor') (h : (Bond.bare start start').holds engine engine') :
    Mirrors (Engine.guardedMatch call id parser cursor) engine
      (Engine.guardedMatch call' id parser cursor') (Engine.guardedMatch call' id parser cursor')
      engine' (Bond.bare start start').Found := by
  have hfree : cursor.offset ∉ engine.active.get id := by
    simpa [Parser.isBusy] using hbusy
  have hfree' : cursor'.offset ∉ engine'.active.get id := by
    simpa [Parser.isBusy] using Bond.not_busy h hfreer hlike hbusy
  rw [hlike.offset_eq] at hfree'
  apply Engine.mirrors_guardedMatch hlike.offset_eq
  · intro _
    apply And.intro hfree'
    apply (hpart (hfreer.entered id cursor.offset) hlike
      ⟨h.1.entered id cursor.offset, h.2.entered id cursor.offset⟩).mono
    rintro found out found' out' ⟨hholds, hsame⟩
    exact ⟨⟨hholds.1.freed, hholds.2.freed⟩, hsame⟩
  · exact fun hmem => absurd hmem hfree

/-- A step past the caches is mirrored where its calls are, whatever guards they enter. -/
theorem mirrors_bare_step (hdirect : grammar.Direct) (hflat : grammar.Flat)
    (hnode : parser ∈ grammar.nodes) (hmemo : ¬ parser.isMemo)
    (hcalls : ∀ {start start' : Engine α}, start.Freer start' →
      ∀ part, grammar.rules.Calls parser part →
        (Bond.bare start start').Mirrored call call' call' part)
    (hfreer : start.Freer start') (hle : fuel ≤ fuel')
    (hbusy : parser.isBusy engine cursor.offset = false) (hlike : cursor.Like cursor')
    (h : (Bond.bare start start').holds engine engine') :
    Mirrors (Engine.step grammar.rules fuel call parser cursor) engine
      (Engine.step grammar.rules fuel' call' parser cursor')
      (Engine.step grammar.rules fuel' call' parser cursor') engine'
      (Bond.bare start start').Found := by
  by_cases hstateless : parser.Stateless
  · apply Engine.mirrors_step hstateless (hcalls hfreer) _ (.inl hle) (.inl hle) hlike h
    rintro left middle right combine rfl
    apply Engine.Extends.of_mirrored (hcalls hfreer left (.child List.mem_cons_self))
    -- Cursors that are alike may differ in the tags of what is to the left of them.
    exact fun _ hlike hholds => ⟨hlike.withLeft rfl, hholds⟩
  cases parser with
  | guarded id part =>
      exact mirrors_bare_guarded (fun hfreer => hcalls hfreer part (.child List.mem_cons_self))
        hfreer hbusy hlike h
  | climb id alternatives => exact absurd hnode (hflat id alternatives)
  | memo id cache part => exact absurd rfl hmemo
  | clearing id cache part =>
      apply Engine.mirrors_clearingMatch
      apply (hcalls hfreer part (.child List.mem_cons_self) hlike
        (show (Bond.bare start start').holds (engine.descended id) (engine'.descended id)
          from h)).mono
      rintro found out found' out' ⟨hholds, hsame⟩
      exact ⟨⟨hholds.1.ended cache, hholds.2.ended cache⟩, hsame⟩
  | logged name part =>
      apply Engine.mirrors_loggedMatch
      intro event event'
      apply (hcalls hfreer part (.child List.mem_cons_self) hlike
        (show (Bond.bare start start').holds (engine.recorded event) (engine'.recorded event')
          from h)).mono
      rintro found out found' out' ⟨hholds, hsame⟩ event event'
      exact ⟨hholds, hsame⟩
  | redirected move part => exact absurd hnode (hdirect move part)
  | _ => exact absurd trivial hstateless

/-- Where a run past the caches returns, so does every one that has more room and freer guards. -/
theorem mirrored_bareRun (hdirect : grammar.Direct) (hflat : grammar.Flat)
    (hnode : parser ∈ grammar.nodes) (hfreer : start.Freer start') (hle : fuel ≤ fuel') :
    (Bond.bare start start').Mirrored (Engine.bareRun grammar.rules fuel)
      (Engine.bareRun grammar.rules fuel') (Engine.bareRun grammar.rules fuel') parser := by
  induction fuel generalizing fuel' parser start start' with
  | zero =>
      intro cursor cursor' engine engine' _ _
      exact Mirrors.of_stop rfl
  | succ fuel ih =>
      cases fuel' with
      | zero => cases hle
      | succ fuel' =>
          have hle := Nat.le_of_succ_le_succ hle
          intro cursor cursor' engine engine' hlike h
          by_cases hmemo : parser.isMemo
          · obtain ⟨id, cache, part, rfl⟩ := Parser.exists_of_isMemo hmemo
            exact ih (Grammar.child_mem_nodes hnode List.mem_cons_self) hfreer hle hlike h
          · intro result out hrun
            obtain ⟨hbusy, hstep⟩ := Engine.of_bareRun_ok hmemo hrun
            apply Engine.tracks_bareRun hmemo (Bond.not_busy h hfreer hlike hbusy)
            exact mirrors_bare_step hdirect hflat hnode hmemo
              (fun hfreer part hpart => ih (Grammar.mem_nodes_of_calls hnode hpart) hfreer hle)
              hfreer hle hbusy hlike h result out hstep

end Runs

/-! ## What parsers find -/

/-- Two findings are the same but for the tags of operands. -/
abbrev SameFound : Option (Output α) → Option (Output α) → Prop :=
  Option.Rel (Output.Same Cursor.Like)

namespace SameFound

variable {found found' found'' : Option (Output α)}

theorem symm (h : SameFound found found') : SameFound found' found := by
  cases h with
  | none => exact .none
  | some hsame => exact .some ⟨hsame.payload_eq.symm, hsame.next.symm⟩

theorem trans (h : SameFound found found') (h' : SameFound found' found'') :
    SameFound found found'' := by
  cases h with
  | none => exact h'
  | some hsame =>
      cases h' with
      | some hsame' =>
          exact .some ⟨hsame'.payload_eq.trans hsame.payload_eq, hsame.next.trans hsame'.next⟩

end SameFound

/-- What a parser finds at a cursor, if no guard rejects a call on the way. -/
def Rules.Finds (rules : Rules α) (parser : Parser α) (cursor : Cursor α)
    (found : Option (Output α)) : Prop :=
  ∃ fuel out, Engine.bareRun rules fuel parser cursor .fresh = .ok (found, out)

section Findings

variable {grammar : Grammar α} {engine engine' out : Engine α} {cursor cursor' : Cursor α}
  {parser : Parser α} {fuel fuel' : Nat} {found found' : Option (Output α)}

theorem bareRun_agrees (hdirect : grammar.Direct) (hflat : grammar.Flat)
    (hnode : parser ∈ grammar.nodes) (hle : fuel ≤ fuel') (hfreer : engine.Freer engine')
    (hlike : cursor.Like cursor')
    (h : Engine.bareRun grammar.rules fuel parser cursor engine = .ok (found, out)) :
    engine.AsBusy out ∧ ∃ found' out',
      Engine.bareRun grammar.rules fuel' parser cursor' engine' = .ok (found', out') ∧
        SameFound found found' := by
  have hmirrors := mirrored_bareRun hdirect hflat hnode hfreer hle hlike
    (show (Bond.bare engine engine').holds engine engine' from ⟨.refl _, .refl _⟩) found out h
  obtain ⟨found', out', hrun, hholds, hsame⟩ := hmirrors.yields
  exact ⟨hholds.1, found', out', hrun, hsame⟩

/-- What a run past the caches returns is what the parser finds. -/
theorem exists_finds (hdirect : grammar.Direct) (hflat : grammar.Flat)
    (hnode : parser ∈ grammar.nodes) (hlike : cursor.Like cursor')
    (h : Engine.bareRun grammar.rules fuel parser cursor engine = .ok (found, out)) :
    ∃ found', grammar.rules.Finds parser cursor' found' ∧ SameFound found found' := by
  obtain ⟨-, found', out', hrun, hsame⟩ := bareRun_agrees hdirect hflat hnode (Nat.le_refl fuel)
    engine.freer_fresh hlike h
  exact ⟨found', ⟨fuel, out', hrun⟩, hsame⟩

/-- What a parser finds is determined, up to the tags of operands. -/
theorem Rules.Finds.same (h : grammar.rules.Finds parser cursor found) (hdirect : grammar.Direct)
    (hflat : grammar.Flat) (hnode : parser ∈ grammar.nodes)
    (h' : grammar.rules.Finds parser cursor found') : SameFound found found' := by
  obtain ⟨fuel, out, hrun⟩ := h
  obtain ⟨fuel', out', hrun'⟩ := h'
  obtain ⟨-, common, out, hcommon, hsame⟩ := bareRun_agrees hdirect hflat hnode
    (Nat.le_max_left fuel fuel') (.refl _) (.refl cursor) hrun
  obtain ⟨-, common', out', hcommon', hsame'⟩ := bareRun_agrees hdirect hflat hnode
    (Nat.le_max_right fuel fuel') (.refl _) (.refl cursor) hrun'
  rw [hcommon] at hcommon'
  cases hcommon'
  exact hsame.trans hsame'.symm

end Findings

/-! ## Runs of the grammar without its caches -/

section Uncached

variable {grammar : Grammar α} {start start' engine out : Engine α} {cursor : Cursor α}
  {parser : Parser α} {fuel fuel' size : Nat} {alarm : Stop} {found : Option (Output α)}
  {around : List (Parser α × Cursor α)}

theorem Parser.isBusy_uncached (hmemo : ¬ parser.isMemo) (offset : Nat) :
    parser.uncached.isBusy engine offset = parser.isBusy engine offset := by
  cases parser with
  | memo id cache part => exact absurd rfl hmemo
  | _ => rfl

/--
Where a grammar without its caches returns and no guard rejects a call, the grammar itself returns
past its caches.  It needs more room, as it passes by all caches around a node.
-/
theorem mirrored_uncached (hdirect : grammar.Direct) (hflat : grammar.Flat)
    (hsize : ∀ node ∈ grammar.nodes, node.size ≤ size) (hnode : parser ∈ grammar.nodes)
    (hfreer : start.Freer start') (hle : fuel * (size + 1) + parser.size ≤ fuel') :
    (Bond.bare start start').Mirrored
      (fun part => Sentinel.rejections.run alarm grammar.rules.uncached fuel around part.uncached)
      (Engine.bareRun grammar.rules fuel') (Engine.bareRun grammar.rules fuel') parser := by
  induction fuel generalizing fuel' parser start start' around with
  | zero =>
      intro cursor cursor' engine engine' _ _
      exact Mirrors.of_stop rfl
  | succ fuel ih =>
      -- behind the caches around the node there is a step
      induction hparser : parser.size using Nat.strongRecOn generalizing fuel' parser with
      | ind _ ihsize =>
          intro cursor cursor' engine engine' hlike h
          cases fuel' with
          | zero =>
              have hpos := parser.size_pos
              omega
          | succ fuel' =>
              by_cases hmemo : parser.isMemo
              · obtain ⟨id, cache, part, rfl⟩ := Parser.exists_of_isMemo hmemo
                have hlt : part.size < (Parser.memo id cache part).size := Nat.lt_succ_self _
                exact ihsize part.size (hparser ▸ hlt)
                  (Grammar.child_mem_nodes hnode List.mem_cons_self) (by omega) rfl hlike h
              · intro result out hrun
                obtain ⟨hobjects, hstep⟩ := Sentinel.of_run_ok hrun
                have hbusy : parser.isBusy engine cursor.offset = false :=
                  (Parser.isBusy_uncached hmemo _).symm.trans hobjects
                rw [Engine.step_uncached hmemo fun id alternatives heq =>
                  hflat id alternatives (heq ▸ hnode)] at hstep
                rw [Nat.succ_mul] at hle
                have hfuel : fuel ≤ fuel * (size + 1) := Nat.le_mul_of_pos_right _ (Nat.succ_pos _)
                have hcalls : ∀ {start start' : Engine α}, start.Freer start' →
                    ∀ part, grammar.rules.Calls parser part →
                      (Bond.bare start start').Mirrored
                        (fun part => Sentinel.rejections.run alarm grammar.rules.uncached fuel
                          ((parser.uncached, cursor) :: around) part.uncached)
                        (Engine.bareRun grammar.rules fuel') (Engine.bareRun grammar.rules fuel')
                        part := by
                  intro start start' hfreer part hpart
                  have hmem := Grammar.mem_nodes_of_calls hnode hpart
                  have hpart := hsize part hmem
                  have hroom : fuel * (size + 1) + part.size ≤ fuel' := by omega
                  exact @ih _ _ _ _ _ hmem hfreer hroom
                have hroom : fuel ≤ fuel' := by omega
                apply Engine.tracks_bareRun hmemo (Bond.not_busy h hfreer hlike hbusy)
                exact mirrors_bare_step hdirect hflat hnode hmemo hcalls hfreer hroom hbusy hlike h
                  result out hstep

/-- If a grammar without its caches returns and no guard rejects a call, so it finds that. -/
theorem exists_bareRun (hdirect : grammar.Direct) (hflat : grammar.Flat)
    (hnode : parser ∈ grammar.nodes)
    (h : Sentinel.rejections.run alarm grammar.uncached.rules fuel around parser.uncached cursor
      engine = .ok (found, out)) :
    ∃ fuel' found' out', Engine.bareRun grammar.rules fuel' parser cursor engine =
      .ok (found', out') ∧ SameFound found found' := by
  have hsize : ∀ node ∈ grammar.nodes, node.size ≤ (grammar.nodes.map Parser.size).sum :=
    fun node hmem => List.le_sum_of_mem (List.mem_map_of_mem hmem)
  obtain ⟨found', out', hrun, -, hsame⟩ := (mirrored_uncached hdirect hflat hsize hnode (.refl _)
    (Nat.le_refl _) (.refl cursor) (show (Bond.bare engine engine).holds engine engine from
      ⟨.refl _, .refl _⟩) found out h).yields
  exact ⟨_, found', out', hrun, hsame⟩

end Uncached

end Packrat
