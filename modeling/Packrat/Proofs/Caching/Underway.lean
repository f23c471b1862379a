import Packrat.Proofs.Caching.Stored

/-!
# Calls under way

A call that is under way has not returned with the room that the calls inside it have left, so that
the same call is not made again inside it.  This is why no lookup finds what a call under way has
stored in advance, and why the calls leave room for each other.
-/

namespace Packrat

variable {α : Type} {grammar : Grammar α} {scope later : Scope α}
  {tags tags' place fuel fuel' : Nat} {start inner engine engine' : Engine α}
  {around : List (Parser α × Cursor α)} {parser part : Parser α}
  {cursor cursor' here here' : Cursor α}

/-! ## Calls that have not returned -/

/-- From a state in which perhaps fewer guards were busy, the call does not return. -/
def Unfinished (rules : Rules α) (fuel : Nat) (engine : Engine α) (parser : Parser α)
    (cursor : Cursor α) : Prop :=
  ∃ earlier : Engine α, engine.Freer earlier ∧
    ∀ outcome, Engine.bareRun rules fuel parser cursor earlier ≠ .ok outcome

/-- No call that is still to be made inside another one is the same as that. -/
theorem Unfinished.not_ok (h : Unfinished grammar.rules fuel start parser cursor')
    (hdirect : grammar.Direct) (hflat : grammar.Flat) (hnode : parser ∈ grammar.nodes)
    (hbusy : start.AsBusy engine) (hlike : cursor.Like cursor')
    (outcome : Option (Output α) × Engine α) :
    Engine.bareRun grammar.rules fuel parser cursor engine ≠ .ok outcome := by
  intro hrun
  obtain ⟨earlier, hfreer, hnever⟩ := h
  obtain ⟨-, found, out, hreturns, -⟩ := bareRun_agrees hdirect hflat hnode (Nat.le_refl fuel)
    (hbusy.symm.freer.trans hfreer) hlike hrun
  exact hnever _ hreturns

/-- With less room and more guards busy, a call does not return any sooner. -/
theorem Unfinished.mono (h : Unfinished grammar.rules fuel' start parser cursor)
    (hdirect : grammar.Direct) (hflat : grammar.Flat) (hnode : parser ∈ grammar.nodes)
    (hle : fuel ≤ fuel') (hfreer : inner.Freer start) :
    Unfinished grammar.rules fuel inner parser cursor := by
  obtain ⟨earlier, hearlier, hnever⟩ := h
  refine ⟨earlier, hfreer.trans hearlier, fun outcome hrun => ?_⟩
  obtain ⟨-, found, out, hreturns, -⟩ := bareRun_agrees hdirect hflat hnode hle (.refl earlier)
    (.refl cursor) hrun
  exact hnever _ hreturns

/-- A call that has not returned in this state has not returned on a cursor that is alike. -/
theorem Unfinished.of_not_ok (hdirect : grammar.Direct) (hflat : grammar.Flat)
    (hnode : parser ∈ grammar.nodes) (hbusy : start.AsBusy engine) (hlike : cursor.Like cursor')
    (h : ∀ outcome, Engine.bareRun grammar.rules fuel parser cursor engine ≠ .ok outcome) :
    Unfinished grammar.rules fuel start parser cursor' := by
  refine ⟨engine, hbusy.freer, fun outcome hrun => ?_⟩
  obtain ⟨-, found, out, hreturns, -⟩ := bareRun_agrees hdirect hflat hnode (Nat.le_refl fuel)
    (.refl engine) hlike.symm hrun
  exact h _ hreturns

/-- A call that leads to a guard returns only if the guard is free. -/
theorem not_mem_active_of_bareRun_ok {rules : Rules α} {id : Nat} (hguard : parser.guard? = some id)
    {outcome : Option (Output α) × Engine α}
    (h : Engine.bareRun rules fuel parser cursor engine = .ok outcome) :
    cursor.offset ∉ engine.active.get id := by
  induction fuel generalizing parser with
  | zero => cases h
  | succ fuel ih =>
      cases parser with
      | guarded other part =>
          have hmemo : ¬ (Parser.guarded other part).isMemo := Bool.false_ne_true
          have hbusy := (Engine.of_bareRun_ok hmemo h).1
          obtain rfl := Option.some.inj hguard
          simpa [Parser.isBusy] using hbusy
      | memo other cache part =>
          have hpart : part.guard? = some id := hguard
          exact ih hpart h
      | _ => cases hguard

/-! ## What surrounds a call -/

/-- A call under way: a node on a cursor in scope, which has not returned. -/
structure Pending (grammar : Grammar α) (fuel : Nat) (scope : Scope α) (tags : Nat)
    (engine : Engine α) (parser : Parser α) (cursor : Cursor α) : Prop where
  node : parser ∈ grammar.nodes
  covers : ∃ place, scope.Covers tags place cursor
  unfinished : Unfinished grammar.rules fuel engine parser cursor

theorem Pending.mono (h : Pending grammar fuel' scope tags start parser cursor)
    (hdirect : grammar.Direct) (hflat : grammar.Flat) (hle : fuel ≤ fuel')
    (hextends : scope.Extends tags later) (htags : tags ≤ tags') (hfreer : inner.Freer start) :
    Pending grammar fuel later tags' inner parser cursor := by
  obtain ⟨place, hcovers⟩ := h.covers
  exact ⟨h.node, ⟨place, hcovers.wider hextends htags⟩,
    h.unfinished.mono hdirect hflat h.node hle hfreer⟩

/--
A call of a node on a cursor in scope, and the same call past the caches, on a cursor that is alike.
The calls that it is made inside of are under way, and they have left room for it.
-/
structure Placed (grammar : Grammar α) (fuel fuel' : Nat) (scope : Scope α) (tags place : Nat)
    (start : Engine α) (around : List (Parser α × Cursor α)) (parser : Parser α)
    (cursor cursor' : Cursor α) : Prop where
  node : parser ∈ grammar.nodes
  covers : scope.Covers tags place cursor'
  like : cursor.Like cursor'
  pending : ∀ call ∈ around, Pending grammar fuel scope tags start call.1 call.2
  room : LeavesRoom grammar fuel' start around parser cursor'

namespace Placed

theorem fewer (h : Placed grammar fuel fuel' scope tags place start around parser cursor cursor')
    (hdirect : grammar.Direct) (hflat : grammar.Flat) {smaller : Nat} (hle : smaller ≤ fuel) :
    Placed grammar smaller fuel' scope tags place start around parser cursor cursor' :=
  { h with
    pending := fun call hmem => (h.pending call hmem).mono hdirect hflat hle (.refl _ _)
      (Nat.le_refl _) (.refl start) }

/-- A call that will return is not under way yet. -/
theorem not_mem (h : Placed grammar fuel fuel' scope tags place start around parser cursor cursor')
    (hdirect : grammar.Direct) (hflat : grammar.Flat) (hbusy : start.AsBusy engine)
    {outcome : Option (Output α) × Engine α}
    (hrun : Engine.bareRun grammar.rules fuel parser cursor engine = .ok outcome) :
    (parser, cursor') ∉ around := fun hmem =>
  (h.pending _ hmem).unfinished.not_ok hdirect hflat h.node hbusy h.like outcome hrun

/-- Behind the call past the caches the same guards are busy as before it. -/
theorem asBusy (h : Placed grammar fuel fuel' scope tags place start around parser cursor cursor')
    (hdirect : grammar.Direct) (hflat : grammar.Flat) {found : Option (Output α)} {out : Engine α}
    (hrun : Engine.bareRun grammar.rules fuel parser cursor engine = .ok (found, out)) :
    engine.AsBusy out :=
  (bareRun_agrees hdirect hflat h.node (Nat.le_refl fuel) (.refl engine) h.like hrun).1

/-- It looks up no key under which a call under way has stored no match in advance. -/
theorem not_objects
    (h : Placed grammar fuel fuel' scope tags place start around parser cursor cursor')
    (hnumbered : grammar.Numbered) (hnew : (parser, cursor') ∉ around) :
    Sentinel.reentries.objects engine around parser cursor' = false := by
  cases parser with
  | memo id cache part =>
      simp only [Sentinel.reentries, Parser.memo?, Option.isSome_some, Bool.true_and,
        List.any_eq_false, Bool.and_eq_true, beq_iff_eq, not_and]
      rintro ⟨outer, other⟩ hmem ⟨hid, hoffset⟩ hkey
      obtain ⟨hnode, ⟨place', hcovers⟩, -⟩ := h.pending _ hmem
      cases outer with
      | memo id' cache' part' =>
          obtain rfl := Option.some.inj hid
          obtain ⟨rfl, rfl⟩ := hnumbered.memo hnode h.node
          obtain ⟨rfl, -⟩ := h.covers.unique hcovers hoffset hkey
          exact hnew hmem
      | _ => cases hid
  | _ => rfl

end Placed

/-! ## Calls inside a call -/

/-- Wherever a call past the caches returns, the same call with caches is watched and returns. -/
def Agrees (grammar : Grammar α) (alarm : Stop) (fuel : Nat) : Prop :=
  ∀ {fuel' tags place : Nat} {scope : Scope α} {start engine engine' : Engine α}
    {around : List (Parser α × Cursor α)} {parser : Parser α} {cursor cursor' : Cursor α},
    Placed grammar fuel fuel' scope tags place start around parser cursor cursor' →
      Engine.Keeping grammar scope tags around start engine engine' →
        Mirrors (Engine.bareRun grammar.rules fuel parser cursor) engine
          (Sentinel.reentries.run alarm grammar.rules fuel' around parser cursor')
          (Engine.run grammar.rules fuel' parser cursor') engine'
          (Bond.cached grammar scope tags around start cursor').Found

/-- A call that is made now: the calls inside it agree, and it is none of them. -/
structure Begins (grammar : Grammar α) (alarm : Stop) (fuel fuel' : Nat) (scope : Scope α)
    (tags place : Nat) (start : Engine α) (around : List (Parser α × Cursor α))
    (parser : Parser α) (cursor cursor' : Cursor α) : Prop where
  agrees : Agrees grammar alarm fuel
  placed : Placed grammar (fuel + 1) (fuel' + 1) scope tags place start around parser cursor cursor'
  new : (parser, cursor') ∉ around
  unfinished : Unfinished grammar.rules fuel start parser cursor'

namespace Begins

variable {alarm : Stop} {left right : Parser α} {middle : List (Parser α)} {combine : List α → α}

/-- For the calls inside it, the call is one that is under way. -/
theorem pending
    (h : Begins grammar alarm fuel fuel' scope tags place start around parser cursor cursor')
    (hdirect : grammar.Direct) (hflat : grammar.Flat) (hextends : scope.Extends tags later)
    (htags : tags ≤ tags') (hfreer : inner.Freer start) :
    ∀ call ∈ (parser, cursor') :: around,
      Pending grammar fuel later tags' inner call.1 call.2 := by
  intro call hmem
  rcases List.mem_cons.mp hmem with rfl | hmem
  · exact ⟨h.placed.node, ⟨place, h.placed.covers.wider hextends htags⟩,
      h.unfinished.mono hdirect hflat h.placed.node (Nat.le_refl fuel) hfreer⟩
  · exact (h.placed.pending call hmem).mono hdirect hflat (Nat.le_succ fuel) hextends htags hfreer

/-- A part that is called with no other operand agrees. -/
theorem mirrors_call
    (h : Begins grammar alarm fuel fuel' scope tags place start around parser cursor cursor')
    (hdirect : grammar.Direct) (hflat : grammar.Flat) (hcalls : grammar.rules.Calls parser part)
    (hfreer : inner.Freer start)
    (hspare : inner.spareGuards grammar part cursor'.offset ≤
      start.spareGuards grammar parser cursor'.offset)
    (hlike : cursor'.LikeBehind here here')
    (hkeeping : Engine.Keeping grammar scope tags ((parser, cursor') :: around) inner engine
      engine') :
    Mirrors (Engine.bareRun grammar.rules fuel part here) engine
      (Sentinel.reentries.run alarm grammar.rules fuel' ((parser, cursor') :: around) part here')
      (Engine.run grammar.rules fuel' part here') engine'
      (Bond.cached grammar scope tags ((parser, cursor') :: around) inner cursor').Found := by
  obtain ⟨place', hcovers⟩ := hlike.follows.covers h.placed.covers
  have hplaced : Placed grammar fuel fuel' scope tags place' inner ((parser, cursor') :: around)
      part here here' :=
    { node := Grammar.mem_nodes_of_calls h.placed.node hcalls
      covers := hcovers
      like := hlike.like
      pending := h.pending hdirect hflat (.refl _ _) (Nat.le_refl _) hfreer
      room := h.placed.room.next h.placed.node h.new hlike.follows hspare }
  apply (h.agrees hplaced hkeeping).mono
  rintro found out found' out' ⟨hkeeping', hsame⟩
  exact ⟨hkeeping', Cursor.LikeBehind.of_follows hlike.follows hsame⟩

/-- The left operand's parser of a fold agrees on a folded payload that it is offered. -/
theorem extends_left
    (h : Begins grammar alarm fuel fuel' scope tags place start around
      (.foldLeft left middle right combine) cursor cursor')
    (hdirect : grammar.Direct) (hflat : grammar.Flat) {id : Nat} (hguard : left.guard? = some id) :
    Engine.Extends (Bond.cached grammar scope tags
        ((.foldLeft left middle right combine, cursor') :: around) start cursor')
      (Engine.bareRun grammar.rules fuel)
      (Sentinel.reentries.run alarm grammar.rules fuel'
        ((.foldLeft left middle right combine, cursor') :: around))
      (Engine.run grammar.rules fuel') left := by
  intro here here' engine engine' value hlike hkeeping found out hrun
  obtain ⟨later, hextends, htags, hkeeping'⟩ := hkeeping.tagged (some value) here'.offset
  have hput := hextends.trans (later.extends_put engine'.nextTag (some value) here'.offset) htags
  have hreaches : later.start.Reaches here' := by
    rw [hextends.start_eq]
    exact h.placed.covers.reaches.trans hlike.follows.reaches
  have hfree : here'.offset ∉ start.active.get id := by
    have hmem := not_mem_active_of_bareRun_ok hguard hrun
    rw [hlike.like.offset_eq, ← hkeeping.busy id]
    exact hmem
  have hleft := Grammar.child_mem_nodes h.placed.node List.mem_cons_self
  have hplaced : Placed grammar fuel fuel'
      (later.put engine'.nextTag (some value) here'.offset) (engine'.nextTag + 1) here'.offset start
      ((.foldLeft left middle right combine, cursor') :: around) left
      (here.withLeft (.operand engine.nextTag (some value)))
      (here'.withLeft (.operand engine'.nextTag (some value))) :=
    { node := hleft
      covers := .put hreaches engine'.nextTag
      like := hlike.like.withLeft rfl
      pending := h.pending hdirect hflat hput (Nat.le_succ_of_le htags) (.refl start)
      room := h.placed.room.offered hleft rfl hguard hlike.follows.reaches hfree _ }
  apply (h.agrees hplaced hkeeping' found out hrun).mono
  rintro found' out' ⟨hkeeping'', hsame⟩
  refine ⟨hkeeping''.of_extends hput (Nat.le_succ_of_le htags), ?_⟩
  cases hsame with
  | none => exact .none
  | @some output output' hsame =>
      have hbehind : output.next.left.isEmpty = true →
          cursor'.LikeBehind output.next output'.next := by
        intro hempty
        have hleft := hsame.next.like.isEmpty_eq.trans hempty
        refine ⟨hsame.next.like, hlike.follows.reaches.trans ?_, Or.inr ?_⟩
        · exact hsame.next.follows.reaches.of_withLeft
        · rw [Left.isEmpty_iff.mp hleft]
          rfl
      exact .some ⟨hsame.payload_eq, hsame.next.like.isEmpty_eq, hbehind⟩

end Begins

end Packrat
