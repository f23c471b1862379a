import Packrat.Proofs.Termination.Calls

/-!
# Steps that end

One step of a call that is under way ends, since all calls that it makes do.  The guards, the
alternatives under way and the nesting of clearing nodes are then as they were.
-/

namespace Packrat

variable {α : Type} {grammar : Grammar α} {lasting : Nat → Prop} {scope : Scope α}
  {tags place place' bound fuel fuel' : Nat} {parser part : Parser α} {cursor next : Cursor α}
  {engine engine' : Engine α}

/-- The left operand of every fold is guarded. -/
def Grammar.GuardsFolds (grammar : Grammar α) : Prop :=
  ∀ ⦃left middle right combine⦄, Parser.foldLeft left middle right combine ∈ grammar.nodes →
    ∃ id parser, left = .guarded id parser

/-! ## Guards -/

theorem Poised.entered {id : Nat}
    (h : Poised grammar lasting scope tags place (.guarded id part) cursor engine) :
    Poised grammar lasting scope tags place part cursor (engine.entered id cursor.offset) where
  reached := h.reached.child List.mem_cons_self
  covers := h.covers
  holds := h.holds.entered id cursor.offset
  steady := Engine.Steady.mono h.steady fun _ => Nat.le_refl _
  settled hsettles := Engine.Settled.congr
    (h.settled ((Rules.settles_iff_of_some rfl).mpr hsettles)) fun _ => rfl

/-- A guard that can be entered leads to its parser, and is free again when that returns. -/
theorem Poised.tracks_guarded {id : Nat}
    (h : Poised grammar lasting scope tags place (.guarded id part) cursor engine)
    (hends : EndsWithin grammar lasting bound) (hfuel : bound ≤ fuel) (hfuel' : bound ≤ fuel')
    (hroom : cursor.offset ∉ engine.active.get id →
      HasRoom grammar lasting bound part cursor (engine.entered id cursor.offset)) :
    Tracks grammar.Awaits (Engine.guardedMatch (Engine.run grammar.rules fuel) id part cursor)
      (Engine.guardedMatch (Engine.run grammar.rules fuel') id part cursor) engine
      fun _ engine' => engine.Restored lasting engine' :=
  Engine.tracks_guardedMatch
    (fun hfree => (hends hfuel hfuel' h.entered (hroom hfree)).mono fun _ _ hleaves =>
      hleaves.1.1.freed)
    fun _ => .refl engine

namespace Underway

/-! ## Folds -/

/-- The folded payload comes into scope with a new tag. -/
theorem poised_new (value : Option α)
    (h : Underway grammar lasting bound fuel fuel' scope tags place parser cursor engine)
    (hbare : grammar.rules.wrapped? parser = none) (hreached : grammar.Reached part)
    (hreaches : cursor.Reaches next)
      (hresumes : Resumes grammar lasting scope tags engine engine') :
    ∃ scope tags, Poised grammar lasting scope tags next.offset part
      (next.withLeft (.operand engine'.nextTag value)) engine'.tagged := by
  obtain ⟨later, hextends, -, hsound⟩ := hresumes.2
  refine ⟨later.put engine'.nextTag value next.offset, engine'.tagged.nextTag, hreached, ?_, ?_, ?_,
    ?_⟩
  · exact .put (hextends.start_eq ▸ h.poised.covers.reaches.trans hreaches) engine'.nextTag
  · exact .of_sound (hsound.tagged value next.offset)
  · exact Engine.Steady.mono h.poised.steady fun id => Nat.le_of_eq (hresumes.1.depth id).symm
  · exact fun _ => Engine.Settled.congr (h.settled hbare) hresumes.1.climbing

/--
The folded payload is offered to the guarded left operand: further on, or else where the guard has
to be free.
-/
theorem extension {id : Nat} {value : Option α}
    (h : Underway grammar lasting bound fuel fuel' scope tags place parser cursor engine)
    (hbare : grammar.rules.wrapped? parser = none) (hguard : grammar.Reached (.guarded id part))
    (hreaches : cursor.Reaches next)
      (hresumes : Resumes grammar lasting scope tags engine engine') :
    Tracks grammar.Awaits
      (Engine.run grammar.rules fuel (.guarded id part)
        (next.withLeft (.operand engine'.nextTag value)))
      (Engine.run grammar.rules fuel' (.guarded id part)
        (next.withLeft (.operand engine'.nextTag value))) engine'.tagged
      fun _ engine'' => engine.Restored lasting engine'' := by
  obtain ⟨scope', tags', hposed⟩ := h.poised_new value hbare hguard hreaches hresumes
  have hback := fun engine'' (hrestored : engine'.tagged.Restored lasting engine'') =>
    hresumes.1.tagged.trans hrestored
  rcases Nat.lt_or_eq_of_le hreaches.offset_le with hlt | heq
  · refine (h.ends bound (Nat.le_refl _) h.le_fuel h.le_fuel' hposed
      (h.room.ahead hguard hreaches.source_eq hlt)).mono fun _ _ hleaves => hback _ hleaves.1.1
  · have hpos := h.room.nodes_lt
    obtain ⟨bound, rfl⟩ := Nat.exists_eq_succ_of_ne_zero (n := bound) (by omega)
    obtain ⟨fuel, rfl⟩ := Nat.exists_eq_succ_of_ne_zero (n := fuel) (by have := h.le_fuel; omega)
    obtain ⟨fuel', rfl⟩ := Nat.exists_eq_succ_of_ne_zero (n := fuel') (by have := h.le_fuel'; omega)
    refine (hposed.tracks_guarded (h.ends bound (Nat.le_succ _)) (Nat.le_of_succ_le_succ h.le_fuel)
      (Nat.le_of_succ_le_succ h.le_fuel') fun hfree => ?_).mono fun _ _ => hback _
    exact h.room.renewed hguard hfree hresumes.1.active hreaches.source_eq heq.symm

theorem foldStep {left right : Parser α} {middle : List (Parser α)} {combine : List α → α}
    (hguards : grammar.GuardsFolds)
    (h : Underway grammar lasting bound fuel fuel' scope tags place
      (.foldLeft left middle right combine) cursor engine) :
    Tracks grammar.Awaits
      (Engine.foldStep (Engine.run grammar.rules fuel) left middle right combine cursor)
      (Engine.foldStep (Engine.run grammar.rules fuel') left middle right combine cursor) engine
      fun _ engine' => engine.Restored lasting engine' := by
  obtain ⟨number, inner, rfl⟩ := hguards h.poised.reached.mem_nodes
  have hguard := h.poised.reached.child List.mem_cons_self
  have hstart : Resumes grammar lasting scope tags engine engine := .refl h.poised.holds
  have hleft : Tracks grammar.Awaits
      (Engine.leftOperand (Engine.run grammar.rules fuel) (.guarded number inner) cursor)
      (Engine.leftOperand (Engine.run grammar.rules fuel') (.guarded number inner) cursor) engine
      (Leaves (Resumes grammar lasting scope tags engine) fun first =>
        Passes grammar.rules cursor [.guarded number inner] first.next ∧ first.next.left =
          .empty) := by
    refine Engine.tracks_leftOperand (fun hempty => ?_) (fun tag value hleft => ?_)
      fun _ => Leaves.none hstart
    · refine (h.at_cursor ⟨.part (List.nil_append _).symm fun _ => nofun, id⟩
        (fun _ => h.settled rfl) hstart).mono fun found engine' hleaves =>
          hleaves.mono id fun first hgood => ?_
      exact ⟨(Passes.refl cursor).snoc hgood, hgood.1.left.elim
        (fun hsame => hsame.trans hempty) id⟩
    · refine Leaves.some hstart ⟨⟨.withoutLeft cursor, fun _ => Or.inr ⟨?_, rfl⟩⟩, rfl⟩
      rw [hleft]
      rfl
  refine Engine.tracks_foldStep (hleft.mono ?_)
  rintro (_ | first) engine₁ ⟨hresumes, hfirst⟩
  · exact hresumes.1
  obtain ⟨hpasses, hempty⟩ := hfirst first rfl
  refine (h.inSequence trivial rfl hpasses hresumes).mono ?_
  rintro (_ | ⟨payloads, behind⟩) engine₂ ⟨hresumes, hmiddle⟩
  · exact hresumes.1
  obtain ⟨hpasses, hleads⟩ := hmiddle payloads behind rfl
  have hempty : behind.left = .empty := hleads.left.elim (fun hsame => hsame.trans hempty) id
  have halike : behind.Alike (behind.withLeft .rightOperand) := .of_plain (by rw [hempty]; rfl) rfl
  have hcovers : scope.Covers tags behind.offset (behind.withLeft .rightOperand) :=
    .of_plain ((h.poised.covers.reaches.trans hpasses.leads.reaches).withLeft .rightOperand) rfl
  refine Engine.tracks_rightOperand
    ((h.row trivial rfl hpasses halike rfl hresumes hcovers).mono ?_)
  rintro (_ | last) engine₃ ⟨hresumes, hlast⟩
  · exact hresumes.1
  exact h.extension rfl hguard
    (hpasses.leads.reaches.trans (hlast last rfl).1.dropped.reaches) hresumes

/-! ## Repetition -/

theorem repetition {atLeast : Nat} {atMost : Option Nat} {collect : List α → α}
    (h : Underway grammar lasting bound fuel fuel' scope tags place
      (.repeated part atLeast atMost collect) cursor engine) :
    Tracks grammar.Awaits
      (Engine.repetition (Engine.run grammar.rules fuel) fuel part atLeast atMost collect cursor)
      (Engine.repetition (Engine.run grammar.rules fuel') fuel' part atLeast atMost collect cursor)
      engine (Leaves (Resumes grammar lasting scope tags engine) fun _ => True) := by
  have hfalls : grammar.Falls lasting (.repeated part atLeast atMost collect) part :=
    ⟨.of_mem List.mem_cons_self id, id⟩
  have hlt := Nat.lt_of_succ_lt_succ h.room.ahead_lt
  have hroom : Engine.Roomy grammar.Awaits cursor fuel fuel' :=
    Or.inr ⟨Nat.lt_of_lt_of_le hlt h.le_fuel, Nat.lt_of_lt_of_le hlt h.le_fuel'⟩
  refine Engine.tracks_repetition
    (fun _ _ next => cursor.Leads next ∧ (next = cursor ∨ cursor.offset < next.offset))
    (fun _ _ _ => True) (fun _ _ _ _ => trivial) ?_ hroom ⟨.refl cursor, Or.inl rfl⟩
    (.refl h.poised.holds) fun _ _ _ _ _ => trivial
  rintro payloads count next engine' ⟨hleads, hplace⟩ hresumes
  have hcall : Tracks grammar.Awaits (Engine.run grammar.rules fuel part next)
      (Engine.run grammar.rules fuel' part next) engine'
      (Leaves (Resumes grammar lasting scope tags engine)
        (Goodness.progress grammar.rules (handed place cursor next) part next)) := by
    have hcovers := h.poised.covers.handed hleads
    rcases hplace with rfl | hlt
    · exact h.falls hfalls (fun _ => h.settled rfl) hresumes hcovers rfl (.refl next)
    · exact h.ahead (hfalls.1.reached h.poised.reached) (fun _ => h.settled rfl)
        hresumes hcovers hlt
  refine hcall.mono fun found engine'' hleaves => hleaves.mono id fun output hgood => ?_
  refine ⟨hgood.1.reaches.source_eq, fun hmoved => ⟨hleads.trans hgood.1, Or.inr ?_⟩, trivial⟩
  exact Nat.lt_of_le_of_lt hleads.reaches.offset_le hmoved

/-! ## Precedence -/

/-- The alternatives under way are joined by one that wraps no circle. -/
theorem settled_pushed {id index : Nat} {alternatives : List (Parser α)}
    (hnumbered : grammar.Numbered) (h : engine.Settled grammar)
    (hclimb : .climb id alternatives ∈ grammar.nodes) (hget : alternatives[index]? = some part)
    (hsettles : grammar.rules.Settles part) : (engine.pushed id index).Settled grammar := by
  intro id' alternatives' index' alternative hclimb' hmem hget'
  by_cases hid : id = id'
  · subst hid
    obtain rfl := hnumbered.climb hclimb hclimb'
    rw [Engine.climbing_pushed_self] at hmem
    rcases List.mem_cons.mp hmem with rfl | hmem
    · obtain rfl := Option.some.inj (hget.symm.trans hget')
      exact hsettles
    · exact h hclimb hmem hget'
  · rw [Engine.climbing_pushed_of_ne _ hid] at hmem
    exact h hclimb' hmem hget'

/-- An alternative is tried at the place of the node. -/
theorem attempt {id index : Nat} {alternatives : List (Parser α)} (hnumbered : grammar.Numbered)
    (h : Underway grammar lasting bound fuel fuel' scope tags place (.climb id alternatives)
      cursor engine)
    (hget : alternatives[index]? = some part) (hcovers : scope.Covers tags place' next)
    (hoffset : next.offset = cursor.offset) (halike : cursor.Alike next)
    (hresumes : Resumes grammar lasting scope tags engine engine') :
    Tracks grammar.Awaits (Engine.attempt (Engine.run grammar.rules fuel) id index part next)
      (Engine.attempt (Engine.run grammar.rules fuel') id index part next) engine'
      (Leaves (Resumes grammar lasting scope tags engine) fun _ => True) := by
  have hfalls : grammar.Falls lasting (.climb id alternatives) part :=
    ⟨.of_mem (List.mem_of_getElem? hget) fun h => h, fun h => h⟩
  have hreached := hfalls.1.reached h.poised.reached
  have hsettled := Engine.Settled.congr (h.settled rfl) hresumes.1.climbing
  have hpoised : Poised grammar lasting scope tags place' part next (engine'.pushed id index) :=
    ⟨hreached, hcovers, hresumes.2.pushed id index,
      Engine.Steady.mono h.poised.steady fun id => Nat.le_of_eq (hresumes.1.depth id).symm,
      settled_pushed hnumbered hsettled h.poised.reached.mem_nodes hget⟩
  refine Engine.tracks_attempt ((h.ends bound (Nat.le_refl _) h.le_fuel h.le_fuel' hpoised
    (h.room.falls h.checked hfalls hreached hresumes.1.active hresumes.1.retains
      (h.source_eq hcovers)
      hoffset halike)).mono fun found engine'' hleaves => ?_)
  exact hleaves.mono (fun hinv => hresumes.trans ⟨hinv.1.popped, hinv.2.popped id⟩)
    fun _ _ => trivial

/-- The search for a group ends alike for the alternatives under way. -/
theorem restarts {id active : Nat} {alternatives : List (Parser α)}
    (h : Underway grammar lasting bound fuel fuel' scope tags place (.climb id alternatives)
      cursor engine)
    (hactive : (engine.climbing.get id).head? = some active)
    (hget : alternatives[active]? = some part) :
    Engine.restarts grammar.rules fuel part = Engine.restarts grammar.rules fuel' part ∧
      ∀ stop, Engine.restarts grammar.rules fuel' part = .error stop → grammar.Awaits stop := by
  have hsettles := h.settled rfl h.poised.reached.mem_nodes (List.mem_of_mem_head? hactive) hget
  have hnode : part ∈ grammar.nodes :=
    Grammar.child_mem_nodes h.poised.reached.mem_nodes (List.mem_of_getElem? hget)
  have hlt := h.room.nodes_lt
  have hfuel : grammar.nodes.length ≤ fuel := by have := h.le_fuel; omega
  have hfuel' : grammar.nodes.length ≤ fuel' := by have := h.le_fuel'; omega
  obtain ⟨hsame, hroom⟩ := Grammar.restarts_eq_of_settles hsettles hnode hfuel hfuel'
  refine ⟨hsame, fun stop hstop => ?_⟩
  rcases Engine.restarts_error hstop with rfl | hrule
  · exact absurd hstop hroom
  · exact hrule

theorem climbMatch {id : Nat} {alternatives : List (Parser α)} (hnumbered : grammar.Numbered)
    (h : Underway grammar lasting bound fuel fuel' scope tags place (.climb id alternatives)
      cursor engine) :
    Tracks grammar.Awaits
      (Engine.climbMatch (Engine.run grammar.rules fuel) (Engine.restarts grammar.rules fuel) id
        alternatives cursor)
      (Engine.climbMatch (Engine.run grammar.rules fuel') (Engine.restarts grammar.rules fuel') id
        alternatives cursor) engine
      (Leaves (Resumes grammar lasting scope tags engine) fun _ => True) := by
  refine Engine.tracks_climbMatch (fun active alternative hactive hget => h.restarts hactive hget)
    (fun hplain engine' hresumes index alternative hget _ => ?_)
    (fun active alternative _ hget _ => ?_) (.refl h.poised.holds)
  · exact h.attempt hnumbered hget (.of_plain (h.poised.covers.reaches.withLeft .empty) rfl) rfl
      (.of_plain hplain rfl) hresumes
  · exact h.attempt hnumbered hget h.poised.covers rfl (.refl cursor) (.refl h.poised.holds)

/-! ## Caches -/

theorem memoMatch {id cache : Nat}
    (h : Underway grammar lasting bound fuel fuel' scope tags place (.memo id cache part)
      cursor engine) :
    Tracks grammar.Awaits (Engine.memoMatch (Engine.run grammar.rules fuel) id cache part cursor)
      (Engine.memoMatch (Engine.run grammar.rules fuel') id cache part cursor) engine
      fun _ engine' => engine.Restored lasting engine' := by
  have hreached := h.poised.reached.child List.mem_cons_self
  refine Engine.tracks_memoMatch rfl (fun result _ => .counted cache _) fun hmissing => ?_
  have hrestored : engine.Restored lasting ((engine.counted cache
      ⟨id, cursor.offset, cursor.left.key⟩).stored cache
        ⟨id, cursor.offset, cursor.left.key⟩ none) :=
    (Engine.Restored.counted cache _).stored cache _ none
  have hresumes : Resumes grammar lasting scope tags engine _ :=
    ⟨hrestored, (h.poised.holds.counted cache _).stored h.poised.covers fun _ _ _ => nofun⟩
  by_cases hlasting : lasting cache
  · refine (h.ends bound (Nat.le_refl _) h.le_fuel h.le_fuel'
      (h.called hreached (h.settled_behind rfl) hresumes h.poised.covers)
      (h.room.stored h.poised.reached hlasting hmissing)).mono fun found engine' hleaves => ?_
    exact (hrestored.trans hleaves.1.1).stored cache _ found
  · refine (h.at_cursor ⟨.of_mem List.mem_cons_self fun h => h, hlasting⟩ (h.settled_behind rfl)
      hresumes).mono fun found engine' hleaves => ?_
    exact hleaves.1.1.stored cache _ found

theorem clearingMatch {id cache : Nat}
    (h : Underway grammar lasting bound fuel fuel' scope tags place (.clearing id cache part)
      cursor engine) :
    Tracks grammar.Awaits (Engine.clearingMatch (Engine.run grammar.rules fuel) id
      cache part cursor)
      (Engine.clearingMatch (Engine.run grammar.rules fuel') id cache part cursor) engine
      fun _ engine' => engine.Restored lasting engine' := by
  have hreached := h.poised.reached.child List.mem_cons_self
  have hfalls : grammar.Falls lasting (.clearing id cache part) part :=
    ⟨.of_mem List.mem_cons_self fun h => h, fun h => h⟩
  have hpoised : Poised grammar lasting scope tags place part cursor (engine.descended id) :=
    ⟨hreached, h.poised.covers, h.poised.holds.descended id,
      Engine.Steady.mono h.poised.steady (engine.depth_le_descended id), h.settled_behind rfl⟩
  refine Engine.tracks_clearingMatch ((h.ends bound (Nat.le_refl _) h.le_fuel h.le_fuel' hpoised
    (h.room.falls h.checked hfalls hreached (fun _ => rfl) (fun _ _ _ hnone => hnone) rfl rfl
      (.refl cursor))).mono fun found engine' hleaves => ?_)
  exact hleaves.1.1.ended (h.poised.steady h.poised.reached)

/-! ## All steps -/

theorem sequence {parts : List (Parser α)} {combine : List α → α}
    (h : Underway grammar lasting bound fuel fuel' scope tags place (.sequence parts combine)
      cursor engine) :
    Tracks grammar.Awaits
      (Engine.step grammar.rules fuel (Engine.run grammar.rules fuel) (.sequence parts combine)
        cursor)
      (Engine.step grammar.rules fuel' (Engine.run grammar.rules fuel') (.sequence parts combine)
        cursor) engine
      fun _ engine' => engine.Restored lasting engine' := by
  have hstart : Resumes grammar lasting scope tags engine engine := .refl h.poised.holds
  apply Tracks.bind
  apply (h.inSequence trivial (List.append_nil _).symm (.refl cursor) hstart).mono
  rintro (_ | ⟨payloads, next⟩) engine' ⟨hresumes, -⟩
  · exact Tracks.pure hresumes.1
  · exact Tracks.pure hresumes.1

/-- A node that wraps its part, called where the node stands. -/
theorem wrapped {engine' : Engine α}
    (h : Underway grammar lasting bound fuel fuel' scope tags place parser cursor engine)
    (hfalls : grammar.Falls lasting parser part)
    (hwrapped : grammar.rules.wrapped? parser = some part)
    (hresumes : Resumes grammar lasting scope tags engine engine') :
    Tracks grammar.Awaits (Engine.run grammar.rules fuel part cursor)
      (Engine.run grammar.rules fuel' part cursor) engine'
      (Leaves (Resumes grammar lasting scope tags engine) fun _ => True) :=
  (h.at_cursor hfalls (h.settled_behind hwrapped) hresumes).mono fun _ _ hleaves =>
    hleaves.mono (fun hinv => hinv) fun _ _ => trivial

theorem logged {name : String}
    (h : Underway grammar lasting bound fuel fuel' scope tags place (.logged name part) cursor
      engine) :
    Tracks grammar.Awaits
      (Engine.loggedMatch (Engine.run grammar.rules fuel) name part cursor)
      (Engine.loggedMatch (Engine.run grammar.rules fuel') name part cursor) engine
      fun _ engine' => engine.Restored lasting engine' := by
  have hstart : Resumes grammar lasting scope tags engine engine := .refl h.poised.holds
  have hrecorded : ∀ event, Resumes grammar lasting scope tags engine (engine.recorded event) :=
    fun event => ⟨hstart.1.recorded event, hstart.2.recorded event⟩
  apply Engine.tracks_loggedMatch
  apply (h.wrapped ⟨.of_mem List.mem_cons_self id, id⟩ rfl (hrecorded _)).mono
  exact fun _ _ hleaves => hleaves.1.1.recorded _

theorem call {rule : Nat}
    (h : Underway grammar lasting bound fuel fuel' scope tags place (.call rule) cursor engine) :
    Tracks grammar.Awaits
      (Engine.step grammar.rules fuel (Engine.run grammar.rules fuel) (.call rule) cursor)
      (Engine.step grammar.rules fuel' (Engine.run grammar.rules fuel') (.call rule) cursor) engine
      fun _ engine' => engine.Restored lasting engine' := by
  have hstart : Resumes grammar lasting scope tags engine engine := .refl h.poised.holds
  apply Engine.tracks_call
  · intro body hbody
    have hwrapped : grammar.rules.wrapped? (.call rule) = some body := by
      rw [Rules.wrapped?, hbody]
    exact (h.wrapped ⟨.body hbody, id⟩ hwrapped hstart).restored
  · exact fun _ => .refl engine
  · exact fun hpending => ⟨rule, rfl, hpending⟩

theorem step (hdirect : grammar.Direct) (hguards : grammar.GuardsFolds)
    (hnumbered : grammar.Numbered)
    (h : Underway grammar lasting bound fuel fuel' scope tags place parser cursor engine) :
    Tracks grammar.Awaits
      (Engine.step grammar.rules fuel (Engine.run grammar.rules fuel) parser cursor)
      (Engine.step grammar.rules fuel' (Engine.run grammar.rules fuel') parser cursor) engine
      fun _ engine' => engine.Restored lasting engine' := by
  have hstart : Resumes grammar lasting scope tags engine engine := .refl h.poised.holds
  -- the parts of a node that wraps nothing, called where the node stands
  have hparts : grammar.rules.wrapped? parser = none → ¬ parser.InRow → ¬ parser.Checks lasting →
      ∀ part ∈ parser.children, ∀ engine', Resumes grammar lasting scope tags engine engine' →
        Tracks grammar.Awaits (Engine.run grammar.rules fuel part cursor)
          (Engine.run grammar.rules fuel' part cursor) engine'
          (Leaves (Resumes grammar lasting scope tags engine) fun _ => True) := by
    intro hbare hrow hunchecked part hpart engine' hresumes
    exact (h.at_cursor ⟨.of_mem hpart hrow, hunchecked⟩ (fun _ => h.settled hbare) hresumes).mono
      fun _ _ hleaves => hleaves.mono (fun hinv => hinv) fun _ _ => trivial
  cases parser with
  | satisfy accepts payload => exact Tracks.pure (.refl engine)
  | literal chars payload => exact Tracks.pure (.refl engine)
  | endOfInput payload => exact Tracks.pure (.refl engine)
  | except parser excluded =>
      have hparts := List.forall_mem_cons.mp (hparts rfl id id)
      exact (Engine.tracks_unlessMatch hparts.2 hparts.1 hstart).restored
  | firstOf alternatives =>
      exact (Engine.tracks_firstMatch (hparts rfl id id) hstart).restored
  | longestOf alternatives =>
      exact (Engine.tracks_longestMatch (hparts rfl id id) (fun _ _ => trivial)
        hstart).restored
  | sequence parts combine => exact h.sequence
  | foldLeft left middle right combine => exact h.foldStep hguards
  | repeated parser atLeast atMost collect => exact h.repetition.restored
  | optional parser wrap =>
      exact Tracks.restored (Engine.tracks_optional
        (hparts rfl id id parser List.mem_cons_self engine hstart) trivial)
  | convert parser f =>
      have hpart := h.wrapped ⟨.of_mem List.mem_cons_self id, id⟩ rfl hstart
      exact Tracks.restored (Engine.tracks_convert (hpart.mono
        fun _ _ hleaves => hleaves.mono (fun hinv => hinv) fun _ _ _ _ => trivial))
  | guarded id parser =>
      exact h.poised.tracks_guarded (h.ends bound (Nat.le_refl _)) h.le_fuel h.le_fuel'
        fun hfree => h.room.entered h.poised.reached hfree
  | climb id alternatives => exact (h.climbMatch hnumbered).restored
  | nested parser =>
      exact (hparts rfl id id parser List.mem_cons_self engine hstart).restored
  | memo id cache parser => exact h.memoMatch
  | clearing id cache parser => exact h.clearingMatch
  | logged name parser => exact h.logged
  | call rule => exact h.call
  | redirected move parser => exact absurd h.poised.reached.mem_nodes (hdirect move parser)

end Underway

end Packrat
