import Packrat.Proofs.Termination.Steps

/-!
# Every parse ends

If every circle of calls at one place is checked, a parse returns: the interpreter never runs out of
the depth that `Engine.depthBound` gives it, and more of it changes nothing.  A cached parser checks
a circle if no node clears its cache before the parse is over.
-/

namespace Packrat

variable {α : Type}

/-! ## Caches that last -/

/-- The parser that a node does nothing but wrap. -/
def Rules.inner? (rules : Rules α) : Parser α → Option (Parser α)
  | .nested parser => some parser
  | parser => rules.wrapped? parser

/-- The node, what it does nothing but wrap, what that does nothing but wrap, and so on. -/
def Rules.spine (rules : Rules α) : Nat → Parser α → List (Parser α)
  | 0, _ => []
  | count + 1, parser =>
      match rules.inner? parser with
      | some part => parser :: rules.spine count part
      | none => [parser]

/--
Whatever clears the cache stands around the whole grammar, so that it does so when all is over.
-/
def Grammar.Lasting (grammar : Grammar α) (cache : Nat) : Prop :=
  ∀ ⦃id parser⦄, grammar.Reached (.clearing id cache parser) →
    .clearing id cache parser ∈ grammar.rules.spine grammar.nodes.length grammar.entry

section Ends

variable {grammar : Grammar α} {lasting : Nat → Prop} {scope : Scope α}
  {tags place bound count fuel fuel' : Nat} {parser part : Parser α} {cursor : Cursor α}
  {engine engine' : Engine α}

/-! ## Calls in the midst of a parse -/

/-- All poised calls end that fit a bound, by induction on the bound. -/
theorem ends_within (hdirect : grammar.Direct) (hguards : grammar.GuardsFolds)
    (hnumbered : grammar.Numbered) (hchecked : grammar.Checked lasting) (bound : Nat) :
    EndsWithin grammar lasting bound := by
  induction bound using Nat.strongRecOn with
  | ind bound ih =>
      intro fuel fuel' tags place scope parser cursor engine hfuel hfuel' hpoised hroom
      have hpos := hroom.nodes_lt
      obtain ⟨bound, rfl⟩ := Nat.exists_eq_succ_of_ne_zero (n := bound) (by omega)
      obtain ⟨fuel, rfl⟩ := Nat.exists_eq_succ_of_ne_zero (n := fuel) (by omega)
      obtain ⟨fuel', rfl⟩ := Nat.exists_eq_succ_of_ne_zero (n := fuel') (by omega)
      have hstep := Underway.step hdirect hguards hnumbered
        ⟨hchecked, fun smaller hle => ih smaller (Nat.lt_succ_of_le hle),
          Nat.le_of_succ_le_succ hfuel, Nat.le_of_succ_le_succ hfuel', hpoised, hroom⟩
      have hcalls : GoodCalls grammar (.progress grammar.rules) (fun _ => True) scope.start
          (Supervisor.idle.run .tooDeep grammar.rules (fuel' + 1))
          (Supervisor.idle.run .tooDeep grammar.rules (fuel' + 1)) :=
        (progress_contract hnumbered).tracks_run hdirect (fun _ _ _ _ _ _ => rfl)
          (fun _ _ _ _ _ => trivial) trivial (fun _ _ => trivial) (fuel' + 1)
      have hgood := hcalls rfl hpoised.reached.mem_nodes hpoised.covers hpoised.holds
      rw [Supervisor.run_idle] at hgood
      refine (Tracks.and hstep hgood).mono fun found engine' hboth => ?_
      exact ⟨⟨hboth.1, hboth.2.1⟩, hboth.2.2⟩

/-! ## The way in -/

/--
A call on the way in: no precedence node is under way, and whatever clears a lasting cache has been
entered or is still to come on the way.
-/
structure Approach (grammar : Grammar α) (lasting : Nat → Prop) (scope : Scope α)
    (tags place count : Nat) (parser : Parser α) (cursor : Cursor α)
      (engine : Engine α) : Prop where
  reached : grammar.Reached parser
  covers : scope.Covers tags place cursor
  holds : engine.Holds grammar (.progress grammar.rules) scope tags
  idle : ∀ id, engine.climbing.get id = []
  clears : ∀ ⦃id cache node⦄, grammar.Reached (.clearing id cache node) → lasting cache →
    0 < engine.depth.get id ∨ .clearing id cache node ∈ grammar.rules.spine count parser

namespace Approach

theorem inner_reached (hreached : grammar.Reached parser)
    (hinner : grammar.rules.inner? parser = some part) : grammar.Reached part := by
  cases parser with
  | call rule =>
      simp only [Rules.inner?, Rules.wrapped?] at hinner
      cases hfind : grammar.rules.find rule with
      | missing => rw [hfind] at hinner; cases hinner
      | pending => rw [hfind] at hinner; cases hinner
      | body parser => rw [hfind] at hinner; cases hinner; exact hreached.body hfind
  | convert parser f => cases hinner; exact hreached.child List.mem_cons_self
  | guarded id parser => cases hinner; exact hreached.child List.mem_cons_self
  | nested parser => cases hinner; exact hreached.child List.mem_cons_self
  | memo id cache parser => cases hinner; exact hreached.child List.mem_cons_self
  | clearing id cache parser => cases hinner; exact hreached.child List.mem_cons_self
  | logged name parser => cases hinner; exact hreached.child List.mem_cons_self
  | _ => cases hinner

/-- Where the way in is over, whatever clears a lasting cache has been entered. -/
theorem poised (h : Approach grammar lasting scope tags place count parser cursor engine)
    (hend : count = 0 ∨ grammar.rules.inner? parser = none) :
    Poised grammar lasting scope tags place parser cursor engine := by
  refine ⟨h.reached, h.covers, h.holds, fun id cache node hclearing hlasting => ?_,
    fun _ id alternatives index alternative _ hindex => ?_⟩
  · refine (h.clears hclearing hlasting).resolve_right fun hmem => ?_
    cases count with
    | zero => cases hmem
    | succ count =>
        have hinner := hend.resolve_left (Nat.succ_ne_zero count)
        rw [Rules.spine, hinner] at hmem
        obtain rfl := List.mem_singleton.mp hmem
        cases hinner
  · rw [h.idle] at hindex
    cases hindex

/-- One wrapper further in. -/
theorem behind (h : Approach grammar lasting scope tags place (count + 1) parser cursor engine)
    (hinner : grammar.rules.inner? parser = some part)
    (hholds : engine'.Holds grammar (.progress grammar.rules) scope tags)
    (hclimbing : engine'.climbing = engine.climbing)
    (hdepth : ∀ id, engine.depth.get id ≤ engine'.depth.get id)
    (hentered : ∀ id cache, parser = .clearing id cache part → 0 < engine'.depth.get id) :
    Approach grammar lasting scope tags place count part cursor engine' where
  reached := inner_reached h.reached hinner
  covers := h.covers
  holds := hholds
  idle id := by rw [hclimbing, h.idle]
  clears id cache node hclearing hlasting := by
    rcases h.clears hclearing hlasting with hpos | hmem
    · exact Or.inl (Nat.lt_of_lt_of_le hpos (hdepth id))
    · rw [Rules.spine, hinner] at hmem
      rcases List.mem_cons.mp hmem with rfl | hmem
      · obtain rfl := Option.some.inj hinner
        exact Or.inl (hentered id cache rfl)
      · exact Or.inr hmem

/-- Where the way in is over, a call ends if there is room for it. -/
theorem tracks_over (hdirect : grammar.Direct) (hguards : grammar.GuardsFolds)
    (hnumbered : grammar.Numbered) (hchecked : grammar.Checked lasting)
    (hroom : HasRoom grammar lasting bound parser cursor engine) (hfuel : bound ≤ fuel)
    (hfuel' : bound ≤ fuel')
    (h : Approach grammar lasting scope tags place count parser cursor engine)
    (hend : count = 0 ∨ grammar.rules.inner? parser = none) :
    Tracks grammar.Awaits (Engine.run grammar.rules fuel parser cursor)
      (Engine.run grammar.rules fuel' parser cursor) engine fun _ _ => True := by
  have hends := ends_within hdirect hguards hnumbered hchecked bound hfuel hfuel' (h.poised hend)
    hroom
  exact hends.mono fun _ _ _ => trivial

/-- A wrapper on the way in ends if what it wraps does, wherever that is called from it. -/
theorem tracks_wrapper
    (h : Approach grammar lasting scope tags place (count + 1) parser cursor engine)
    (hinner : grammar.rules.inner? parser = some part)
    (hcall : ∀ engine', Approach grammar lasting scope tags place count part cursor engine' →
      Tracks grammar.Awaits (Engine.run grammar.rules fuel part cursor)
        (Engine.run grammar.rules fuel' part cursor) engine' fun _ _ => True) :
    Tracks grammar.Awaits (Engine.run grammar.rules (fuel + 1) parser cursor)
      (Engine.run grammar.rules (fuel' + 1) parser cursor) engine fun _ _ => True := by
  -- a wrapper that clears no cache leaves the depths as they are
  have hplain : ∀ engine', engine'.Holds grammar (.progress grammar.rules) scope tags →
      engine'.climbing = engine.climbing → engine'.depth = engine.depth →
        (∀ id cache, parser ≠ .clearing id cache part) →
          Tracks grammar.Awaits (Engine.run grammar.rules fuel part cursor)
            (Engine.run grammar.rules fuel' part cursor) engine' fun _ _ => True := by
    intro engine' hholds hclimbing hdepth hne
    refine hcall engine' (h.behind hinner hholds hclimbing (fun id => ?_) fun id cache heq => ?_)
    · rw [hdepth]
    · exact absurd heq (hne id cache)
  cases parser with
  | call rule =>
      refine Engine.tracks_call (fun parser hbody => ?_) (fun _ => trivial)
        fun hpending => ⟨rule, rfl, hpending⟩
      simp only [Rules.inner?, Rules.wrapped?, hbody] at hinner
      obtain rfl := Option.some.inj hinner
      exact hplain engine h.holds rfl rfl (by rintro _ _ ⟨⟩)
  | convert parser f =>
      obtain rfl := Option.some.inj hinner
      apply Tracks.bind
      apply (hplain engine h.holds rfl rfl (by rintro _ _ ⟨⟩)).mono
      intro found _ _
      cases found <;> exact Tracks.pure trivial
  | guarded id parser =>
      obtain rfl := Option.some.inj hinner
      apply Engine.tracks_guardedMatch
      · exact fun _ => hplain _ (h.holds.entered id _) rfl rfl (by rintro _ _ ⟨⟩)
      · exact fun _ => trivial
  | nested parser =>
      obtain rfl := Option.some.inj hinner
      exact hplain engine h.holds rfl rfl (by rintro _ _ ⟨⟩)
  | memo id cache parser =>
      obtain rfl := Option.some.inj hinner
      apply Engine.tracks_memoMatch rfl (fun _ _ => trivial)
      intro _
      apply hplain _ ((h.holds.counted cache _).stored h.covers (by rintro _ _ _ ⟨⟩)) rfl rfl
      rintro _ _ ⟨⟩
  | clearing id cache parser =>
      obtain rfl := Option.some.inj hinner
      apply Engine.tracks_clearingMatch
      apply hcall
      apply h.behind rfl (h.holds.descended id) rfl
      · exact engine.depth_le_descended id
      · rintro _ _ ⟨⟩
        exact engine.depth_descended_pos id
  | logged name parser =>
      obtain rfl := Option.some.inj hinner
      exact Engine.tracks_loggedMatch (hplain _ (h.holds.recorded _) rfl rfl (by rintro _ _ ⟨⟩))
  | _ => cases hinner

/-- A call on the way in ends, by induction on what is left of the way. -/
theorem tracks_run (hdirect : grammar.Direct) (hguards : grammar.GuardsFolds)
    (hnumbered : grammar.Numbered) (hchecked : grammar.Checked lasting)
    (hroom : ∀ {parser : Parser α} {engine : Engine α}, grammar.Reached parser →
      HasRoom grammar lasting bound parser cursor engine)
    (hfuel : bound + count ≤ fuel) (hfuel' : bound + count ≤ fuel')
    (h : Approach grammar lasting scope tags place count parser cursor engine) :
    Tracks grammar.Awaits (Engine.run grammar.rules fuel parser cursor)
      (Engine.run grammar.rules fuel' parser cursor) engine fun _ _ => True := by
  induction count generalizing fuel fuel' parser engine with
  | zero =>
      exact h.tracks_over hdirect hguards hnumbered hchecked (hroom h.reached) hfuel hfuel'
        (Or.inl rfl)
  | succ count ih =>
      cases hinner : grammar.rules.inner? parser with
      | none =>
          exact h.tracks_over hdirect hguards hnumbered hchecked (hroom h.reached)
            (Nat.le_of_add_right_le hfuel) (Nat.le_of_add_right_le hfuel') (Or.inr hinner)
      | some part =>
          obtain ⟨fuel, rfl⟩ := Nat.exists_eq_succ_of_ne_zero (n := fuel) (by omega)
          obtain ⟨fuel', rfl⟩ := Nat.exists_eq_succ_of_ne_zero (n := fuel') (by omega)
          apply h.tracks_wrapper hinner
          intro engine' h'
          exact ih (Nat.le_of_succ_le_succ hfuel) (Nat.le_of_succ_le_succ hfuel') h'

end Approach

/-! ## Whole parses -/

theorem depthBound_eq (bytes : Nat) :
    Engine.depthBound grammar.rules grammar.entry bytes =
      (grammar.nodes.length + 3) * (grammar.nodes.length + 3) * (grammar.nodes.length + 3) *
        (bytes + 1) := by
  rw [Engine.depthBound, Grammar.length_nodes, Nat.add_comm grammar.entry.size]

/-- With at least the depth for the text, a run from the entry on ends, and always alike. -/
theorem tracks_entry (hdirect : grammar.Direct) (hguards : grammar.GuardsFolds)
    (hnumbered : grammar.Numbered) (hchecked : grammar.Checked grammar.Lasting)
    (hblank : engine.Blank) (hidle : ∀ id, engine.climbing.get id = [])
    (htag : ∀ tag value, cursor.left = .operand tag value → tag < engine.nextTag)
    (hfuel : Engine.depthBound grammar.rules grammar.entry cursor.source.size ≤ fuel)
    (hfuel' : Engine.depthBound grammar.rules grammar.entry cursor.source.size ≤ fuel') :
    Tracks grammar.Awaits (Engine.run grammar.rules fuel grammar.entry cursor)
      (Engine.run grammar.rules fuel' grammar.entry cursor) engine fun _ _ => True := by
  rw [depthBound_eq] at hfuel hfuel'
  have hahead : (grammar.nodes.length + 3) * (grammar.nodes.length + 3) *
      (grammar.nodes.length + 3) * (cursor.source.size - cursor.offset + 1) ≤
        (grammar.nodes.length + 3) * (grammar.nodes.length + 3) * (grammar.nodes.length + 3) *
          (cursor.source.size + 1) :=
    Nat.mul_le_mul_left _ (Nat.succ_le_succ (Nat.sub_le _ _))
  have hnodes := @nodes_le_depth grammar.nodes.length cursor.source.size
  generalize (grammar.nodes.length + 3) * (grammar.nodes.length + 3) *
    (grammar.nodes.length + 3) * (cursor.source.size + 1) = depth at hfuel hfuel' hahead hnodes
  have hbound : depth - grammar.nodes.length + grammar.nodes.length = depth := Nat.sub_add_cancel
    hnodes
  have happroach : Approach grammar grammar.Lasting (Scope.initial cursor) engine.nextTag
    cursor.offset
      grammar.nodes.length grammar.entry cursor engine :=
    ⟨.entry, .initial htag, .of_sound (.of_blank hblank), hidle,
      fun _ _ _ hclearing hlasting => Or.inr (hlasting hclearing)⟩
  exact happroach.tracks_run hdirect hguards hnumbered hchecked
    (fun hreached => .of_reached hreached (hbound.symm ▸ hahead)) (hbound.symm ▸ hfuel)
    (hbound.symm ▸ hfuel')

/--
If every circle of calls at one place is checked, a parse ends at every place of every text,
whatever stands to the left: it returns, or it waits for a rule that is yet to be made.  Where calls
may be nested deeper than `Engine.depthBound` says, nothing changes.
-/
theorem parse_ends (hdirect : grammar.Direct) (hguards : grammar.GuardsFolds)
    (hnumbered : grammar.Numbered) (hchecked : grammar.Checked grammar.Lasting)
    (hblank : engine.Blank) (hidle : ∀ id, engine.climbing.get id = [])
    (htag : ∀ tag value, cursor.left = .operand tag value → tag < engine.nextTag) :
    ((∃ result engine', grammar.entry.parse grammar.rules cursor engine = .ok (result, engine')) ∨
      ∃ rule, grammar.rules.find rule = .pending ∧
        grammar.entry.parse grammar.rules cursor engine = .error (.pending rule)) ∧
      ∀ fuel, Engine.depthBound grammar.rules grammar.entry cursor.source.size ≤ fuel →
        Engine.run grammar.rules fuel grammar.entry cursor
            { engine with horizon := max engine.horizon cursor.source.size } =
          grammar.entry.parse grammar.rules cursor engine := by
  have hlarge : Engine.depthBound grammar.rules grammar.entry cursor.source.size ≤
      Engine.depthBound grammar.rules grammar.entry (max engine.horizon cursor.source.size) :=
    Nat.mul_le_mul_left _ (Nat.succ_le_succ (Nat.le_max_right _ _))
  have hall : ∀ fuel, Engine.depthBound grammar.rules grammar.entry cursor.source.size ≤ fuel →
      Tracks grammar.Awaits (Engine.run grammar.rules fuel grammar.entry cursor)
        (Engine.run grammar.rules (Engine.depthBound grammar.rules grammar.entry
          (max engine.horizon cursor.source.size)) grammar.entry cursor)
        { engine with horizon := max engine.horizon cursor.source.size } fun _ _ => True :=
    fun _ hfuel => tracks_entry hdirect hguards hnumbered hchecked hblank hidle htag hfuel hlarge
  refine ⟨?_, fun fuel hfuel => (hall fuel hfuel).same⟩
  have hends := (Engine.tracks_parse (hall _ hlarge)).ends
  cases hparse : grammar.entry.parse grammar.rules cursor engine with
  | ok pair => exact Or.inl ⟨pair.1, pair.2, rfl⟩
  | error stop =>
      rw [hparse] at hends
      obtain ⟨rule, rfl, hpending⟩ := hends
      exact Or.inr ⟨rule, hpending, rfl⟩

end Ends

/-! ## A circle that a cache checks -/

/-- A rank that falls with every unchecked call at one place rules out circles. -/
theorem Grammar.checked_of_rank {grammar : Grammar α} {lasting : Nat → Prop} (rank : Parser α → Nat)
    (h : ∀ parser ∈ grammar.nodes, ∀ part, grammar.Falls lasting parser part →
      rank part < rank parser) : grammar.Checked lasting := by
  intro node hreached hcircle
  have hall : ∀ part, Relation.TransGen (grammar.Falls lasting) node part →
      grammar.Reached part ∧ rank part < rank node := by
    intro part hpath
    induction hpath with
    | single hfalls => exact ⟨hfalls.1.reached hreached, h _ hreached.mem_nodes _ hfalls⟩
    | tail _ hfalls ih =>
        exact ⟨hfalls.1.reached ih.1, Nat.lt_trans (h _ ih.1.mem_nodes _ hfalls) ih.2⟩
  exact Nat.lt_irrefl _ (hall node hcircle).2

/--
Sums and differences of any number of letters each, perhaps of none.  Sums call themselves in front
of anything else, which only their cache keeps from going on for ever.
-/
def looseSums : Grammar String where
  rules := .ofBodies [.memo 0 0 (.firstOf
    [.foldedLeft 0 (.call 0) [.literal ['-'] "-"] (.call 0) String.join,
      .sequence [.call 0, .literal ['+'] "+", .call 0] String.join,
      .many (.optional (.literal ['a'] "a") fun payload => payload.getD "") String.join])]
  entry := .clearing 0 0 (.call 0)

namespace looseSums

/-- What the nodes are like that remember something, or whose form is asked for. -/
def Shaped : Parser String → Prop
  | .clearing id cache parser => .clearing id cache parser = looseSums.entry
  | .memo id cache parser => cache = 0 ∧ looseSums.rules.find 0 = .body (.memo id cache parser)
  | .foldLeft left _ _ _ => left = .guarded 0 (.call 0)
  | .climb _ _ | .redirected _ _ => False
  | _ => True

theorem shaped : ∀ parser ∈ looseSums.nodes, Shaped parser := by
  simp [Grammar.nodes, looseSums, Rules.nodes, Rules.ofBodies, Definition.nodes, Parser.nodes,
    Parser.nodesAll, Parser.foldedLeft, Parser.many, Shaped, Rules.find]

theorem direct : looseSums.Direct := fun _ _ hmem => shaped _ hmem

theorem guardsFolds : looseSums.GuardsFolds := fun _ _ _ _ hmem => ⟨0, .call 0, shaped _ hmem⟩

theorem numbered : looseSums.Numbered where
  memo hmemo hmemo' := by
    obtain ⟨hcache, hbody⟩ := shaped _ hmemo
    obtain ⟨hcache', hbody'⟩ := shaped _ hmemo'
    have hsame := Parser.memo.inj (Definition.body.inj (hbody.symm.trans hbody'))
    exact ⟨hsame.2.1, hsame.2.2⟩
  climb hclimb := (shaped _ hclimb).elim

theorem lasting : looseSums.Lasting 0 := by
  intro id parser hreached
  rw [shaped _ hreached.mem_nodes, Grammar.nodes, List.length_append]
  exact List.mem_cons_self

/-- How many calls at one place can follow a call of the node before the cache is asked. -/
def rank : Parser String → Nat
  | .memo _ _ _ | .literal _ _ => 0
  | .call _ => 1
  | .guarded _ _ | .optional _ _ | .clearing _ _ _ => 2
  | .firstOf _ => 4
  | _ => 3

/-- Whether the rank falls to all parts, unless the cache is asked. -/
def falls : Parser String → Bool
  | .memo _ _ _ => true
  | parser => parser.children.all fun part => rank part < rank parser

theorem checked : looseSums.Checked looseSums.Lasting := by
  have hall : looseSums.nodes.all falls = true := by decide
  refine Grammar.checked_of_rank rank fun parser hmem part ⟨hslips, hunchecked⟩ => ?_
  have hfalls := List.all_eq_true.mp hall parser hmem
  cases hslips with
  | @body rule _ hfind =>
      rw [looseSums, Rules.find_ofBodies] at hfind
      cases rule with
      | zero => obtain rfl := Definition.body.inj hfind; exact Nat.zero_lt_one
      | succ rule => cases hfind
  | @part _ _ before after hchildren _ =>
      have hpart : part ∈ parser.children := by
        rw [hchildren]
        exact List.mem_append_right _ List.mem_cons_self
      cases parser with
      | memo id cache parser =>
          obtain ⟨rfl, -⟩ := shaped _ hmem
          exact absurd lasting hunchecked
      | _ => exact of_decide_eq_true (List.all_eq_true.mp hfalls part hpart)

end looseSums

/-- A sum that lacks operands is parsed to an end, although sums call themselves at once. -/
theorem looseSums_ends :
    (∃ result engine', looseSums.entry.parse looseSums.rules (.start (.ofString "+a-")) .fresh =
      .ok (result, engine')) ∧
      ∀ fuel, Engine.depthBound looseSums.rules looseSums.entry 3 ≤ fuel →
        Engine.run looseSums.rules fuel looseSums.entry (.start (.ofString "+a-"))
            { (.fresh : Engine String) with horizon := 3 } =
          looseSums.entry.parse looseSums.rules (.start (.ofString "+a-")) .fresh := by
  have hidle : ∀ id, (.fresh : Engine String).climbing.get id = [] := fun _ => Table.get_empty _
  have hstart : ∀ tag value, (Cursor.start (.ofString "+a-") : Cursor String).left =
      .operand tag value → tag < (.fresh : Engine String).nextTag := fun _ _ hleft => by cases hleft
  obtain ⟨hends, hsame⟩ := parse_ends looseSums.direct looseSums.guardsFolds looseSums.numbered
    looseSums.checked Engine.blank_fresh hidle hstart
  refine ⟨hends.resolve_right fun ⟨rule, hpending, _⟩ => ?_, hsame⟩
  rw [looseSums, Rules.find_ofBodies] at hpending
  cases rule with
  | zero => cases hpending
  | succ rule => cases hpending

end Packrat
