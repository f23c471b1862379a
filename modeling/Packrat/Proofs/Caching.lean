import Packrat.Proofs.Caching.Underway

/-!
# Caches change no answers

Where a grammar without its caches returns and no guard rejects a call, the grammar itself gives the
same answer, whatever its caches are wrapped around, and no lookup finds what a call that is still
under way has stored in advance.
-/

namespace Packrat

variable {α : Type} {grammar : Grammar α} {scope : Scope α} {alarm : Stop}
  {tags place fuel fuel' : Nat} {start engine engine' : Engine α}
  {around : List (Parser α × Cursor α)} {parser part : Parser α} {cursor cursor' : Cursor α}

/-! ## One call -/

/-- If the left operands of folds are guarded, so they are without their caches. -/
theorem Grammar.GuardsFolds.uncached (h : grammar.GuardsFolds) : grammar.uncached.GuardsFolds := by
  intro left middle right combine hmem
  obtain ⟨node, hnode, hmemo, hsame⟩ := Grammar.exists_of_mem_nodes_uncached hmem
  cases node with
  | foldLeft left' middle' right' combine' =>
      obtain ⟨id, part, rfl⟩ := h hnode
      obtain ⟨rfl, -⟩ := Parser.foldLeft.inj hsame
      exact ⟨id, part.uncached, rfl⟩
  | memo id cache part => exact absurd rfl hmemo
  | _ => cases hsame

theorem exists_guard_of_fold {left right : Parser α} {middle : List (Parser α)}
    {combine : List α → α} (hguards : grammar.uncached.GuardsFolds)
    (hnode : Parser.foldLeft left middle right combine ∈ grammar.nodes) :
    ∃ id, left.guard? = some id := by
  obtain ⟨id, part, hleft⟩ := hguards (Grammar.uncached_mem_nodes hnode)
  exact ⟨id, Parser.guard?_of_uncached hleft⟩

/-- When a call returns that stores nothing, it is no longer under way. -/
theorem Bond.Found.of_cons {out out' : Engine α} {found found' : Option (Output α)}
    (h : (Bond.cached grammar scope tags ((parser, cursor') :: around) start cursor').Found found
      out found' out')
    (hmemo : ¬ parser.isMemo) :
    (Bond.cached grammar scope tags around start cursor').Found found out found' out' :=
  ⟨h.1.of_cons hmemo, h.2⟩

namespace Begins

/-- What a call finds with caches is what it finds past them. -/
abbrev Mirrored (grammar : Grammar α) (alarm : Stop) (fuel fuel' : Nat) (scope : Scope α)
    (tags : Nat) (start : Engine α) (around : List (Parser α × Cursor α)) (parser : Parser α)
    (cursor cursor' : Cursor α) (engine engine' : Engine α) : Prop :=
  Mirrors (Engine.step grammar.rules fuel (Engine.bareRun grammar.rules fuel) parser cursor) engine
    (Engine.step grammar.rules fuel' (Sentinel.reentries.run alarm grammar.rules fuel'
      ((parser, cursor') :: around)) parser cursor')
    (Engine.step grammar.rules fuel' (Engine.run grammar.rules fuel') parser cursor') engine'
    (Bond.cached grammar scope tags around start cursor').Found

theorem likeBehind
    (h : Begins grammar alarm fuel fuel' scope tags place start around parser cursor cursor') :
    cursor'.LikeBehind cursor cursor' :=
  ⟨h.placed.like, .refl cursor'⟩

theorem mirrors_stateless
    (h : Begins grammar alarm fuel fuel' scope tags place start around parser cursor cursor')
    (hdirect : grammar.Direct) (hflat : grammar.Flat) (hguards : grammar.uncached.GuardsFolds)
    (hstateless : parser.Stateless)
    (hkeeping : Engine.Keeping grammar scope tags ((parser, cursor') :: around) start engine
      engine') :
    Mirrored grammar alarm fuel fuel' scope tags start around parser cursor cursor' engine
      engine' := by
  have hmemo : ¬ parser.isMemo := by
    cases parser with
    | memo id cache part => exact hstateless.elim
    | _ => exact Bool.false_ne_true
  have hguard : parser.guard? = none := by
    cases parser with
    | guarded id part => exact hstateless.elim
    | memo id cache part => exact hstateless.elim
    | _ => rfl
  have hturns : Engine.Turns (Bond.cached grammar scope tags ((parser, cursor') :: around) start
      cursor') cursor fuel fuel' := by
    refine Or.inr ⟨?_, fun hnext => ?_⟩
    · rw [← h.placed.like.source_eq, ← h.placed.like.offset_eq]
      exact h.placed.room.ahead_lt
    · rw [← hnext.like.source_eq, hnext.follows.reaches.source_eq, h.placed.like.source_eq]
  apply (Engine.mirrors_step hstateless _ _ hturns hturns h.likeBehind hkeeping).mono
  · exact fun found out found' out' hfound => hfound.of_cons hmemo
  · intro part hpart here here' engine engine'
    exact h.mirrors_call hdirect hflat hpart (.refl start) (spareGuards_le hguard)
  · rintro left middle right combine rfl
    obtain ⟨id, hleads⟩ := exists_guard_of_fold hguards h.placed.node
    exact h.extends_left hdirect hflat hleads

theorem mirrors_guarded {id : Nat}
    (h : Begins grammar alarm fuel fuel' scope tags place start around (.guarded id part) cursor
      cursor')
    (hdirect : grammar.Direct) (hflat : grammar.Flat)
    (hfree : cursor.offset ∉ engine.active.get id)
    (hkeeping : Engine.Keeping grammar scope tags ((.guarded id part, cursor') :: around) start
      engine engine') :
    Mirrored grammar alarm fuel fuel' scope tags start around (.guarded id part) cursor cursor'
      engine engine' := by
  have hspare : (start.entered id cursor.offset).spareGuards grammar part cursor'.offset ≤
      start.spareGuards grammar (.guarded id part) cursor'.offset := by
    rw [h.placed.like.offset_eq]
    exact spareGuards_entered_le
  apply Engine.mirrors_guardedMatch h.placed.like.offset_eq
  · intro _
    constructor
    · rw [hkeeping.busy' id, ← hkeeping.busy id]
      exact hfree
    · apply (h.mirrors_call hdirect hflat (.child List.mem_cons_self)
        (Engine.freer_entered start id cursor.offset) hspare h.likeBehind
        (hkeeping.entered id cursor.offset)).mono
      rintro found out found' out' ⟨hkeeping', hsame⟩
      exact Bond.Found.of_cons ⟨hkeeping'.freed, hsame⟩ Bool.false_ne_true
  · exact fun hmem => absurd hmem hfree

theorem mirrors_clearing {id cache : Nat}
    (h : Begins grammar alarm fuel fuel' scope tags place start around (.clearing id cache part)
      cursor cursor')
    (hdirect : grammar.Direct) (hflat : grammar.Flat)
    (hkeeping : Engine.Keeping grammar scope tags ((.clearing id cache part, cursor') :: around)
      start engine engine') :
    Mirrored grammar alarm fuel fuel' scope tags start around (.clearing id cache part) cursor
      cursor' engine engine' := by
  apply Engine.mirrors_clearingMatch
  apply (h.mirrors_call hdirect hflat (.child List.mem_cons_self) (.refl start)
    (spareGuards_le rfl) h.likeBehind (hkeeping.descended id)).mono
  rintro found out found' out' ⟨hkeeping', hsame⟩
  exact Bond.Found.of_cons ⟨hkeeping'.ended id cache, hsame⟩ Bool.false_ne_true

theorem mirrors_logged {name : String}
    (h : Begins grammar alarm fuel fuel' scope tags place start around (.logged name part) cursor
      cursor')
    (hdirect : grammar.Direct) (hflat : grammar.Flat)
    (hkeeping : Engine.Keeping grammar scope tags ((.logged name part, cursor') :: around) start
      engine engine') :
    Mirrored grammar alarm fuel fuel' scope tags start around (.logged name part) cursor cursor'
      engine engine' := by
  apply Engine.mirrors_loggedMatch
  intro event event'
  apply (h.mirrors_call hdirect hflat (.child List.mem_cons_self) (.refl start)
    (spareGuards_le rfl) h.likeBehind (hkeeping.recorded event event')).mono
  rintro found out found' out' ⟨hkeeping', hsame⟩ event event'
  exact Bond.Found.of_cons ⟨hkeeping'.recorded event event', hsame⟩ Bool.false_ne_true

/-- A node that stores nothing does the same with caches as past them. -/
theorem mirrors_step
    (h : Begins grammar alarm fuel fuel' scope tags place start around parser cursor cursor')
    (hdirect : grammar.Direct) (hflat : grammar.Flat) (hguards : grammar.uncached.GuardsFolds)
    (hmemo : ¬ parser.isMemo) (hbusy : parser.isBusy engine cursor.offset = false)
    (hkeeping : Engine.Keeping grammar scope tags around start engine engine') :
    Mirrored grammar alarm fuel fuel' scope tags start around parser cursor cursor' engine
      engine' := by
  have hinside := hkeeping.cons (parser, cursor')
  cases parser with
  | guarded id part =>
      have hfree : cursor.offset ∉ engine.active.get id := by
        simpa [Parser.isBusy] using hbusy
      exact h.mirrors_guarded hdirect hflat hfree hinside
  | climb id alternatives => exact absurd h.placed.node (hflat id alternatives)
  | memo id cache part => exact absurd rfl hmemo
  | clearing id cache part => exact h.mirrors_clearing hdirect hflat hinside
  | logged name part => exact h.mirrors_logged hdirect hflat hinside
  | redirected move part => exact absurd h.placed.node (hdirect move part)
  | _ => exact h.mirrors_stateless hdirect hflat hguards trivial hinside

/-- A cached parser replays what it finds, or finds it and stores it. -/
theorem tracks_memo {id cache : Nat} {found : Option (Output α)} {out : Engine α}
    (h : Begins grammar alarm fuel fuel' scope tags place start around (.memo id cache part) cursor
      cursor')
    (hdirect : grammar.Direct) (hflat : grammar.Flat) (hnumbered : grammar.Numbered)
    (hkeeping : Engine.Keeping grammar scope tags around start engine engine')
    (hrun : Engine.bareRun grammar.rules (fuel + 1) (.memo id cache part) cursor engine =
      .ok (found, out)) :
    Tracks (fun _ => False)
      (Engine.memoMatch (Sentinel.reentries.run alarm grammar.rules fuel'
        ((.memo id cache part, cursor') :: around)) id cache part cursor')
      (Engine.memoMatch (Engine.run grammar.rules fuel') id cache part cursor') engine'
      ((Bond.cached grammar scope tags around start cursor').Found found out) := by
  obtain ⟨common, hfinds, hcommon⟩ := exists_finds hdirect hflat h.placed.node h.placed.like hrun
  have hbusy := h.placed.asBusy hdirect hflat hrun
  apply Engine.tracks_memoMatch rfl
  · intro result hentry
    obtain ⟨later, hextends, htags, hkeeps⟩ := hkeeping.keeps
    have hstored := hkeeps.entry h.placed.node (h.placed.covers.wider hextends htags) hentry
    obtain ⟨stored, hfinds', hsame⟩ := hstored.resolve_left h.new
    have hfound := hcommon.trans (hfinds.same hdirect hflat h.placed.node hfinds')
    exact ⟨(hkeeping.of_asBusy hbusy).counted cache _, Cursor.LikeBehind.of_same hfound hsame⟩
  · intro _
    -- inside the call, its own entry is one of a call under way
    have hbegun := hkeeping.begun hnumbered h.placed.node h.placed.covers
      ⟨id, cursor'.offset, cursor'.left.key⟩
    apply (h.mirrors_call hdirect hflat (.child List.mem_cons_self) (.refl start) (Nat.le_refl _)
      h.likeBehind hbegun found out hrun).mono
    rintro found' out' ⟨hkeeping', hsame⟩
    exact ⟨hkeeping'.stored hnumbered h.placed.node h.placed.covers
      (Or.inr ⟨common, hfinds, Cursor.LikeBehind.of_same hcommon.symm hsame⟩), hsame⟩

end Begins

/-! ## All calls -/

/-- What is found past the caches is found with them, by induction on the room past them. -/
theorem agrees (hdirect : grammar.Direct) (hflat : grammar.Flat) (hnumbered : grammar.Numbered)
    (hguards : grammar.uncached.GuardsFolds) (alarm : Stop) (fuel : Nat) :
    Agrees grammar alarm fuel := by
  induction fuel with
  | zero =>
      intro fuel' tags place scope start engine engine' around parser cursor cursor' _ _
      exact Mirrors.of_stop rfl
  | succ fuel ih =>
      intro fuel' tags place scope start engine engine' around parser cursor cursor' h hkeeping
        found out hrun
      by_cases hsooner : ∃ outcome,
          Engine.bareRun grammar.rules fuel parser cursor engine = .ok outcome
      · obtain ⟨⟨earlier, out'⟩, hsooner⟩ := hsooner
        obtain ⟨hbusy, _, _, hagain, hsame⟩ := bareRun_agrees hdirect hflat h.node
          (Nat.le_succ fuel) (.refl engine) (.refl cursor) hsooner
        cases hrun.symm.trans hagain
        apply (ih (h.fewer hdirect hflat (Nat.le_succ fuel)) hkeeping earlier out' hsooner).mono
        rintro found' out' ⟨hkeeping', hfound⟩
        have hbusy' := h.asBusy hdirect hflat hrun
        exact ⟨hkeeping'.of_asBusy (hbusy.symm.trans hbusy'),
          Cursor.LikeBehind.of_same hsame.symm hfound⟩
      · obtain ⟨fuel', rfl⟩ := h.room.pos
        have hbegins : Begins grammar alarm fuel fuel' scope tags place start around parser cursor
            cursor' :=
          { agrees := ih
            placed := h
            new := h.not_mem hdirect hflat hkeeping.busy hrun
            unfinished := .of_not_ok hdirect hflat h.node hkeeping.busy h.like
              fun outcome hreturns => hsooner ⟨outcome, hreturns⟩ }
        have hquiet : Sentinel.reentries.objects engine' around parser cursor' = false :=
          h.not_objects hnumbered hbegins.new
        apply Sentinel.tracks_run hquiet
        by_cases hmemo : parser.isMemo
        · obtain ⟨id, cache, part, rfl⟩ := Parser.exists_of_isMemo hmemo
          exact hbegins.tracks_memo hdirect hflat hnumbered hkeeping hrun
        · obtain ⟨hbusy, hstep⟩ := Engine.of_bareRun_ok hmemo hrun
          exact hbegins.mirrors_step hdirect hflat hguards hmemo hbusy hkeeping found out hstep

/-! ## Whole texts -/

section Texts

variable {source : Source} {found found' : Option (Output α)}

/-- Tags of operands have no part in answers. -/
theorem SameFound.answer_eq (h : SameFound found found') :
    source.answer found' = source.answer found := by
  cases h with
  | none => rfl
  | some hsame => simp only [Source.answer, hsame.payload_eq, hsame.next.offset_eq]

theorem yields_parseText_of_parse
    (h : Yields (grammar.entry.parse grammar.rules (.start source)) engine fun found' _ =>
      SameFound found found') :
    Yields (grammar.parseText source) engine fun answer _ => answer = source.answer found := by
  obtain ⟨found', out, hparse, hsame⟩ := h
  exact Yields.of_eq (parseText_of_parse hparse) hsame.answer_eq

/-- What the grammar finds without its caches, it finds with them, and no lookup is alarming. -/
theorem tracks_parse_cached (hdirect : grammar.Direct) (hflat : grammar.Flat)
    (hnumbered : grammar.Numbered) (hguards : grammar.uncached.GuardsFolds) {watch : Stop}
    {out : Engine α}
    (h : Sentinel.rejections.run watch grammar.uncached.rules fuel [] grammar.uncached.entry
      (.start source) .fresh = .ok (found, out)) (alarm : Stop) :
    Tracks (fun _ => False) (Sentinel.reentries.parse alarm grammar (.start source))
      (grammar.entry.parse grammar.rules (.start source)) .fresh fun found' _ =>
        SameFound found found' := by
  obtain ⟨room, common, behind, hrun, hcommon⟩ :=
    exists_bareRun hdirect hflat Grammar.entry_mem_nodes h
  have hempty : (Cursor.start source : Cursor α).left = .empty := rfl
  have hsize : max (Engine.fresh : Engine α).horizon (Cursor.start source : Cursor α).source.size =
      source.size := Nat.zero_max source.size
  have hplaced : Placed grammar room (Engine.depthBound grammar.rules grammar.entry source.size)
      (Scope.initial (.start source)) 0 0 .fresh [] grammar.entry (.start source)
      (.start source) :=
    { node := Grammar.entry_mem_nodes
      covers := .initial fun tag value hleft => by rw [hempty] at hleft; cases hleft
      like := .refl _
      pending := nofun
      room := leavesRoom_start source }
  have hkeeping : Engine.Keeping grammar (Scope.initial (.start source)) 0 [] .fresh .fresh
      { (Engine.fresh : Engine α) with horizon := source.size } :=
    ⟨.refl _, .refl _, _, .refl _ _, Nat.zero_le _, .of_blank Engine.blank_fresh⟩
  apply Sentinel.tracks_parse
  rw [hsize]
  apply (agrees hdirect hflat hnumbered hguards alarm room hplaced hkeeping common behind hrun).mono
  rintro found' engine' ⟨-, hsame⟩
  exact hcommon.trans (Cursor.LikeBehind.sameFound hsame)

/--
Caches change no answers.  Where a grammar without precedence nodes parses a text to an end without
its caches, and no guard rejects a call, it gives the same answer with its caches, and no lookup
comes upon what a call under way has stored in advance.
-/
theorem answers_uncached (hdirect : grammar.Direct) (hflat : grammar.Flat)
    (hnumbered : grammar.Numbered) (hguards : grammar.uncached.GuardsFolds)
    (hfree : grammar.uncached.ParsesFreely source) :
    ∃ answer,
      Yields (grammar.uncached.parseText source) .fresh (fun result _ => result = answer) ∧
        Yields (grammar.parseText source) .fresh (fun result _ => result = answer) ∧
          ∀ alarm, Sentinel.reentries.parse alarm grammar (.start source) .fresh =
            grammar.entry.parse grammar.rules (.start source) .fresh := by
  obtain ⟨watch, fuel, ⟨found, out⟩, hrun⟩ := hfree
  have hcached := tracks_parse_cached hdirect hflat hnumbered hguards hrun
  have htwice := grammar.uncached_uncached
  have huncached := tracks_parse_cached hdirect.uncached hflat.uncached (.of_uncached hflat)
    (htwice.symm ▸ hguards) (htwice.symm ▸ hrun) .tooDeep
  refine ⟨source.answer found, ?_, ?_, fun alarm => (hcached alarm).same⟩
  · exact yields_parseText_of_parse huncached.yields
  · exact yields_parseText_of_parse (hcached .tooDeep).yields

end Texts

/-! ## A grammar with two caches -/

/-- Sums of products of letters, in which products and letters are looked for more than once. -/
def cachedSums : Grammar String where
  rules := .ofBodies [
    .firstOf [.sequence [.memo 0 0 (.call 1), .literal ['+'] "+", .call 0] String.join,
      .memo 0 0 (.call 1)],
    .firstOf [.foldedLeft 0 (.memo 1 1 (.call 2)) [.literal ['*'] "*"] (.memo 1 1 (.call 2))
      String.join, .memo 1 1 (.call 2)],
    .satisfy Char.isLower String.singleton]
  entry := .call 0

namespace cachedSums

/-- What the nodes are like that remember something, or whose form is asked for. -/
def Shaped : Parser String → Prop
  | .memo id cache parser => cache = id ∧ parser = .call (id + 1)
  | .foldLeft left _ _ _ => left = .guarded 0 (.memo 1 1 (.call 2))
  | .climb _ _ | .redirected _ _ => False
  | _ => True

theorem shaped : ∀ parser ∈ cachedSums.nodes, Shaped parser := by
  simp [Grammar.nodes, cachedSums, Rules.nodes, Rules.ofBodies, Definition.nodes, Parser.nodes,
    Parser.nodesAll, Parser.foldedLeft, Shaped]

theorem numbered : cachedSums.Numbered where
  memo hmemo hmemo' := by
    obtain ⟨rfl, rfl⟩ := shaped _ hmemo
    obtain ⟨rfl, rfl⟩ := shaped _ hmemo'
    exact ⟨rfl, rfl⟩
  climb hclimb := (shaped _ hclimb).elim

theorem direct : cachedSums.Direct := fun _ _ hmem => shaped _ hmem

theorem flat : cachedSums.Flat := fun _ _ hmem => shaped _ hmem

theorem guardsFolds : cachedSums.GuardsFolds := fun _ _ _ _ hmem => ⟨0, _, shaped _ hmem⟩

end cachedSums

/-- Behind `a*b+c` a sign is left over, with caches as without them. -/
theorem cachedSums_uncached :
    Yields (cachedSums.uncached.parseText (.ofString "a*b+c*")) .fresh
        (fun result _ => result = .error (.leftover 5 "a*b+c")) ∧
      Yields (cachedSums.parseText (.ofString "a*b+c*")) .fresh
        (fun result _ => result = .error (.leftover 5 "a*b+c")) ∧
      ∀ alarm, Sentinel.reentries.parse alarm cachedSums (.start (.ofString "a*b+c*")) .fresh =
        cachedSums.entry.parse cachedSums.rules (.start (.ofString "a*b+c*")) .fresh := by
  have hreturns : (Sentinel.rejections.run .tooDeep cachedSums.uncached.rules 20 []
      cachedSums.uncached.entry (.start (.ofString "a*b+c*")) .fresh).isOk = true := by
    decide +kernel
  have hfree : cachedSums.uncached.ParsesFreely (.ofString "a*b+c*") := by
    cases hrun : Sentinel.rejections.run .tooDeep cachedSums.uncached.rules 20 []
        cachedSums.uncached.entry (.start (.ofString "a*b+c*")) .fresh with
    | error stop =>
        rw [hrun] at hreturns
        cases hreturns
    | ok outcome => exact ⟨.tooDeep, 20, outcome, hrun⟩
  have hanswer : (cachedSums.uncached.parseText (.ofString "a*b+c*")).run' .fresh =
      .ok (.error (.leftover 5 "a*b+c")) := by
    decide +kernel
  obtain ⟨answer, huncached, hcached, hwatched⟩ := answers_uncached cachedSums.direct
    cachedSums.flat cachedSums.numbered cachedSums.guardsFolds.uncached hfree
  have hsame : answer = .error (.leftover 5 "a*b+c") := by
    obtain ⟨result, engine, hrun, rfl⟩ := huncached
    rw [StateT.run', hrun] at hanswer
    exact Except.ok.inj hanswer
  rw [hsame] at huncached hcached
  exact ⟨huncached, hcached, hwatched⟩

end Packrat
