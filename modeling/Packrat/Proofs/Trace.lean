import Packrat.Proofs.Discipline
import Packrat.Proofs.Precedence.Attempts
import Packrat.Proofs.Trace.Forest

/-!
# Traces are call trees

Whatever the logged parsers of a grammar are, the events that a run adds to the trace are those of a
forest: every return closes the call that was opened last, and no call lies before the one around
it.  So the text of a trace shows every call and its return at one depth.
-/

namespace Packrat

variable {α : Type} {grammar : Grammar α} {engine out mid : Engine α} {cursor : Cursor α}
  {parser : Parser α} {fuel place place' : Nat}

/-! ## What a call adds to the trace -/

/-- The events since the first state are those of calls of logged nodes, none before a place. -/
def Engine.Adds (grammar : Grammar α) (place : Nat) (engine out : Engine α) : Prop :=
  ∃ forest : Forest, out.trace.toList = engine.trace.toList ++ forest.events ∧
    forest.Ordered place ∧
    ∀ event ∈ forest.events, ∃ part, Parser.logged event.rule part ∈ grammar.nodes

namespace Engine.Adds

theorem refl (grammar : Grammar α) (place : Nat) (engine : Engine α) :
    engine.Adds grammar place engine :=
  ⟨.empty, (List.append_nil _).symm, trivial, List.forall_mem_nil _⟩

theorem trans (h : engine.Adds grammar place mid) (h' : mid.Adds grammar place out) :
    engine.Adds grammar place out := by
  obtain ⟨forest, htrace, hordered, hnodes⟩ := h
  obtain ⟨others, htrace', hordered', hnodes'⟩ := h'
  refine ⟨forest.append others, ?_, hordered.append hordered', ?_⟩
  · rw [htrace', htrace, List.append_assoc, Forest.events_append]
  · rw [Forest.events_append]
    exact List.forall_mem_append.mpr ⟨hnodes, hnodes'⟩

theorem mono (h : engine.Adds grammar place out) (hle : place' ≤ place) :
    engine.Adds grammar place' out := by
  obtain ⟨forest, htrace, hordered, hnodes⟩ := h
  exact ⟨forest, htrace, hordered.mono hle, hnodes⟩

/-- A call that is recorded with its return, around what is added in between. -/
theorem recorded {name : String} {part : Parser α} {left : LeftKey} {stop? : Option Nat}
    (hnode : .logged name part ∈ grammar.nodes)
    (h : (engine.recorded (.entered name place left)).Adds grammar place mid)
    (hstop : ∀ stop, stop? = some stop → place ≤ stop) :
    engine.Adds grammar place (mid.recorded (.returned name place stop?)) := by
  obtain ⟨forest, htrace, hordered, hnodes⟩ := h
  refine ⟨.call name place left stop? forest .empty, ?_, ?_, ?_⟩
  · simp only [Engine.recorded, Array.toList_push] at htrace ⊢
    simp only [htrace, Forest.events, List.append_assoc, List.cons_append, List.nil_append]
  · exact ⟨Nat.le_refl _, hstop, hordered, trivial⟩
  · simp only [Forest.events, List.cons_append, List.forall_mem_cons, List.forall_mem_append]
    exact ⟨⟨part, hnode⟩, hnodes, ⟨part, hnode⟩, List.forall_mem_nil _⟩

/-- The end of a clearing node is no event. -/
theorem ended (h : engine.Adds grammar place mid) (id cache : Nat) :
    engine.Adds grammar place (mid.ended id cache) := by
  rw [Engine.ended]
  split
  · exact h
  · exact h

end Engine.Adds

/-! ## Supervision -/

open Classical in
/-- The supervisor to whom a match is fine if it goes on behind characters of the text. -/
noncomputable def Supervisor.onward : Supervisor α :=
  ⟨fun _ _ cursor found => decide (∀ output, found = some output → cursor.Reaches output.next)⟩

theorem Supervisor.fine_onward_iff {found : Option (Output α)} :
    onward.fine place parser cursor found = true ↔
      ∀ output, found = some output → cursor.Reaches output.next := by
  simp only [onward, decide_eq_true_eq]

/-- Every match goes on behind characters of the text, so supervision of that changes nothing. -/
theorem run_onward (hdirect : grammar.Direct) (hblank : engine.Blank)
    (htag : ∀ tag value, cursor.left = .operand tag value → tag < engine.nextTag) (alarm : Stop)
    (fuel : Nat) :
    Supervisor.onward.run alarm grammar.rules fuel cursor.offset grammar.entry cursor engine =
      Engine.run grammar.rules fuel grammar.entry cursor engine := by
  have hcalls : GoodCalls grammar .leads (fun _ => True) cursor
      (Supervisor.onward.run alarm grammar.rules fuel)
      (Supervisor.idle.run alarm grammar.rules fuel) := by
    refine (leads_contract grammar).tracks_run hdirect ?_ (fun _ _ _ _ _ => trivial) trivial
      (fun _ _ => trivial) fuel
    intro place parser here result _ hleads
    exact Supervisor.fine_onward_iff.mpr fun output hresult => (hleads output hresult rfl).reaches
  have htracks := hcalls rfl Grammar.entry_mem_nodes (.initial htag) (.of_sound (.of_blank hblank))
  rw [Supervisor.run_idle] at htracks
  exact htracks.same

/-! ## One step -/

section Step

variable {call : Call α} {parsers : List (Parser α)} {here : Cursor α}

/-- Calls of nodes add calls from their places on, and their matches go on from there. -/
def AddsCalls (grammar : Grammar α) (call : Call α) : Prop :=
  ∀ part ∈ grammar.nodes, ∀ cursor engine,
    Tracks (fun _ => True) (call part cursor) (call part cursor) engine
      (Leaves (engine.Adds grammar cursor.offset) fun output => cursor.Reaches output.next)

namespace AddsCalls

/-- A part that a node calls where it stands itself or further on. -/
theorem at_behind (hcalls : AddsCalls grammar call) (hpart : parser ∈ grammar.nodes)
    (hreaches : cursor.Reaches here) (h : engine.Adds grammar cursor.offset mid) :
    Tracks (fun _ => True) (call parser here) (call parser here) mid
      (Leaves (engine.Adds grammar cursor.offset) fun output => cursor.Reaches output.next) := by
  refine (hcalls parser hpart here mid).mono fun found out hleaves => ?_
  exact hleaves.mono (fun hadds => h.trans (hadds.mono hreaches.offset_le)) fun _ => hreaches.trans

theorem inSequence (hcalls : AddsCalls grammar call)
    (hparts : ∀ part ∈ parsers, part ∈ grammar.nodes) (hreaches : cursor.Reaches here)
    (h : engine.Adds grammar cursor.offset mid) :
    Tracks (fun _ => True) (Engine.inSequence call parsers here)
      (Engine.inSequence call parsers here) mid fun found out =>
        engine.Adds grammar cursor.offset out ∧
          ∀ payloads next, found = some (payloads, next) → cursor.Reaches next := by
  refine Engine.tracks_inSequence
    (fun parts here => (∀ part ∈ parts, part ∈ grammar.nodes) ∧ cursor.Reaches here)
    (fun _ _ _ next => cursor.Reaches next) (fun _ hready => hready.2) ?_ ⟨hparts, hreaches⟩ h
  rintro part parts here mid ⟨hnodes, hreaches⟩ h
  obtain ⟨hpart, hnodes⟩ := List.forall_mem_cons.mp hnodes
  refine (hcalls.at_behind hpart hreaches h).mono fun found out hleaves => ?_
  exact hleaves.mono id fun output hnext => ⟨⟨hnodes, hnext⟩, fun _ _ => id⟩

theorem repetition (hcalls : AddsCalls grammar call) (hpart : parser ∈ grammar.nodes)
    {atLeast : Nat} {atMost : Option Nat} {collect : List α → α} :
    Tracks (fun _ => True)
      (Engine.repetition call fuel parser atLeast atMost collect cursor)
      (Engine.repetition call fuel parser atLeast atMost collect cursor) engine
      (Leaves (engine.Adds grammar cursor.offset) fun _ => True) := by
  refine Engine.tracks_repetition (fun _ _ here => cursor.Reaches here)
    (fun _ _ here => cursor.Reaches here) (fun _ _ _ => id) ?_ (Or.inl ⟨trivial, rfl⟩)
    (.refl cursor) (.refl _ _ _) fun _ _ _ _ _ => trivial
  intro payloads count here mid hreaches h
  refine (hcalls.at_behind hpart hreaches h).mono fun found out hleaves => ?_
  refine hleaves.mono id fun output hnext => ?_
  exact ⟨hnext.source_eq.trans hreaches.source_eq.symm, fun _ => hnext, hnext⟩

theorem foldStep (hcalls : AddsCalls grammar call) {left right : Parser α}
    {middle : List (Parser α)} {combine : List α → α}
    (hnode : .foldLeft left middle right combine ∈ grammar.nodes) :
    Tracks (fun _ => True) (Engine.foldStep call left middle right combine cursor)
      (Engine.foldStep call left middle right combine cursor) engine
      fun _ => engine.Adds grammar cursor.offset := by
  obtain ⟨hleft, hmiddle, hright⟩ := Parser.forall_mem_children_foldLeft.mp
    fun part hpart => Grammar.child_mem_nodes hnode hpart
  have hfirst : Tracks (fun _ => True) (Engine.leftOperand call left cursor)
      (Engine.leftOperand call left cursor) engine
      (Leaves (engine.Adds grammar cursor.offset) fun output => cursor.Reaches output.next) := by
    apply Engine.tracks_leftOperand
    · exact fun _ => hcalls left hleft cursor engine
    · exact fun _ _ _ => Leaves.some (.refl _ _ _) ((Cursor.Reaches.refl cursor).withLeft .empty)
    · exact fun _ => Leaves.none (.refl _ _ _)
  apply Engine.tracks_foldStep
  apply hfirst.mono
  rintro (_ | first) mid ⟨hadds, hreaches⟩
  · exact hadds
  apply (hcalls.inSequence hmiddle (hreaches first rfl) hadds).mono
  rintro (_ | ⟨payloads, behind⟩) mid ⟨hadds, hreaches⟩
  · exact hadds
  apply Engine.tracks_rightOperand
  apply (hcalls.at_behind hright ((hreaches payloads behind rfl).withLeft .rightOperand) hadds).mono
  rintro (_ | last) mid ⟨hadds, hreaches⟩
  · exact hadds
  -- giving out a tag is no event
  have htagged : engine.Adds grammar cursor.offset mid.tagged := hadds
  apply (hcalls.at_behind hleft ((hreaches last rfl).withLeft _) htagged).mono
  exact fun _ _ => And.left

theorem climbMatch (hcalls : AddsCalls grammar call) {id : Nat} {alternatives : List (Parser α)}
    (hnode : .climb id alternatives ∈ grammar.nodes) :
    Tracks (fun _ => True)
      (Engine.step grammar.rules fuel call (.climb id alternatives) cursor)
      (Engine.step grammar.rules fuel call (.climb id alternatives) cursor) engine
      fun _ => engine.Adds grammar cursor.offset := by
  refine Engine.tracks_climb (fun mid hadds index part next hattempts => ?_) (.refl _ _ _)
  have hpart := Grammar.child_mem_nodes hnode (List.mem_of_getElem? hattempts.getElem?_eq)
  have hreaches : cursor.Reaches next := by
    cases hattempts with
    | afresh => exact (Cursor.Reaches.refl cursor).withLeft .empty
    | again => exact .refl cursor
  have hpushed : engine.Adds grammar cursor.offset (mid.pushed id index) := hadds
  exact (hcalls.at_behind hpart hreaches hpushed).mono fun _ _ => And.left

/-- A part that a node calls where it stands itself. -/
theorem at_part (hcalls : AddsCalls grammar call) (hnode : parser ∈ grammar.nodes) {part : Parser α}
    (hpart : part ∈ parser.children) (h : engine.Adds grammar cursor.offset mid) :
    Tracks (fun _ => True) (call part cursor) (call part cursor) mid
      (Leaves (engine.Adds grammar cursor.offset) fun _ => True) := by
  apply (hcalls.at_behind (Grammar.child_mem_nodes hnode hpart) (.refl cursor) h).mono
  exact fun _ _ hleaves => hleaves.mono (fun hadds => hadds) fun _ _ => trivial

theorem sequence (hcalls : AddsCalls grammar call) {combine : List α → α}
    (hnode : .sequence parsers combine ∈ grammar.nodes) :
    Tracks (fun _ => True)
      (Engine.step grammar.rules fuel call (.sequence parsers combine) cursor)
      (Engine.step grammar.rules fuel call (.sequence parsers combine) cursor) engine
      fun _ => engine.Adds grammar cursor.offset := by
  have hparts : ∀ part ∈ parsers, part ∈ grammar.nodes :=
    fun part hpart => Grammar.child_mem_nodes hnode hpart
  apply Tracks.bind
  apply (hcalls.inSequence hparts (.refl cursor) (.refl _ _ _)).mono
  rintro (_ | ⟨payloads, next⟩) mid hadds
  · exact Tracks.pure hadds.1
  · exact Tracks.pure hadds.1

theorem guarded (hcalls : AddsCalls grammar call) {id : Nat}
    (hnode : .guarded id parser ∈ grammar.nodes) :
    Tracks (fun _ => True) (Engine.guardedMatch call id parser cursor)
      (Engine.guardedMatch call id parser cursor) engine
      fun _ => engine.Adds grammar cursor.offset := by
  have hrefl : engine.Adds grammar cursor.offset engine := .refl _ _ _
  have hentered : engine.Adds grammar cursor.offset (engine.entered id cursor.offset) := hrefl
  apply Engine.tracks_guardedMatch
  · intro _
    exact (hcalls.at_part hnode List.mem_cons_self hentered).mono fun _ _ => And.left
  · exact fun _ => hrefl

/-- Neither the count of a call nor the entries of a cache are events. -/
theorem memo (hcalls : AddsCalls grammar call) {id cache : Nat}
    (hnode : .memo id cache parser ∈ grammar.nodes) :
    Tracks (fun _ => True) (Engine.memoMatch call id cache parser cursor)
      (Engine.memoMatch call id cache parser cursor) engine
      fun _ => engine.Adds grammar cursor.offset := by
  have hrefl : engine.Adds grammar cursor.offset engine := .refl _ _ _
  apply Engine.tracks_memoMatch rfl
  · exact fun _ _ => hrefl
  · intro _
    have hstored : ∀ key, engine.Adds grammar cursor.offset
        ((engine.counted cache key).stored cache key none) := fun _ => hrefl
    exact (hcalls.at_part hnode List.mem_cons_self (hstored _)).mono fun _ _ => And.left

theorem clearing (hcalls : AddsCalls grammar call) {id cache : Nat}
    (hnode : .clearing id cache parser ∈ grammar.nodes) :
    Tracks (fun _ => True) (Engine.clearingMatch call id cache parser cursor)
      (Engine.clearingMatch call id cache parser cursor) engine
      fun _ => engine.Adds grammar cursor.offset := by
  have hrefl : engine.Adds grammar cursor.offset engine := .refl _ _ _
  have hdescended : engine.Adds grammar cursor.offset (engine.descended id) := hrefl
  apply Engine.tracks_clearingMatch
  apply (hcalls.at_part hnode List.mem_cons_self hdescended).mono
  exact fun _ _ hleaves => hleaves.1.ended id cache

/-- A logged node puts its call and its return around what its part adds. -/
theorem logged (hcalls : AddsCalls grammar call) {name : String}
    (hnode : .logged name parser ∈ grammar.nodes) :
    Tracks (fun _ => True) (Engine.loggedMatch call name parser cursor)
      (Engine.loggedMatch call name parser cursor) engine
      fun _ => engine.Adds grammar cursor.offset := by
  have hpart := Grammar.child_mem_nodes hnode List.mem_cons_self
  apply Engine.tracks_loggedMatch
  apply (hcalls parser hpart cursor _).mono
  rintro found mid ⟨hadds, hreaches⟩
  apply hadds.recorded hnode
  intro stop hstop
  obtain ⟨output, hfound, rfl⟩ := Option.map_eq_some_iff.mp hstop
  exact (hreaches output hfound).offset_le

/-- A node adds calls from its own place on if its parts do from theirs. -/
theorem tracks_step (hcalls : AddsCalls grammar call) (hdirect : grammar.Direct)
    (hnode : parser ∈ grammar.nodes) :
    Tracks (fun _ => True) (Engine.step grammar.rules fuel call parser cursor)
      (Engine.step grammar.rules fuel call parser cursor) engine
      fun _ => engine.Adds grammar cursor.offset := by
  have hrefl : engine.Adds grammar cursor.offset engine := .refl _ _ _
  have hparts : ∀ part ∈ parser.children, ∀ mid, engine.Adds grammar cursor.offset mid →
      Tracks (fun _ => True) (call part cursor) (call part cursor) mid
        (Leaves (engine.Adds grammar cursor.offset) fun _ => True) :=
    fun part hpart mid hadds => hcalls.at_part hnode hpart hadds
  cases parser with
  | satisfy accepts payload => exact Tracks.pure hrefl
  | literal chars payload => exact Tracks.pure hrefl
  | endOfInput payload => exact Tracks.pure hrefl
  | except part excluded =>
      obtain ⟨hpart, hexcluded⟩ := List.forall_mem_cons.mp hparts
      exact (Engine.tracks_unlessMatch hexcluded hpart hrefl).mono fun _ _ => And.left
  | firstOf alternatives =>
      exact (Engine.tracks_firstMatch hparts hrefl).mono fun _ _ => And.left
  | longestOf alternatives =>
      exact (Engine.tracks_longestMatch hparts (fun _ _ => trivial) hrefl).mono fun _ _ => And.left
  | sequence parts combine => exact hcalls.sequence hnode
  | foldLeft left middle right combine => exact hcalls.foldStep hnode
  | repeated part atLeast atMost collect =>
      have hpart := Grammar.child_mem_nodes hnode List.mem_cons_self
      exact (hcalls.repetition hpart).mono fun _ _ => And.left
  | optional part wrap =>
      apply Tracks.bind
      apply (hparts part List.mem_cons_self engine hrefl).mono
      rintro (_ | output) mid hadds <;> exact Tracks.pure hadds.1
  | convert part f =>
      apply Tracks.bind
      apply (hparts part List.mem_cons_self engine hrefl).mono
      rintro (_ | output) mid hadds <;> exact Tracks.pure hadds.1
  | guarded id part => exact hcalls.guarded hnode
  | climb id alternatives => exact hcalls.climbMatch hnode
  | nested part => exact (hparts part List.mem_cons_self engine hrefl).mono fun _ _ => And.left
  | memo id cache part => exact hcalls.memo hnode
  | clearing id cache part => exact hcalls.clearing hnode
  | logged name part => exact hcalls.logged hnode
  | call rule =>
      apply Engine.tracks_call
      · intro body hbody
        exact (hcalls body (Grammar.body_mem_nodes hbody) cursor engine).mono fun _ _ => And.left
      · exact fun _ => hrefl
      · exact fun _ => trivial
  | redirected move part => exact absurd hnode (hdirect move part)

/-- However deep calls go, those of nodes add calls from their places on. -/
theorem onward (hdirect : grammar.Direct) (alarm : Stop) (fuel place : Nat) :
    AddsCalls grammar (Supervisor.onward.run alarm grammar.rules fuel place) := by
  induction fuel generalizing place with
  | zero => exact fun _ _ _ _ => Tracks.throw trivial
  | succ fuel ih =>
      intro parser hnode cursor engine
      have hcalls : AddsCalls grammar fun part next =>
          Supervisor.onward.run alarm grammar.rules fuel (handed place cursor next) part next :=
        fun part hpart next => ih _ part hpart next
      refine Supervisor.tracks_run_succ (fun _ _ => trivial) ?_
      refine (hcalls.tracks_step hdirect hnode).mono fun found out hadds => ⟨rfl, fun hfine => ?_⟩
      exact ⟨hadds, Supervisor.fine_onward_iff.mp hfine⟩

end AddsCalls

end Step

/-! ## Runs -/

section Runs

variable {found : Option (Output α)}

/-- A run from empty caches adds calls from its cursor on. -/
theorem Engine.Adds.of_run (hdirect : grammar.Direct) (hblank : engine.Blank)
    (htag : ∀ tag value, cursor.left = .operand tag value → tag < engine.nextTag)
    (hrun : Engine.run grammar.rules fuel grammar.entry cursor engine = .ok (found, out)) :
    engine.Adds grammar cursor.offset out := by
  have htracks := AddsCalls.onward hdirect .tooDeep fuel cursor.offset grammar.entry
    Grammar.entry_mem_nodes cursor engine
  exact (htracks.of_ok ((run_onward hdirect hblank htag .tooDeep fuel).trans hrun)).1

theorem Engine.Adds.of_parse (hdirect : grammar.Direct) (hblank : engine.Blank)
    (htag : ∀ tag value, cursor.left = .operand tag value → tag < engine.nextTag)
    (hrun : grammar.entry.parse grammar.rules cursor engine = .ok (found, out)) :
    engine.Adds grammar cursor.offset out := by
  have hwidened : Engine.Blank { engine with horizon := max engine.horizon cursor.source.size } :=
    hblank
  have hadds := Engine.Adds.of_run hdirect hwidened htag hrun
  exact hadds

/-- The operand that is put to the left of an offset has a tag that is given out before the run. -/
theorem Engine.Adds.of_parseAt {source : Source} {offset : Nat} {left : LeftContent α}
    (hdirect : grammar.Direct) (hblank : engine.Blank)
    (hrun : grammar.parseAt source offset left engine = .ok (found, out)) :
    engine.Adds grammar offset out := by
  simp only [Grammar.parseAt, Parser.parseAt] at hrun
  cases hseek : (Cursor.start source : Cursor α).seek offset with
  | error fault =>
      rw [hseek] at hrun
      cases hrun
  | ok here =>
      rw [hseek] at hrun
      obtain ⟨tag, mid, htagged, hparse⟩ := bind_eq_ok hrun
      rw [Engine.freshTag_eq] at htagged
      obtain ⟨rfl, rfl⟩ := Prod.mk.inj (Except.ok.inj htagged)
      have hplace : here.offset = offset := by
        rw [Cursor.seek] at hseek
        split at hseek
        · obtain rfl := Except.ok.inj hseek
          rfl
        · cases hseek
      have hblank' : engine.tagged.Blank := hblank
      have hadds := Engine.Adds.of_parse hdirect hblank' ?_ hparse
      · exact hplace ▸ hadds
      · intro tag value hleft
        cases left with
        | operand content =>
            obtain ⟨rfl, -⟩ := Left.operand.inj hleft
            exact Nat.lt_succ_self _
        | _ => cases hleft

/-- Where a trace holds calls and a run adds some, its text is the drawing of both. -/
theorem Engine.Adds.callTree (h : engine.Adds grammar place out) {earlier : Forest}
    (hearlier : engine.trace.toList = earlier.events) :
    ∃ forest : Forest, out.trace.toList = forest.events ∧
      ∀ palette, out.trace.callTree palette = String.join (forest.draw palette 0) ∧
        (forest.draw palette 0).length = out.trace.size := by
  obtain ⟨added, htrace, -, -⟩ := h
  have hevents : out.trace.toList = (earlier.append added).events := by
    rw [htrace, hearlier, Forest.events_append]
  refine ⟨earlier.append added, hevents, fun palette => ⟨Trace.callTree_events hevents palette, ?_⟩⟩
  rw [Forest.length_draw, ← hevents, Array.length_toList]

theorem Engine.Adds.uncolored (h : engine.Adds grammar place out)
    (hearlier : ∀ event ∈ engine.trace.toList, '\x1b' ∉ event.rule.toList)
    (hnames : ∀ name part, .logged name part ∈ grammar.nodes → '\x1b' ∉ name.toList) :
    String.ofList (Palette.uncolored false (out.trace.callTree .colored).toList) =
      out.trace.callTree .plain := by
  obtain ⟨added, htrace, -, hnodes⟩ := h
  refine Trace.uncolored_callTree ?_
  rw [htrace]
  refine List.forall_mem_append.mpr ⟨hearlier, fun event hevent => ?_⟩
  obtain ⟨part, hnode⟩ := hnodes event hevent
  exact hnames _ part hnode

/--
The events that a parse adds to a trace are those of a forest of calls: each return closes the call
that was opened last, none stops before it began, and none lies before the one around it.  So the
text of a trace is the drawing of its calls, with a line for each event and a call and its return at
one depth, and its colors can be taken out again.
-/
theorem parse_adds_calls (hdirect : grammar.Direct) (hblank : engine.Blank) :
    (∀ cursor fuel found out,
      (∀ tag value, cursor.left = .operand tag value → tag < engine.nextTag) →
        Engine.run grammar.rules fuel grammar.entry cursor engine = .ok (found, out) →
          engine.Adds grammar cursor.offset out) ∧
      (∀ source answer out, grammar.parseText source engine = .ok (answer, out) →
        engine.Adds grammar 0 out) ∧
      (∀ source offset left found out,
        grammar.parseAt source offset left engine = .ok (found, out) →
          engine.Adds grammar offset out) ∧
      ∀ place out, engine.Adds grammar place out → ∀ earlier : Forest,
        engine.trace.toList = earlier.events →
          (∃ forest : Forest, out.trace.toList = forest.events ∧
            ∀ palette, out.trace.callTree palette = String.join (forest.draw palette 0) ∧
              (forest.draw palette 0).length = out.trace.size) ∧
          ((∀ event ∈ engine.trace.toList, '\x1b' ∉ event.rule.toList) →
            (∀ name part, .logged name part ∈ grammar.nodes → '\x1b' ∉ name.toList) →
              String.ofList (Palette.uncolored false (out.trace.callTree .colored).toList) =
                out.trace.callTree .plain) := by
  refine ⟨fun cursor fuel found out htag hrun => .of_run hdirect hblank htag hrun, ?_, ?_, ?_⟩
  · intro source answer out hrun
    obtain ⟨found, mid, hparse, hanswer⟩ := bind_eq_ok hrun
    obtain ⟨-, rfl⟩ := Prod.mk.inj (Except.ok.inj ((parseText_of_parse hparse).symm.trans hrun))
    exact .of_parse hdirect hblank (fun _ _ hleft => by cases hleft) hparse
  · exact fun source offset left found out hrun => .of_parseAt hdirect hblank hrun
  · intro place out hadds earlier hearlier
    exact ⟨hadds.callTree hearlier, fun hclean hnames => hadds.uncolored hclean hnames⟩

end Runs

/-- A sum of two numbers, whose calls are recorded. -/
def loggedSum : Grammar String where
  rules := .empty
  entry := .logged "sum" (.inOrder 0 (.logged "number" (.satisfy Char.isDigit Char.toString))
    [.literal ['+'] "+", .logged "number" (.satisfy Char.isDigit Char.toString)] String.join)

/-- Of a sum that lacks its second number, both calls for numbers lie in the one for the sum. -/
theorem loggedSum_adds_calls :
    ∃ out, loggedSum.parseText (.ofString "1+x") .fresh = .ok (.error .noMatch, out) ∧
      Engine.fresh.Adds loggedSum 0 out ∧
        out.trace.callTree .plain =
          "> sum at 0\n  > number at 0\n  < number at 0: matched 0..1\n  > number at 2\n" ++
            "  < number at 2: no match\n< sum at 0: no match\n" ∧
        String.ofList (Palette.uncolored false (out.trace.callTree .colored).toList) =
          out.trace.callTree .plain := by
  have hdirect : loggedSum.Direct := by
    simp [Grammar.Direct, Grammar.nodes, loggedSum, Rules.nodes, Rules.empty, Parser.nodes,
      Parser.nodesAll, Parser.inOrder]
  have hresult : (loggedSum.parseText (.ofString "1+x") .fresh).map
      (fun answered => (answered.1, answered.2.trace.callTree .plain)) =
      .ok (.error .noMatch,
          "> sum at 0\n  > number at 0\n  < number at 0: matched 0..1\n  > number at 2\n" ++
            "  < number at 2: no match\n< sum at 0: no match\n") := by
    decide +kernel
  have hnames : ∀ name part, .logged name part ∈ loggedSum.nodes → '\x1b' ∉ name.toList := by
    intro name part hmem
    simp only [Grammar.nodes, loggedSum, Rules.nodes, Rules.empty, Parser.nodes, Parser.nodesAll,
      Parser.inOrder, List.flatMap_nil, List.append_nil, List.nil_append, List.cons_append,
      List.mem_cons, Parser.logged.injEq, List.not_mem_nil, or_false, reduceCtorEq,
      false_or] at hmem
    rcases hmem with ⟨rfl, -⟩ | ⟨rfl, -⟩ | ⟨rfl, -⟩ <;> decide
  obtain ⟨-, htext, -, hdrawn⟩ := parse_adds_calls hdirect Engine.blank_fresh
  cases hrun : loggedSum.parseText (.ofString "1+x") .fresh with
  | error stop =>
      rw [hrun] at hresult
      cases hresult
  | ok answered =>
      rw [hrun] at hresult
      obtain ⟨hanswer, htree⟩ := Prod.mk.inj (Except.ok.inj hresult)
      have hadds := htext _ _ answered.2 hrun
      refine ⟨answered.2, by rw [← hanswer], hadds, htree, ?_⟩
      exact (hdrawn 0 answered.2 hadds .empty rfl).2 (List.forall_mem_nil _) hnames

end Packrat
