import Packrat.Proofs.Scope

/-!
# Contracts

A contract is a condition on matches that every node of a grammar keeps if its parts do.  There is
one clause for every way in which a node makes its match from those of its parts.  Whatever the
contract is, it then holds of every call of every run in which nothing was stored before, however
cursors are handed on and stored matches replayed.
-/

namespace Packrat

variable {α : Type}

/-! ## What a node makes its match from -/

/-- The parts whose matches a node may hand on as they are. -/
def Parser.passed : Parser α → List (Parser α)
  | .except parser _ | .guarded _ parser | .nested parser | .memo _ _ parser
  | .clearing _ _ parser | .logged _ parser => [parser]
  | .firstOf alternatives | .longestOf alternatives | .climb _ alternatives => alternatives
  | _ => []

theorem Parser.mem_children_of_passed {parser part : Parser α} (h : part ∈ parser.passed) :
    part ∈ parser.children := by
  cases parser with
  | except parser excluded => exact List.mem_cons.mpr (Or.inl (List.mem_singleton.mp h))
  | firstOf | longestOf | climb | guarded | nested | memo | clearing | logged => exact h
  | _ => cases h

/-- Parts that match one after another from `here` on, called by a node at `cursor`. -/
inductive Chain (good : Goodness α) (place : Nat) (cursor : Cursor α) :
    (here : Cursor α) → List (Parser α) → List α → (behind : Cursor α) → Prop
  | nil (here : Cursor α) : Chain good place cursor here [] [] here
  | cons {here behind : Cursor α} {parser : Parser α} {parsers : List (Parser α)}
      {output : Output α} {payloads : List α}
      (hhead : good (handed place cursor here) parser here output)
      (htail : Chain good place cursor output.next parsers payloads behind) :
      Chain good place cursor here (parser :: parsers) (output.payload :: payloads) behind

theorem Chain.snoc {good : Goodness α} {place : Nat} {cursor here behind : Cursor α}
    {parser : Parser α} {parsers : List (Parser α)} {payloads : List α} {output : Output α}
    (h : Chain good place cursor here parsers payloads behind)
    (hlast : good (handed place cursor behind) parser behind output) :
    Chain good place cursor here (parsers ++ [parser]) (payloads ++ [output.payload])
      output.next := by
  induction h with
  | nil here => exact .cons hlast (.nil _)
  | cons hhead _ ih => exact .cons hhead (ih hlast)

theorem Chain.leads {good : Goodness α} {place : Nat} {cursor here behind : Cursor α}
    {parsers : List (Parser α)} {payloads : List α}
    (hgood : ∀ {place parser cursor output}, good place parser cursor output →
      cursor.Leads output.next)
    (h : Chain good place cursor here parsers payloads behind) : here.Leads behind := by
  induction h with
  | nil here => exact .refl here
  | cons hhead _ ih => exact (hgood hhead).trans ih

/-- The operands of one step of a fold, and what stands between them. -/
structure FoldParts (good : Goodness α) (place : Nat) (cursor : Cursor α) (left : Parser α)
    (middle : List (Parser α)) (right : Parser α) (first : Output α) (payloads : List α)
    (behind : Cursor α) (last : Output α) : Prop where
  operand : cursor.left = .empty ∧ good place left cursor first ∨
    ∃ tag value, cursor.left = .operand tag (some value) ∧ first = ⟨value, cursor.withoutLeft⟩
  middle : Chain good place cursor first.next middle payloads behind
  last : good behind.offset right (behind.withLeft .rightOperand) last

theorem FoldParts.leads {good : Goodness α} {place : Nat} {cursor behind : Cursor α}
    {left right : Parser α} {middle : List (Parser α)} {first last : Output α} {payloads : List α}
    (hgood : ∀ {place parser cursor output}, good place parser cursor output →
      cursor.Leads output.next)
    (h : FoldParts good place cursor left middle right first payloads behind last) :
    cursor.Leads last.next.withoutLeft := by
  refine Cursor.Leads.trans ?_ ((h.middle.leads hgood).trans (hgood h.last).dropped)
  rcases h.operand with ⟨-, hfirst⟩ | ⟨tag, value, -, rfl⟩
  · exact hgood hfirst
  · exact .withoutLeft _

/--
A condition on matches that every node keeps; a supervisor may vouch for some matches of folds.
-/
structure Contract (grammar : Grammar α) (supervisor : Supervisor α)
    (good : Goodness α) : Prop where
  leads : ∀ {place parser cursor output}, good place parser cursor output →
    cursor.Leads output.next
  satisfy : ∀ {accepts payload place cursor output},
    Parser.satisfy accepts payload ∈ grammar.nodes →
      Engine.takeChar accepts payload cursor = some output →
        good place (.satisfy accepts payload) cursor output
  literal : ∀ {chars payload place cursor output}, Parser.literal chars payload ∈ grammar.nodes →
    Engine.takeLiteral chars payload cursor = some output →
      good place (.literal chars payload) cursor output
  endOfInput : ∀ {payload place} {cursor : Cursor α}, Parser.endOfInput payload ∈ grammar.nodes →
    cursor.atEnd = true → good place (.endOfInput payload) cursor ⟨payload, cursor⟩
  passed : ∀ {parser part place cursor output}, parser ∈ grammar.nodes → part ∈ parser.passed →
    good place part cursor output → good place parser cursor output
  /-- A precedence node that begins afresh drops the mark of a right operand. -/
  afresh : ∀ {id alternatives alternative place cursor output},
    Parser.climb id alternatives ∈ grammar.nodes → alternative ∈ alternatives →
      cursor.left.isOperand = false →
        good cursor.offset alternative cursor.withoutLeft output →
          good place (.climb id alternatives) cursor output
  sequence : ∀ {parts combine place cursor payloads next},
    Parser.sequence parts combine ∈ grammar.nodes →
      Chain good place cursor cursor parts payloads next →
        good place (.sequence parts combine) cursor ⟨combine payloads, next⟩
  folded : ∀ {left middle right combine place cursor first payloads behind last},
    Parser.foldLeft left middle right combine ∈ grammar.nodes →
      FoldParts good place cursor left middle right first payloads behind last →
        supervisor.fine place (.foldLeft left middle right combine) cursor
            (some ⟨combine (first.payload :: payloads ++ [last.payload]),
              last.next.withoutLeft⟩) = true →
          good place (.foldLeft left middle right combine) cursor
            ⟨combine (first.payload :: payloads ++ [last.payload]), last.next.withoutLeft⟩
  extended : ∀ {left middle right combine place cursor first payloads behind last tag extended},
    Parser.foldLeft left middle right combine ∈ grammar.nodes →
      FoldParts good place cursor left middle right first payloads behind last →
        good last.next.offset left
          (last.next.withLeft
            (.operand tag (some (combine
          (first.payload :: payloads ++ [last.payload]))))) extended →
          extended.next.left = .empty →
            supervisor.fine place (.foldLeft left middle right combine) cursor
              (some extended) = true →
              good place (.foldLeft left middle right combine) cursor extended
  repeated : ∀ {parser atLeast atMost collect place cursor count payloads next},
    Parser.repeated parser atLeast atMost collect ∈ grammar.nodes →
      Chain good place cursor cursor (List.replicate count parser) payloads next →
        atLeast ≤ count →
          good place (.repeated parser atLeast atMost collect) cursor ⟨collect payloads, next⟩
  present : ∀ {parser wrap place cursor output}, Parser.optional parser wrap ∈ grammar.nodes →
    good place parser cursor output →
      good place (.optional parser wrap) cursor
        { output with payload := wrap (some output.payload) }
  absent : ∀ {parser wrap place cursor}, Parser.optional parser wrap ∈ grammar.nodes →
    good place (.optional parser wrap) cursor ⟨wrap none, cursor⟩
  converted : ∀ {parser f place cursor output payload}, Parser.convert parser f ∈ grammar.nodes →
    good place parser cursor output → f output.payload = some payload →
      good place (.convert parser f) cursor { output with payload }
  called : ∀ {rule parser place cursor output}, Parser.call rule ∈ grammar.nodes →
    grammar.rules.find rule = .body parser → good place parser cursor output →
      good place (.call rule) cursor output
  /-- Two cached parsers that share their entries share their matches. -/
  shared : ∀ {id cache parser parser' place cursor output},
    Parser.memo id cache parser ∈ grammar.nodes → Parser.memo id cache parser' ∈ grammar.nodes →
      good place parser cursor output → good place parser' cursor output

/-- Every node starts its parts at places that it has been led to. -/
def Grammar.Direct (grammar : Grammar α) : Prop :=
  ∀ move parser, Parser.redirected move parser ∉ grammar.nodes

/-! ## Every step keeps the contract -/

namespace Engine

/-- To tell whether a node marks a group takes room, and the rules on the way. -/
theorem restarts_error {rules : Rules α} {fuel : Nat} {parser : Parser α} {stop : Stop}
    (h : restarts rules fuel parser = .error stop) :
    stop = .tooDeep ∨ ∃ rule, stop = .pending rule ∧ rules.find rule = .pending := by
  induction fuel generalizing parser with
  | zero => exact Or.inl (Except.error.inj h).symm
  | succ fuel ih =>
      cases parser with
      | convert parser f => exact ih h
      | guarded id parser => exact ih h
      | memo id cache parser => exact ih h
      | clearing id cache parser => exact ih h
      | logged name parser => exact ih h
      | call rule =>
          simp only [restarts] at h
          cases hfind : rules.find rule with
          | missing => rw [hfind] at h; cases h
          | body parser => rw [hfind] at h; exact ih h
          | pending =>
              rw [hfind] at h
              exact Or.inr ⟨rule, (Except.error.inj h).symm, hfind⟩
      | _ => cases h

end Engine

/-- Calls of nodes on cursors in scope go the same way, and have good matches. -/
def GoodCalls (grammar : Grammar α) (good : Goodness α) (allowed : Stop → Prop) (start : Cursor α)
    (calls calls' : Nat → Call α) : Prop :=
  ∀ {scope : Scope α} {tags place : Nat} {parser : Parser α} {cursor : Cursor α}
    {engine : Engine α}, scope.start = start → parser ∈ grammar.nodes →
      scope.Covers tags place cursor → engine.Holds grammar good scope tags →
        Tracks allowed (calls place parser cursor) (calls' place parser cursor) engine
          (Leaves (Engine.Holds grammar good scope tags) (good place parser cursor))

namespace GoodCalls

variable {grammar : Grammar α} {good : Goodness α} {allowed : Stop → Prop}
  {calls calls' : Nat → Call α} {scope : Scope α} {tags place : Nat} {parser : Parser α}
  {cursor here : Cursor α} {engine : Engine α}

/-- A node calls a part where it stands itself. -/
theorem at_cursor (hcalls : GoodCalls grammar good allowed scope.start calls calls')
    (hpart : parser ∈ grammar.nodes) (hcovers : scope.Covers tags place cursor)
    (h : engine.Holds grammar good scope tags) :
    Tracks allowed (calls (handed place cursor cursor) parser cursor)
      (calls' (handed place cursor cursor) parser cursor) engine
      (Leaves (Engine.Holds grammar good scope tags) (good place parser cursor)) := by
  rw [hcovers.handed_self]
  exact hcalls rfl hpart hcovers h

/-- A node calls a part where other parts have led to. -/
theorem at_behind (hcalls : GoodCalls grammar good allowed scope.start calls calls')
    (hpart : parser ∈ grammar.nodes) (hcovers : scope.Covers tags place cursor)
    (hleads : cursor.Leads here) (h : engine.Holds grammar good scope tags) :
    Tracks allowed (calls (handed place cursor here) parser here)
      (calls' (handed place cursor here) parser here) engine
      (Leaves (Engine.Holds grammar good scope tags)
        (good (handed place cursor here) parser here)) :=
  hcalls rfl hpart (hcovers.handed hleads) h

/-- A node calls a part on a cursor that carries no operand. -/
theorem at_plain (hcalls : GoodCalls grammar good allowed scope.start calls calls')
    (hpart : parser ∈ grammar.nodes) (hreaches : scope.start.Reaches here)
    (hplain : here.left.isOperand = false) (h : engine.Holds grammar good scope tags) :
    Tracks allowed (calls (handed place cursor here) parser here)
      (calls' (handed place cursor here) parser here) engine
      (Leaves (Engine.Holds grammar good scope tags) (good here.offset parser here)) := by
  rw [handed_of_plain hplain]
  exact hcalls rfl hpart (.of_plain hreaches hplain) h

/-- A node puts a new operand in front of a part, with a tag that no operand has had. -/
theorem at_new {value : Option α} (hcalls : GoodCalls grammar good allowed scope.start calls calls')
    (hpart : parser ∈ grammar.nodes) (hcovers : scope.Covers tags place cursor)
    (hreaches : scope.start.Reaches here) (h : engine.Holds grammar good scope tags) :
    Tracks allowed
      (calls (handed place cursor (here.withLeft (.operand engine.nextTag value))) parser
        (here.withLeft (.operand engine.nextTag value)))
      (calls' (handed place cursor (here.withLeft (.operand engine.nextTag value))) parser
        (here.withLeft (.operand engine.nextTag value))) engine.tagged
      (Leaves (Engine.Holds grammar good scope tags)
        (good here.offset parser (here.withLeft (.operand engine.nextTag value)))) := by
  obtain ⟨later, hextends, hle, hsound⟩ := h
  have hplace : handed place cursor (here.withLeft (.operand engine.nextTag value)) = here.offset :=
    handed_of_new fun hkey => by
      cases hcursor : cursor.left with
      | empty => rw [hcursor] at hkey; cases hkey
      | rightOperand => rw [hcursor] at hkey; cases hkey
      | operand tag value =>
          rw [hcursor] at hkey
          obtain rfl := LeftKey.operand.inj hkey
          exact absurd (hcovers.operand _ value hcursor).1 (Nat.not_lt_of_le hle)
  rw [hplace]
  have hscope := hextends.trans (later.extends_put engine.nextTag value here.offset) hle
  refine (hcalls hscope.start_eq hpart (.put (hextends.start_eq ▸ hreaches) engine.nextTag)
    (.of_sound (hsound.tagged value here.offset))).mono ?_
  exact fun found engine' hleaves =>
    hleaves.mono (fun h => h.of_extends hscope (Nat.le_succ_of_le hle)) fun _ hgood => hgood

end GoodCalls

namespace Contract

variable {grammar : Grammar α} {supervisor supervisor' : Supervisor α} {good : Goodness α}
  {allowed : Stop → Prop} {calls calls' : Nat → Call α} {scope : Scope α} {tags place : Nat}
  {parser : Parser α} {parts : List (Parser α)} {cursor here : Cursor α} {engine : Engine α}

theorem tracks_parts (contract : Contract grammar supervisor good)
    (hcalls : GoodCalls grammar good allowed scope.start calls calls')
    (hparts : ∀ part ∈ parts, part ∈ grammar.nodes) (hcovers : scope.Covers tags place cursor)
    (hleads : cursor.Leads here) (h : engine.Holds grammar good scope tags) :
    Tracks allowed
      (Engine.inSequence (fun part next => calls (handed place cursor next) part next) parts here)
      (Engine.inSequence (fun part next => calls' (handed place cursor next) part next) parts here)
      engine fun found engine' => engine'.Holds grammar good scope tags ∧
        ∀ payloads next, found = some (payloads, next) →
          Chain good place cursor here parts payloads next := by
  refine Engine.tracks_inSequence
    (fun parts here => (∀ part ∈ parts, part ∈ grammar.nodes) ∧ cursor.Leads here)
    (fun parts here => Chain good place cursor here parts)
    (fun here _ => .nil here) ?_ ⟨hparts, hleads⟩ h
  rintro part parts here engine ⟨hparts, hleads⟩ h
  obtain ⟨hpart, hparts⟩ := List.forall_mem_cons.mp hparts
  refine (hcalls.at_behind hpart hcovers hleads h).mono fun found engine' hleaves => ?_
  refine hleaves.mono id fun output hgood => ⟨⟨hparts, hleads.trans (contract.leads hgood)⟩, ?_⟩
  exact fun payloads next htail => .cons hgood htail

theorem tracks_repeated {atLeast : Nat} {atMost : Option Nat} {collect : List α → α} {fuel : Nat}
    (contract : Contract grammar supervisor good)
    (hcalls : GoodCalls grammar good allowed scope.start calls calls')
    (hnode : .repeated parser atLeast atMost collect ∈ grammar.nodes)
    (hpart : parser ∈ grammar.nodes) (hcovers : scope.Covers tags place cursor)
    (hdeep : allowed .tooDeep) (h : engine.Holds grammar good scope tags) :
    Tracks allowed
      (Engine.repetition (fun part next => calls (handed place cursor next) part next) fuel parser
        atLeast atMost collect cursor)
      (Engine.repetition (fun part next => calls' (handed place cursor next) part next) fuel parser
        atLeast atMost collect cursor) engine
      (Leaves (Engine.Holds grammar good scope tags)
        (good place (.repeated parser atLeast atMost collect) cursor)) := by
  refine Engine.tracks_repetition
    (fun payloads count here =>
      Chain good place cursor cursor (List.replicate count parser) payloads.reverse here)
    (fun payloads count here =>
      Chain good place cursor cursor (List.replicate count parser) payloads.reverse here)
    (fun _ _ _ hchain => hchain) ?_ (Or.inl ⟨hdeep, rfl⟩) (.nil cursor) h ?_
  · intro payloads count here engine hchain h
    refine (hcalls.at_behind hpart hcovers (hchain.leads contract.leads) h).mono ?_
    intro found engine' hleaves
    refine hleaves.mono id fun output hgood => ?_
    have hlonger := hchain.snoc hgood
    rw [← List.replicate_succ', ← List.reverse_cons] at hlonger
    exact ⟨(contract.leads hgood).reaches.source_eq, fun _ => hlonger, hlonger⟩
  · exact fun payloads count next hchain hcount => contract.repeated hnode hchain hcount

theorem tracks_left (contract : Contract grammar supervisor good)
    (hcalls : GoodCalls grammar good allowed scope.start calls calls')
      (hpart : parser ∈ grammar.nodes)
    (hcovers : scope.Covers tags place cursor) (h : engine.Holds grammar good scope tags) :
    Tracks allowed
      (Engine.leftOperand (fun part next => calls (handed place cursor next) part next)
        parser cursor)
      (Engine.leftOperand (fun part next => calls' (handed place cursor next) part next) parser
        cursor) engine
      (Leaves (Engine.Holds grammar good scope tags) fun first => cursor.Leads first.next ∧
        (cursor.left = .empty ∧ good place parser cursor first ∨
          ∃ tag value, cursor.left = .operand tag (some value) ∧
            first = ⟨value, cursor.withoutLeft⟩)) := by
  refine Engine.tracks_leftOperand ?_ ?_ fun _ => Leaves.none h
  · intro hempty
    refine (hcalls.at_cursor hpart hcovers h).mono fun found engine' hleaves => ?_
    exact hleaves.mono id fun first hgood => ⟨contract.leads hgood, Or.inl ⟨hempty, hgood⟩⟩
  · intro tag value hleft
    exact Leaves.some h ⟨.withoutLeft cursor, Or.inr ⟨tag, value, hleft, rfl⟩⟩

/-- The fold, whose payload comes into scope with a new tag and is offered to the left operand. -/
theorem tracks_fold {left right : Parser α} {middle : List (Parser α)} {combine : List α → α}
    (contract : Contract grammar supervisor good)
    (hcalls : GoodCalls grammar good allowed scope.start calls calls')
    (hnode : .foldLeft left middle right combine ∈ grammar.nodes)
    (hcovers : scope.Covers tags place cursor) (h : engine.Holds grammar good scope tags) :
    Tracks allowed
      (Engine.foldStep (fun part next => calls (handed place cursor next) part next) left middle
        right combine cursor)
      (Engine.foldStep (fun part next => calls' (handed place cursor next) part next) left middle
        right combine cursor) engine
      (Leaves (Engine.Holds grammar good scope tags) fun output =>
        supervisor.fine place (.foldLeft left middle right combine) cursor (some output) = true →
          good place (.foldLeft left middle right combine) cursor output) := by
  obtain ⟨hleft, hmiddle, hright⟩ := Parser.forall_mem_children_foldLeft.mp
    fun part hpart => Grammar.child_mem_nodes hnode hpart
  refine Engine.tracks_foldStep ((contract.tracks_left hcalls hleft hcovers h).mono ?_)
  rintro (_ | first) engine ⟨h, hfirst⟩
  · exact Leaves.none h
  obtain ⟨hleads, hfirst⟩ := hfirst first rfl
  refine (contract.tracks_parts hcalls hmiddle hcovers hleads h).mono ?_
  rintro (_ | ⟨payloads, behind⟩) engine ⟨h, hchain⟩
  · exact Leaves.none h
  have hchain := hchain payloads behind rfl
  have hbehind := hcovers.reaches.trans (hleads.trans (hchain.leads contract.leads)).reaches
  refine Engine.tracks_rightOperand
    ((hcalls.at_plain hright (hbehind.withLeft .rightOperand) rfl h).mono ?_)
  rintro (_ | last) engine ⟨h, hlast⟩
  · exact Leaves.none h
  have hlast := hlast last rfl
  have hparts : FoldParts good place cursor left middle right first payloads behind last :=
    ⟨hfirst, hchain, hlast⟩
  have hlater := (hbehind.withLeft .rightOperand).trans (contract.leads hlast).reaches
  simp only [Option.map_some]
  refine (hcalls.at_new hleft hcovers (hlater.withLeft .empty) h).mono ?_
  rintro extended engine' ⟨h, hextended⟩
  refine ⟨h, ?_⟩
  rintro output ⟨⟩
  cases extended with
  | none => exact contract.folded hnode hparts
  | some extended =>
      by_cases hempty : extended.next.left.isEmpty = true
      · simp only [Engine.foldResult, hempty, if_true]
        exact contract.extended hnode hparts (hextended extended rfl) (Left.isEmpty_iff.mp hempty)
      · simp only [Engine.foldResult, hempty]
        exact contract.folded hnode hparts

theorem tracks_climb {id fuel : Nat} {alternatives : List (Parser α)}
    (contract : Contract grammar supervisor good)
    (hcalls : GoodCalls grammar good allowed scope.start calls calls')
    (hnode : .climb id alternatives ∈ grammar.nodes) (hcovers : scope.Covers tags place cursor)
    (hdeep : allowed .tooDeep)
    (hpending : ∀ rule, grammar.rules.find rule = .pending → allowed (.pending rule))
    (h : engine.Holds grammar good scope tags) :
    Tracks allowed
      (Engine.climbMatch (fun part next => calls (handed place cursor next) part next)
        (Engine.restarts grammar.rules fuel) id alternatives cursor)
      (Engine.climbMatch (fun part next => calls' (handed place cursor next) part next)
        (Engine.restarts grammar.rules fuel) id alternatives cursor) engine
      (Leaves (Engine.Holds grammar good scope tags)
        (good place (.climb id alternatives) cursor)) := by
  refine Engine.tracks_climbMatch ?_ ?_ ?_ h
  · refine fun active alternative _ _ => ⟨rfl, fun stop hstop => ?_⟩
    rcases Engine.restarts_error hstop with rfl | ⟨rule, rfl, hrule⟩
    · exact hdeep
    · exact hpending rule hrule
  · intro hplain engine h index alternative hget _
    have hmem := List.mem_of_getElem? hget
    refine Engine.tracks_attempt ((hcalls.at_plain (Grammar.child_mem_nodes hnode hmem)
      (hcovers.reaches.withLeft .empty) rfl (h.pushed id index)).mono ?_)
    intro found engine' hleaves
    exact hleaves.mono (fun h => h.popped id) fun output hgood =>
      contract.afresh hnode hmem hplain hgood
  · intro active alternative _ hget _
    have hmem := List.mem_of_getElem? hget
    refine Engine.tracks_attempt ((hcalls.at_cursor (Grammar.child_mem_nodes hnode hmem) hcovers
      (h.pushed id active)).mono fun found engine' hleaves => ?_)
    exact hleaves.mono (fun h => h.popped id) fun output hgood =>
      contract.passed hnode hmem hgood

theorem tracks_memo {id cache : Nat} (contract : Contract grammar supervisor good)
    (hcalls : GoodCalls grammar good allowed scope.start calls calls')
    (hnode : .memo id cache parser ∈ grammar.nodes) (hcovers : scope.Covers tags place cursor)
    (h : engine.Holds grammar good scope tags) :
    Tracks allowed
      (Engine.memoMatch (fun part next => calls (handed place cursor next) part next) id cache
        parser cursor)
      (Engine.memoMatch (fun part next => calls' (handed place cursor next) part next) id cache
        parser cursor) engine
      (Leaves (Engine.Holds grammar good scope tags)
        (good place (.memo id cache parser) cursor)) := by
  have hmem : parser ∈ (Parser.memo id cache parser).passed := List.mem_cons_self
  refine Engine.tracks_memoMatch rfl ?_ fun _ => ?_
  · intro result hentry
    refine ⟨h.counted cache _, ?_⟩
    rintro output rfl
    obtain ⟨later, hextends, hle, hsound⟩ := h
    exact contract.passed hnode hmem (hsound.replayed hnode (hcovers.wider hextends hle) hentry)
  · refine (hcalls.at_cursor (Grammar.child_mem_nodes hnode List.mem_cons_self) hcovers
      ((h.counted cache _).stored hcovers fun _ _ _ hnone => by cases hnone)).mono ?_
    intro result engine' hleaves
    refine ⟨hleaves.1.stored hcovers fun parser' hother output hresult => ?_, ?_⟩
    · exact contract.shared hnode hother (hleaves.2 output hresult)
    · exact fun output hresult => contract.passed hnode hmem (hleaves.2 output hresult)

section Here

/-! ### Nodes that call their parts where they stand -/

variable {call call' : Call α} {part : Parser α} {id fuel : Nat}

/-- Calls of nodes at a cursor go the same way, and have good matches. -/
def GoodHere (grammar : Grammar α) (good : Goodness α) (allowed : Stop → Prop) (scope : Scope α)
    (tags place : Nat) (cursor : Cursor α) (call call' : Call α) : Prop :=
  ∀ part ∈ grammar.nodes, ∀ engine : Engine α, engine.Holds grammar good scope tags →
    Tracks allowed (call part cursor) (call' part cursor) engine
      (Leaves (Engine.Holds grammar good scope tags) (good place part cursor))

/-- A part whose match is handed on as it is. -/
theorem tracks_passed (contract : Contract grammar supervisor good)
    (hhere : GoodHere grammar good allowed scope tags place cursor call call')
    (hnode : parser ∈ grammar.nodes) (hpart : part ∈ parser.passed)
    (h : engine.Holds grammar good scope tags) :
    Tracks allowed (call part cursor) (call' part cursor) engine
      (Leaves (Engine.Holds grammar good scope tags) (good place parser cursor)) := by
  have hmem := Grammar.child_mem_nodes hnode (Parser.mem_children_of_passed hpart)
  apply (hhere part hmem engine h).mono
  exact fun found engine' hleaves => hleaves.mono (fun h => h) fun output hgood =>
    contract.passed hnode hpart hgood

theorem tracks_endOfInput {payload : α} (contract : Contract grammar supervisor good)
    (hnode : .endOfInput payload ∈ grammar.nodes) (h : engine.Holds grammar good scope tags) :
    Tracks allowed (Engine.step grammar.rules fuel call (.endOfInput payload) cursor)
      (Engine.step grammar.rules fuel call' (.endOfInput payload) cursor) engine
      (Leaves (Engine.Holds grammar good scope tags) (good place (.endOfInput payload) cursor)) := by
  refine Tracks.pure ⟨h, fun output hfound => ?_⟩
  split at hfound
  · next hend =>
      obtain rfl := Option.some.inj hfound
      exact contract.endOfInput hnode hend
  · cases hfound

theorem tracks_except {excluded : List (Parser α)} (contract : Contract grammar supervisor good)
    (hhere : GoodHere grammar good allowed scope tags place cursor call call')
    (hnode : .except parser excluded ∈ grammar.nodes) (h : engine.Holds grammar good scope tags) :
    Tracks allowed (Engine.step grammar.rules fuel call (.except parser excluded) cursor)
      (Engine.step grammar.rules fuel call' (.except parser excluded) cursor) engine
      (Leaves (Engine.Holds grammar good scope tags)
        (good place (.except parser excluded) cursor)) := by
  refine Engine.tracks_unlessMatch (fun part hpart engine h => ?_) (fun engine h => ?_) h
  · have hmem := Grammar.child_mem_nodes hnode (List.mem_cons_of_mem parser hpart)
    apply (hhere part hmem engine h).mono
    exact fun found engine' hleaves => hleaves.mono (fun h => h) fun _ _ => trivial
  · exact contract.tracks_passed hhere hnode List.mem_cons_self h

theorem tracks_optional {wrap : Option α → α} (contract : Contract grammar supervisor good)
    (hhere : GoodHere grammar good allowed scope tags place cursor call call')
    (hnode : .optional parser wrap ∈ grammar.nodes) (h : engine.Holds grammar good scope tags) :
    Tracks allowed (Engine.step grammar.rules fuel call (.optional parser wrap) cursor)
      (Engine.step grammar.rules fuel call' (.optional parser wrap) cursor) engine
      (Leaves (Engine.Holds grammar good scope tags)
        (good place (.optional parser wrap) cursor)) := by
  have hmem := Grammar.child_mem_nodes hnode List.mem_cons_self
  refine Engine.tracks_optional ((hhere parser hmem engine h).mono ?_) (contract.absent hnode)
  exact fun found engine' hleaves => hleaves.mono (fun h => h) fun output hgood =>
    contract.present hnode hgood

theorem tracks_convert {f : α → Option α} (contract : Contract grammar supervisor good)
    (hhere : GoodHere grammar good allowed scope tags place cursor call call')
    (hnode : .convert parser f ∈ grammar.nodes) (h : engine.Holds grammar good scope tags) :
    Tracks allowed (Engine.step grammar.rules fuel call (.convert parser f) cursor)
      (Engine.step grammar.rules fuel call' (.convert parser f) cursor) engine
      (Leaves (Engine.Holds grammar good scope tags) (good place (.convert parser f) cursor)) := by
  have hmem := Grammar.child_mem_nodes hnode List.mem_cons_self
  apply Engine.tracks_convert
  apply (hhere parser hmem engine h).mono
  exact fun found engine' hleaves => hleaves.mono (fun h => h) fun output hgood payload hf =>
    contract.converted hnode hgood hf

theorem tracks_guarded (contract : Contract grammar supervisor good)
    (hhere : GoodHere grammar good allowed scope tags place cursor call call')
    (hnode : .guarded id parser ∈ grammar.nodes) (h : engine.Holds grammar good scope tags) :
    Tracks allowed (Engine.step grammar.rules fuel call (.guarded id parser) cursor)
      (Engine.step grammar.rules fuel call' (.guarded id parser) cursor) engine
      (Leaves (Engine.Holds grammar good scope tags) (good place (.guarded id parser) cursor)) := by
  apply Engine.tracks_guardedMatch
  · intro _
    apply (contract.tracks_passed hhere hnode List.mem_cons_self (h.entered id _)).mono
    exact fun found engine' hleaves => hleaves.mono (fun h => h.freed id _) fun _ hgood => hgood
  · exact fun _ => Leaves.none h

theorem tracks_clearing {cache : Nat} (contract : Contract grammar supervisor good)
    (hhere : GoodHere grammar good allowed scope tags place cursor call call')
    (hnode : .clearing id cache parser ∈ grammar.nodes)
    (h : engine.Holds grammar good scope tags) :
    Tracks allowed (Engine.step grammar.rules fuel call (.clearing id cache parser) cursor)
      (Engine.step grammar.rules fuel call' (.clearing id cache parser) cursor) engine
      (Leaves (Engine.Holds grammar good scope tags)
        (good place (.clearing id cache parser) cursor)) := by
  apply Engine.tracks_clearingMatch
  apply (contract.tracks_passed hhere hnode List.mem_cons_self (h.descended id)).mono
  exact fun found engine' hleaves => hleaves.mono (fun h => h.ended id cache) fun _ hgood => hgood

theorem tracks_logged {name : String} (contract : Contract grammar supervisor good)
    (hhere : GoodHere grammar good allowed scope tags place cursor call call')
    (hnode : .logged name parser ∈ grammar.nodes) (h : engine.Holds grammar good scope tags) :
    Tracks allowed (Engine.step grammar.rules fuel call (.logged name parser) cursor)
      (Engine.step grammar.rules fuel call' (.logged name parser) cursor) engine
      (Leaves (Engine.Holds grammar good scope tags) (good place (.logged name parser) cursor)) := by
  apply Engine.tracks_loggedMatch
  apply (contract.tracks_passed hhere hnode List.mem_cons_self (h.recorded _)).mono
  exact fun found engine' hleaves => hleaves.mono (fun h => h.recorded _) fun _ hgood => hgood

theorem tracks_call {rule : Nat} (contract : Contract grammar supervisor good)
    (hhere : GoodHere grammar good allowed scope tags place cursor call call')
    (hnode : .call rule ∈ grammar.nodes)
    (hpending : ∀ rule, grammar.rules.find rule = .pending → allowed (.pending rule))
    (h : engine.Holds grammar good scope tags) :
    Tracks allowed (Engine.step grammar.rules fuel call (.call rule) cursor)
      (Engine.step grammar.rules fuel call' (.call rule) cursor) engine
      (Leaves (Engine.Holds grammar good scope tags) (good place (.call rule) cursor)) := by
  refine Engine.tracks_call (fun body hbody => ?_) (fun _ => Leaves.none h) (hpending rule)
  apply (hhere body (Grammar.body_mem_nodes hbody) engine h).mono
  exact fun found engine' hleaves => hleaves.mono (fun h => h) fun output hgood =>
    contract.called hnode hbody hgood

end Here

theorem tracks_sequence {fuel : Nat} {combine : List α → α}
    (contract : Contract grammar supervisor good)
    (hcalls : GoodCalls grammar good allowed scope.start calls calls')
    (hnode : .sequence parts combine ∈ grammar.nodes) (hcovers : scope.Covers tags place cursor)
    (h : engine.Holds grammar good scope tags) :
    Tracks allowed
      (Engine.step grammar.rules fuel (fun part next => calls (handed place cursor next) part next)
        (.sequence parts combine) cursor)
      (Engine.step grammar.rules fuel (fun part next => calls' (handed place cursor next) part next)
        (.sequence parts combine) cursor) engine
      (Leaves (Engine.Holds grammar good scope tags)
        (good place (.sequence parts combine) cursor)) := by
  have hparts : ∀ part ∈ parts, part ∈ grammar.nodes :=
    fun part hpart => Grammar.child_mem_nodes hnode hpart
  apply Tracks.bind
  apply (contract.tracks_parts hcalls hparts hcovers (.refl cursor) h).mono
  rintro (_ | ⟨payloads, next⟩) engine' ⟨h, hchain⟩
  · exact Tracks.pure (Leaves.none h)
  · exact Tracks.pure (Leaves.some h (contract.sequence hnode (hchain payloads next rfl)))

/-! ### All nodes -/

/-- One step of the interpreter; only for folds does the supervisor have to vouch. -/
theorem tracks_step {fuel : Nat} (contract : Contract grammar supervisor good)
    (hdirect : grammar.Direct) (hcalls : GoodCalls grammar good allowed scope.start calls calls')
    (hnode : parser ∈ grammar.nodes) (hcovers : scope.Covers tags place cursor)
    (hdeep : allowed .tooDeep)
    (hpending : ∀ rule, grammar.rules.find rule = .pending → allowed (.pending rule))
    (h : engine.Holds grammar good scope tags) :
    Tracks allowed
      (Engine.step grammar.rules fuel (fun part next => calls (handed place cursor next) part next)
        parser cursor)
      (Engine.step grammar.rules fuel (fun part next => calls' (handed place cursor next) part next)
        parser cursor) engine
      (Leaves (Engine.Holds grammar good scope tags) fun output =>
        supervisor.fine place parser cursor (some output) = true →
          good place parser cursor output) := by
  have hhere : GoodHere grammar good allowed scope tags place cursor
      (fun part next => calls (handed place cursor next) part next)
      (fun part next => calls' (handed place cursor next) part next) :=
    fun part hpart engine h => hcalls.at_cursor hpart hcovers h
  cases parser with
  | satisfy accepts payload =>
      exact Tracks.pure ⟨h, fun output hfound _ => contract.satisfy hnode hfound⟩
  | literal chars payload =>
      exact Tracks.pure ⟨h, fun output hfound _ => contract.literal hnode hfound⟩
  | endOfInput payload => exact (contract.tracks_endOfInput hnode h).leaves_imp
  | except parser excluded => exact (contract.tracks_except hhere hnode h).leaves_imp
  | firstOf alternatives =>
      exact (Engine.tracks_firstMatch (fun part hpart engine h =>
        contract.tracks_passed hhere hnode hpart h) h).leaves_imp
  | longestOf alternatives =>
      exact (Engine.tracks_longestMatch (fun part hpart engine h =>
        contract.tracks_passed hhere hnode hpart h) (fun _ hnone => by cases hnone) h).leaves_imp
  | sequence parts combine => exact (contract.tracks_sequence hcalls hnode hcovers h).leaves_imp
  | foldLeft left middle right combine => exact contract.tracks_fold hcalls hnode hcovers h
  | repeated parser atLeast atMost collect =>
      have hmem := Grammar.child_mem_nodes hnode List.mem_cons_self
      exact (contract.tracks_repeated hcalls hnode hmem hcovers hdeep h).leaves_imp
  | optional parser wrap => exact (contract.tracks_optional hhere hnode h).leaves_imp
  | convert parser f => exact (contract.tracks_convert hhere hnode h).leaves_imp
  | guarded id parser => exact (contract.tracks_guarded hhere hnode h).leaves_imp
  | climb id alternatives =>
      exact (contract.tracks_climb hcalls hnode hcovers hdeep hpending h).leaves_imp
  | nested parser =>
      have hpassed := contract.tracks_passed hhere hnode List.mem_cons_self h
      exact hpassed.leaves_imp
  | memo id cache parser => exact (contract.tracks_memo hcalls hnode hcovers h).leaves_imp
  | clearing id cache parser => exact (contract.tracks_clearing hhere hnode h).leaves_imp
  | logged name parser => exact (contract.tracks_logged hhere hnode h).leaves_imp
  | call rule => exact (contract.tracks_call hhere hnode hpending h).leaves_imp
  | redirected move parser => exact absurd hnode (hdirect move parser)

/-! ## Every run keeps the contract -/

/--
Two supervisors who judge good matches alike let every run go the same way, and all its matches are
good.
-/
theorem tracks_run (contract : Contract grammar supervisor' good) (hdirect : grammar.Direct)
    {alarm : Stop} {start : Cursor α}
    (hagree : ∀ place parser cursor result, start.Reaches cursor →
      (∀ output, result = some output → supervisor'.fine place parser cursor (some output) = true →
        good place parser cursor output) →
      supervisor.fine place parser cursor result = supervisor'.fine place parser cursor result)
    (halarm : ∀ place parser cursor result,
      supervisor'.fine place parser cursor result = false → allowed alarm)
    (hdeep : allowed .tooDeep)
    (hpending : ∀ rule, grammar.rules.find rule = .pending → allowed (.pending rule))
    (fuel : Nat) :
    GoodCalls grammar good allowed start (supervisor.run alarm grammar.rules fuel)
      (supervisor'.run alarm grammar.rules fuel) := by
  induction fuel with
  | zero => exact fun _ _ _ _ => Tracks.throw hdeep
  | succ fuel ih =>
      rintro scope tags place parser cursor engine rfl hnode hcovers h
      refine Supervisor.tracks_run_succ (halarm place parser cursor) ?_
      refine (contract.tracks_step hdirect ih hnode hcovers hdeep hpending h).mono ?_
      rintro result engine' ⟨h, hgood⟩
      refine ⟨hagree place parser cursor result hcovers.reaches hgood, fun hfine => ⟨h, ?_⟩⟩
      rintro output rfl
      exact hgood output rfl hfine

end Contract

end Packrat
