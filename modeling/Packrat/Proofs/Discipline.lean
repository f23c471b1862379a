import Mathlib.Data.List.Basic
import Packrat.Diagram
import Packrat.Proofs.Contract

/-!
# Where matches end

Every match of every call stands on the text of its call, between two characters, at or behind the
place of the call, and has the left context of the call or none.  So no run can be sent past the end
of a text, and the place that a failure reports has one character in front of it.
-/

namespace Packrat

open Text (byteLength dropBytes)

variable {α : Type}

/-! ## Places between characters -/

/-- The offset stands between two characters of the text, or at one of its ends. -/
def Source.Boundary (source : Source) (offset : Nat) : Prop :=
  ∃ before after, source.chars = before ++ after ∧ byteLength before = offset

theorem Source.boundary_zero (source : Source) : source.Boundary 0 :=
  ⟨[], source.chars, rfl, rfl⟩

theorem Source.Boundary.le {source : Source} {offset : Nat} (h : source.Boundary offset) :
    offset ≤ source.size := by
  obtain ⟨before, after, hchars, rfl⟩ := h
  rw [source.size_eq, hchars, Text.byteLength_append]
  exact Nat.le_add_right _ _

/-- Taking characters leads from one place between characters to another. -/
theorem Cursor.Reaches.boundary {cursor next : Cursor α} (h : cursor.Reaches next)
    (hboundary : cursor.source.Boundary cursor.offset) :
    next.source.Boundary next.offset := by
  obtain ⟨taken, htakes⟩ := h
  obtain ⟨before, after, hchars, hoffset⟩ := hboundary
  have hafter : after = taken ++ next.rest := by
    rw [← htakes.rest_eq, cursor.rest_eq, hchars, ← hoffset, Text.dropBytes_append]
  refine ⟨before ++ taken, next.rest, ?_, ?_⟩
  · rw [htakes.source_eq, hchars, hafter, List.append_assoc]
  · rw [Text.byteLength_append, hoffset, htakes.offset_eq]

/--
In front of the end of a text, the mark under a place between characters is one character wide.
-/
theorem Diagram.caretSpan_of_boundary {source : Source} {offset : Nat}
    (h : source.Boundary offset) (hlt : offset < source.size) :
    ∃ before c after, source.chars = before ++ c :: after ∧ byteLength before = offset ∧
      caretSpan source.chars offset = (offset, offset + c.utf8Size) := by
  obtain ⟨before, after, hchars, hoffset⟩ := h
  cases after with
  | nil =>
      rw [source.size_eq, hchars, List.append_nil, hoffset] at hlt
      exact absurd hlt (Nat.lt_irrefl _)
  | cons c after =>
      refine ⟨before, c, after, hchars, hoffset, ?_⟩
      rw [source.size_eq] at hlt
      rw [caretSpan, Nat.min_eq_left (Nat.le_of_lt hlt), hchars, ← hoffset, Text.dropBytes_append]
      rfl

/-! ## Discipline -/

/-- The match of a call at `cursor` goes on at a place that the call may lead to. -/
structure Cursor.Disciplined (cursor next : Cursor α) : Prop where
  source_eq : next.source = cursor.source
  boundary : cursor.source.Boundary next.offset
  not_before : cursor.offset ≤ next.offset
  not_past : next.offset ≤ cursor.source.size
  left : next.left = cursor.left ∨ next.left = .empty

theorem Cursor.Leads.disciplined {start cursor next : Cursor α} (h : cursor.Leads next)
    (hreaches : start.Reaches cursor) (hboundary : start.source.Boundary start.offset) :
    cursor.Disciplined next := by
  have hnext := (hreaches.trans h.reaches).boundary hboundary
  rw [h.reaches.source_eq] at hnext
  exact ⟨h.reaches.source_eq, hnext, h.reaches.offset_le, hnext.le, h.left⟩

open Classical in
/-- The supervisor to whom a match is fine if it goes on at a place that its call may lead to. -/
noncomputable def Supervisor.discipline : Supervisor α :=
  ⟨fun _ _ cursor found => decide (∀ output, found = some output → cursor.Disciplined output.next)⟩

theorem Supervisor.fine_discipline_iff {place : Nat} {parser : Parser α} {cursor : Cursor α}
    {found : Option (Output α)} : discipline.fine place parser cursor found = true ↔
      ∀ output, found = some output → cursor.Disciplined output.next := by
  simp only [discipline, decide_eq_true_eq]

theorem Engine.leads_takeChar {accepts : Char → Bool} {payload : Char → α} {cursor : Cursor α}
    {output : Output α} (h : takeChar accepts payload cursor = some output) :
    ∃ c, cursor.Takes [c] output.next ∧ output.next.left = cursor.left ∧
      output.payload = payload c ∧ accepts c = true := by
  unfold takeChar at h
  split at h
  · cases h
  · next c cs hrest =>
      split at h
      · next haccepts =>
          obtain rfl := Option.some.inj h
          exact ⟨c, .consume hrest, rfl, rfl, haccepts⟩
      · cases h

theorem Engine.leads_takeLiteral {chars : List Char} {payload : α} {cursor : Cursor α}
    {output : Output α} (h : takeLiteral chars payload cursor = some output) :
    cursor.Takes chars output.next ∧ output.next.left = cursor.left ∧ output.payload = payload := by
  unfold takeLiteral at h
  obtain ⟨tail, -, rfl⟩ := Option.map_eq_some_iff.mp h
  exact ⟨.consume tail.2, rfl, rfl⟩

/-- A match is good if it goes on at a place that its call leads to. -/
def Goodness.leads : Goodness α := fun _ _ cursor output => cursor.Leads output.next

/-- Every match goes on at a place that its call leads to. -/
theorem leads_contract (grammar : Grammar α) : Contract grammar .idle .leads where
  leads h := h
  satisfy _ h := by
    obtain ⟨c, htakes, hleft, -, -⟩ := Engine.leads_takeChar h
    exact ⟨⟨_, htakes⟩, Or.inl hleft⟩
  literal _ h := by
    obtain ⟨htakes, hleft, -⟩ := Engine.leads_takeLiteral h
    exact ⟨⟨_, htakes⟩, Or.inl hleft⟩
  endOfInput _ _ := .refl _
  passed _ _ h := h
  afresh _ _ _ h := (Cursor.Leads.withoutLeft _).trans h
  sequence _ h := h.leads id
  folded _ h _ := h.leads id
  extended _ h hextended hempty _ := (h.leads id).trans (hextended.replaced hempty)
  repeated _ h _ := h.leads id
  present _ h := h
  absent _ := .refl _
  converted _ h _ := h
  called _ _ h := h
  shared _ _ h := h

section Runs

variable {grammar : Grammar α} {engine : Engine α} {cursor : Cursor α}

/-- Supervision by discipline changes no run, and no run is sent past the end of its text. -/
theorem tracks_disciplined (hdirect : grammar.Direct) (hblank : engine.Blank)
    (hboundary : cursor.source.Boundary cursor.offset)
    (htag : ∀ tag value, cursor.left = .operand tag value → tag < engine.nextTag) (alarm : Stop)
    (fuel : Nat) :
    Tracks (fun stop => ∀ fault, stop ≠ .fault fault)
      (Supervisor.discipline.run alarm grammar.rules fuel cursor.offset grammar.entry cursor)
      (Engine.run grammar.rules fuel grammar.entry cursor) engine
      fun found _ => ∀ output, found = some output → cursor.Disciplined output.next := by
  have hcalls : GoodCalls grammar .leads (fun stop => ∀ fault, stop ≠ .fault fault) cursor
      (Supervisor.discipline.run alarm grammar.rules fuel)
      (Supervisor.idle.run alarm grammar.rules fuel) := by
    refine (leads_contract grammar).tracks_run hdirect ?_ ?_
      (fun _ h => by cases h) (fun _ _ _ h => by cases h) fuel
    · intro place parser here result hreaches hleads
      refine Supervisor.fine_discipline_iff.mpr fun output hresult => ?_
      exact (hleads output hresult rfl).disciplined hreaches hboundary
    · exact fun _ _ _ _ hfine => by cases hfine
  have htracks := hcalls rfl Grammar.entry_mem_nodes (.initial htag) (.of_sound (.of_blank hblank))
  rw [Supervisor.run_idle] at htracks
  refine htracks.mono fun found _ hleaves output hfound => ?_
  exact (hleaves.2 output hfound).disciplined (.refl cursor) hboundary

/--
A text that was parsed in part was left over from a place in front of one of its characters on.
-/
theorem leftover_boundary (hdirect : grammar.Direct) (hblank : engine.Blank) {source : Source}
    {offset : Nat} {payload : α} {engine' : Engine α}
    (hrun : grammar.parseText source engine = .ok (.error (.leftover offset payload), engine')) :
    source.Boundary offset ∧ offset < source.size := by
  have hstart : ∀ tag value, (Cursor.start source : Cursor α).left = .operand tag value →
      tag < engine.nextTag := fun _ _ hleft => by cases hleft
  have hblank' : Engine.Blank { engine with horizon := max engine.horizon source.size } := hblank
  have hparse : Tracks (fun stop => ∀ fault, stop ≠ .fault fault)
      (grammar.entry.parse grammar.rules (.start source))
      (grammar.entry.parse grammar.rules (.start source)) engine
      fun found _ => ∀ output, found = some output →
        (Cursor.start source).Disciplined output.next :=
    Engine.tracks_parse (tracks_disciplined hdirect hblank' source.boundary_zero hstart
      .tooDeep _).self
  obtain ⟨found, out, hfound, -⟩ := bind_eq_ok hrun
  have hanswer := (parseText_of_parse hfound).symm.trans hrun
  have hgood := hparse.of_ok hfound
  cases found with
  | none => cases hanswer
  | some output =>
      by_cases hlt : output.next.offset < source.size
      · rw [Source.answer, if_pos hlt] at hanswer
        cases hanswer
        exact ⟨(hgood output rfl).boundary, hlt⟩
      · rw [Source.answer, if_neg hlt] at hanswer
        cases hanswer

/--
Whatever a parser is built from, each call of a run on a place between two characters is
disciplined: supervision changes nothing, whatever the alarm would be.  Nothing is ever sent past
the end, and a failure that leaves text over reports a place with a character in front of it, which
is what the mark in a diagram spans.
-/
theorem run_disciplined (hdirect : grammar.Direct) (hblank : engine.Blank)
    (hboundary : cursor.source.Boundary cursor.offset)
    (htag : ∀ tag value, cursor.left = .operand tag value → tag < engine.nextTag) :
    (∀ alarm fuel,
      Supervisor.discipline.run alarm grammar.rules fuel cursor.offset grammar.entry cursor engine =
        Engine.run grammar.rules fuel grammar.entry cursor engine) ∧
      (∀ fuel fault,
        Engine.run grammar.rules fuel grammar.entry cursor engine ≠ .error (.fault fault)) ∧
      ∀ source offset payload engine',
        grammar.parseText source engine = .ok (.error (.leftover offset payload), engine') →
          ∃ before c after, source.chars = before ++ c :: after ∧ byteLength before = offset ∧
            Diagram.caretSpan source.chars offset = (offset, offset + c.utf8Size) := by
  refine ⟨fun alarm fuel => (tracks_disciplined hdirect hblank hboundary htag alarm fuel).same,
    fun fuel fault hfault => ?_, fun source offset payload engine' hrun => ?_⟩
  · have hends := (tracks_disciplined hdirect hblank hboundary htag .tooDeep fuel).ends
    rw [hfault] at hends
    exact hends fault rfl
  · obtain ⟨hplace, hlt⟩ := leftover_boundary hdirect hblank hrun
    exact Diagram.caretSpan_of_boundary hplace hlt

end Runs

/-- Sums of an accented letter, which takes two bytes. -/
def accented : Grammar String where
  rules := .ofBodies [.firstOf
    [.foldedLeft 0 (.call 0) [.literal ['+'] "+"] (.call 0) String.join, .literal ['é'] "é"]]
  entry := .call 0

/-- Of a sum that lacks its last operand, the sign in front of it is marked. -/
theorem accented_disciplined :
    (∀ alarm fuel,
      Supervisor.discipline.run alarm accented.rules fuel 0 accented.entry
          (.start (.ofString "é+é+")) .fresh =
        Engine.run accented.rules fuel accented.entry (.start (.ofString "é+é+")) .fresh) ∧
      ∃ engine', accented.parseText (.ofString "é+é+") .fresh =
          .ok (.error (.leftover 5 "é+é"), engine') ∧
        ∃ before c after, (Source.ofString "é+é+").chars = before ++ c :: after ∧
          byteLength before = 5 ∧
            Diagram.caretSpan (Source.ofString "é+é+").chars 5 = (5, 5 + c.utf8Size) := by
  have hdirect : accented.Direct := by
    simp [Grammar.Direct, Grammar.nodes, accented, Rules.nodes, Rules.ofBodies, Definition.nodes,
      Parser.nodes, Parser.nodesAll, Parser.foldedLeft]
  have hplace : (Cursor.start (.ofString "é+é+") : Cursor String).source.Boundary 0 :=
    Source.boundary_zero _
  obtain ⟨hsame, -, hleftover⟩ := run_disciplined hdirect Engine.blank_fresh hplace
    (fun _ _ hleft => by cases hleft)
  refine ⟨hsame, ?_⟩
  have hresult : (accented.parseText (.ofString "é+é+")).run' .fresh =
      .ok (.error (.leftover 5 "é+é")) := by
    decide +kernel
  cases hrun : accented.parseText (.ofString "é+é+") .fresh with
  | error stop =>
      rw [StateT.run', hrun] at hresult
      cases hresult
  | ok pair =>
      obtain ⟨result, engine'⟩ := pair
      rw [StateT.run', hrun] at hresult
      obtain rfl : result = .error (.leftover 5 "é+é") := Except.ok.inj hresult
      exact ⟨engine', rfl, hleftover _ _ _ _ hrun⟩

end Packrat
