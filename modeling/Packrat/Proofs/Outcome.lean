import Packrat.Proofs.Answers
import Packrat.Proofs.Discipline

/-!
# Outcomes

The outcome of a parser at a cursor is what it returns there if nothing was parsed before.
-/

namespace Packrat

variable {α : Type} {rules : Rules α} {parser : Parser α} {cursor next : Cursor α}

/-- What a parser returns at a cursor if nothing was parsed before. -/
def Parser.outcome (rules : Rules α) (parser : Parser α) (cursor : Cursor α) :
    Except Stop (Option (Output α)) :=
  (parser.parse rules cursor).run' .fresh

theorem Parser.outcome_of_yields {post : Option (Output α) → Prop}
    (h : Yields (parser.parse rules cursor) .fresh fun output _ => post output) :
    ∃ output, parser.outcome rules cursor = .ok output ∧ post output := by
  obtain ⟨output, engine', hrun, hpost⟩ := h
  refine ⟨output, ?_, hpost⟩
  rw [outcome, StateT.run', hrun]
  rfl

/-- The payload and the end of what a parser matches at a cursor if nothing was parsed before. -/
def Parser.seen (rules : Rules α) (parser : Parser α) (cursor : Cursor α) :
    Except Stop (Option (α × Nat)) :=
  (parser.outcome rules cursor).map (Option.map fun output => (output.payload, output.next.offset))

/-- An outcome is known by what is seen of it. -/
theorem Parser.seen_eq_ok {found : Option (α × Nat)} (h : parser.seen rules cursor = .ok found) :
    ∃ output, parser.outcome rules cursor = .ok output ∧
      output.map (fun output => (output.payload, output.next.offset)) = found := by
  rw [seen] at h
  cases houtcome : parser.outcome rules cursor with
  | error stop =>
      rw [houtcome] at h
      cases h
  | ok output =>
      rw [houtcome] at h
      exact ⟨output, rfl, Except.ok.inj h⟩

section Leads

variable {grammar : Grammar α} {engine : Engine α}

/-- A run that nothing was stored before goes on at a place that its cursor leads to. -/
theorem Parser.tracks_leads (hdirect : grammar.Direct) (hnode : parser ∈ grammar.nodes)
    (hblank : engine.Blank) (hleft : cursor.left = .empty) (fuel : Nat) :
    Tracks (fun _ => True) (Engine.run grammar.rules fuel parser cursor)
      (Engine.run grammar.rules fuel parser cursor) engine
      fun found _ => ∀ output, found = some output → cursor.Leads output.next := by
  have htag : ∀ tag value, cursor.left = .operand tag value → tag < engine.nextTag := by
    intro tag value hoperand
    rw [hleft] at hoperand
    cases hoperand
  have hcalls : GoodCalls grammar .leads (fun _ => True) cursor
      (Supervisor.idle.run .tooDeep grammar.rules fuel)
      (Supervisor.idle.run .tooDeep grammar.rules fuel) :=
    (leads_contract grammar).tracks_run hdirect (fun _ _ _ _ _ _ => rfl) (fun _ _ _ _ _ => trivial)
      trivial (fun _ _ => trivial) fuel
  have htracks := hcalls rfl hnode (.initial htag) (.of_sound (.of_blank hblank))
  rw [Supervisor.run_idle] at htracks
  exact htracks.mono fun found _ hleaves => hleaves.2

theorem Parser.leads_of_outcome (hdirect : grammar.Direct) (hnode : parser ∈ grammar.nodes)
    (hleft : cursor.left = .empty) {output : Output α}
    (h : parser.outcome grammar.rules cursor = .ok (some output)) : cursor.Leads output.next := by
  have hblank : Engine.Blank { (Engine.fresh : Engine α) with
      horizon := max (Engine.fresh : Engine α).horizon cursor.source.size } := Engine.blank_fresh
  rw [outcome, StateT.run'] at h
  cases hrun : parser.parse grammar.rules cursor .fresh with
  | error stop =>
      rw [hrun] at h
      cases h
  | ok result =>
      obtain ⟨found, engine'⟩ := result
      rw [hrun] at h
      obtain rfl : found = some output := Except.ok.inj h
      have htracks := Engine.tracks_parse (tracks_leads hdirect hnode hblank hleft _)
      exact htracks.of_ok hrun output rfl

/-- With nothing to the left, the end of a match is a place of the text with nothing to its left. -/
theorem Parser.outcome_of_seen (hdirect : grammar.Direct) (hnode : parser ∈ grammar.nodes)
    (hleft : cursor.left = .empty) {payload : α} (hsource : next.source = cursor.source)
    (hempty : next.left = .empty)
    (h : parser.seen grammar.rules cursor = .ok (some (payload, next.offset))) :
    parser.outcome grammar.rules cursor = .ok (some ⟨payload, next⟩) := by
  obtain ⟨output, houtcome, hseen⟩ := seen_eq_ok h
  obtain ⟨output, rfl, hpair⟩ := Option.map_eq_some_iff.mp hseen
  have hleads := leads_of_outcome hdirect hnode hleft houtcome
  have hnext : output.next = next := by
    apply Cursor.ext
    · rw [hleads.reaches.source_eq, hsource]
    · exact (Prod.mk.inj hpair).2
    · rw [hempty]
      exact hleads.left.elim (·.trans hleft) id
  rw [houtcome, ← hnext, ← (Prod.mk.inj hpair).1]

end Leads

/-! ## Parsers in a row -/

/-- The parsers match one after another, with these payloads, up to a cursor. -/
inductive InRow (rules : Rules α) : List (Parser α) → Cursor α → List α → Cursor α → Prop
  | nil (cursor : Cursor α) : InRow rules [] cursor [] cursor
  | cons {parser : Parser α} {parsers : List (Parser α)} {cursor next : Cursor α}
      {output : Output α} {payloads : List α}
      (h : parser.outcome rules cursor = .ok (some output))
      (hs : InRow rules parsers output.next payloads next) :
      InRow rules (parser :: parsers) cursor (output.payload :: payloads) next

/-- What comes of parsers in a row: the payloads and the cursor behind, or that not all match. -/
def InRow.Decided (rules : Rules α) (parsers : List (Parser α)) (cursor : Cursor α) :
    Option (List α × Cursor α) → Prop
  | none => ∀ payloads next, ¬ InRow rules parsers cursor payloads next
  | some (payloads, next) => InRow rules parsers cursor payloads next

namespace InRow

variable {parsers : List (Parser α)} {payloads payloads' : List α} {next' : Cursor α}

/-- A row of parsers matches in one way at most. -/
theorem unique (h : InRow rules parsers cursor payloads next)
    (h' : InRow rules parsers cursor payloads' next') : payloads = payloads' ∧ next = next' := by
  induction h generalizing payloads' with
  | nil cursor =>
      cases h'
      exact ⟨rfl, rfl⟩
  | cons h hs ih =>
      cases h' with
      | cons h' hs' =>
          rw [h] at h'
          cases h'
          obtain ⟨rfl, rfl⟩ := ih hs'
          exact ⟨rfl, rfl⟩

theorem append_one {output : Output α} (h : InRow rules parsers cursor payloads next)
    (hlast : parser.outcome rules next = .ok (some output)) :
    InRow rules (parsers ++ [parser]) cursor (payloads ++ [output.payload]) output.next := by
  induction h with
  | nil cursor => exact .cons hlast (.nil _)
  | cons h _ ih => exact .cons h (ih hlast)

/-- What matches in a row and one more matches in that row first. -/
theorem exists_of_append_one (h : InRow rules (parsers ++ [parser]) cursor payloads next) :
    ∃ payloads' mid output, InRow rules parsers cursor payloads' mid ∧
      parser.outcome rules mid = .ok (some output) ∧ payloads = payloads' ++ [output.payload] ∧
        next = output.next := by
  induction parsers generalizing cursor payloads with
  | nil =>
      cases h with
      | cons h hs =>
          cases hs
          exact ⟨[], _, _, .nil _, h, rfl, rfl⟩
  | cons first parsers ih =>
      cases h with
      | cons h hs =>
          obtain ⟨payloads', mid, output, hrow, hlast, rfl, rfl⟩ := ih hs
          exact ⟨_, mid, output, .cons h hrow, hlast, rfl, rfl⟩

theorem leads {grammar : Grammar α} (hdirect : grammar.Direct)
    (hnodes : ∀ parser ∈ parsers, parser ∈ grammar.nodes) (hleft : cursor.left = .empty)
    (h : InRow grammar.rules parsers cursor payloads next) :
    cursor.Leads next ∧ next.left = .empty := by
  induction h with
  | nil cursor => exact ⟨.refl cursor, hleft⟩
  | cons h hs ih =>
      obtain ⟨hnode, hnodes⟩ := List.forall_mem_cons.mp hnodes
      have hleads := Parser.leads_of_outcome hdirect hnode hleft h
      obtain ⟨hrest, hempty⟩ := ih hnodes (hleads.left.elim (·.trans hleft) id)
      exact ⟨hleads.trans hrest, hempty⟩

end InRow

/-! ## Parsers that match no empty text -/

/-- The parser matches no empty text. -/
def Parser.Consuming (rules : Rules α) (parser : Parser α) : Prop :=
  ∀ cursor output, cursor.left = .empty → parser.outcome rules cursor = .ok (some output) →
    cursor.offset < output.next.offset

theorem Parser.outcome_literal (rules : Rules α) (chars : List Char) (payload : α)
    (cursor : Cursor α) : (Parser.literal chars payload).outcome rules cursor =
      .ok (Engine.takeLiteral chars payload cursor) := by
  obtain ⟨fuel, hfuel⟩ := Nat.exists_eq_add_of_lt (Engine.add_lt_depthBound rules
    (.literal chars payload)
    (Nat.zero_le (max (Engine.fresh : Engine α).horizon cursor.source.size)))
  have hparse : Yields ((Parser.literal chars payload).parse rules cursor) .fresh fun output _ =>
      output = Engine.takeLiteral chars payload cursor := by
    apply yields_parse
    rw [hfuel]
    exact Yields.pure rfl
  obtain ⟨output, houtcome, rfl⟩ := outcome_of_yields hparse
  exact houtcome

/-- A literal matches no empty text unless it is empty itself. -/
theorem Parser.consuming_literal (rules : Rules α) {chars : List Char} (payload : α)
    (hchars : chars ≠ []) : (Parser.literal chars payload).Consuming rules := by
  intro cursor output hleft h
  rw [outcome_literal] at h
  obtain ⟨htakes, -, -⟩ := Engine.leads_takeLiteral (Except.ok.inj h)
  have hpos : Text.byteLength chars ≠ 0 :=
    fun hzero => hchars (Text.byteLength_eq_zero_iff.mp hzero)
  rw [htakes.offset_eq]
  omega

/-- Parsers in a row match no empty text if one of them does not. -/
theorem InRow.offset_lt {grammar : Grammar α} {parsers : List (Parser α)} {payloads : List α}
    (hdirect : grammar.Direct) (hnodes : ∀ parser ∈ parsers, parser ∈ grammar.nodes)
    (hmem : parser ∈ parsers) (hconsuming : parser.Consuming grammar.rules)
    (hleft : cursor.left = .empty)
    (h : InRow grammar.rules parsers cursor payloads next) : cursor.offset < next.offset := by
  induction h with
  | nil cursor => cases hmem
  | cons h hs ih =>
      obtain ⟨hfirst, hrest⟩ := List.forall_mem_cons.mp hnodes
      have hleads := Parser.leads_of_outcome hdirect hfirst hleft h
      have hempty := hleads.left.elim (·.trans hleft) id
      rcases List.mem_cons.mp hmem with rfl | hmem
      · obtain ⟨hbehind, -⟩ := hs.leads hdirect hrest hempty
        exact Nat.lt_of_lt_of_le (hconsuming _ _ hleft h) hbehind.reaches.offset_le
      · exact Nat.lt_of_le_of_lt hleads.reaches.offset_le (ih hrest hmem hempty)

end Packrat
