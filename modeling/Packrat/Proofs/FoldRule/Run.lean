import Packrat.Proofs.FoldRule.Basic

/-!
# Running left-associative rules

What a call of a left-associative rule finds depends on where it comes from.  With nothing to the
left of the cursor it folds all steps behind the first atom.  The guarded left operand of the fold
is a call that finds an atom only, and so is a right operand.  Behind an operand the call folds the
steps that can be taken there, or leaves the operand where it is.  The proof goes by the length of
the text in front of the cursor: a step moves on, and so does what stands in front of the rule
itself.
-/

namespace Packrat

variable {α : Type}

namespace FoldRule

variable {rule : FoldRule α} {cursor next start here : Cursor α} {engine engine' : Engine α}
  {bytes fuel : Nat}

/-! ## States -/

/-- No guard of the rule is busy further on, and none but that of the fold at the offset itself. -/
structure Calm (rule : FoldRule α) (offset : Nat) (engine : Engine α) : Prop where
  owns : Idle (Parser.guardsAll rule.owns) (Parser.climbsAll rule.owns) offset engine
  later : ∀ further, offset < further → further ∉ engine.active.get rule.guard

namespace Calm

variable {offset further : Nat}

theorem untouched (h : rule.Calm offset engine) (hsame : Untouched engine engine') :
    rule.Calm offset engine' where
  owns := h.owns.untouched hsame
  later further hlt := by
    rw [hsame.active]
    exact h.later further hlt

theorem ahead (h : rule.Calm offset engine) (hle : offset ≤ further) :
    rule.Calm further engine where
  owns := h.owns.ahead hle
  later later hlt := h.later later (Nat.lt_of_le_of_lt hle hlt)

theorem entered (h : rule.Calm offset engine) :
    rule.Calm offset (engine.entered rule.guard offset) where
  owns := h.owns.entered rule.guard_unused offset
  later further hlt := by
    rw [Engine.active_entered_self, List.mem_cons, not_or]
    exact ⟨Nat.ne_of_gt hlt, h.later further hlt⟩

theorem of_rested (h : engine.Rested) (offset : Nat) : rule.Calm offset engine where
  owns := h.idle _ _ _
  later further _ := h.not_mem_active _ further

end Calm

/-- A bound on the depth of calls in front of so many bytes. -/
def depth (rule : FoldRule α) (bytes : Nat) : Nat := Parser.sizeAll rule.owns + 10 * bytes

/-! ## Atoms -/

/-- A parser of the rule that calls no rule finds what it settles on. -/
theorem yields_own {parser : Parser α} {output : Option (Output α)} (hmem : parser ∈ rule.owns)
    (hsettles : parser.Settles cursor output)
    (hfuel : Parser.sizeAll rule.owns + (cursor.source.size - cursor.offset) < fuel)
    (hcalm : rule.Calm cursor.offset engine) :
    Yields (Engine.run rule.grammar.rules fuel parser cursor) engine fun found engine' =>
      found = output ∧ Untouched engine engine' := by
  have hsize := Parser.size_le_of_mem hmem
  apply hsettles.runs
  · omega
  · exact hcalm.owns.mono (fun _ => Parser.mem_guardsAll hmem) fun _ => Parser.mem_climbsAll hmem

/-- A call of the rule tries the fold first, and then the atom. -/
theorem yields_call {post : Option (Output α) → Prop} {output : Option (Output α)}
    (hsettles : rule.atom.Settles cursor output)
    (hfuel : Parser.sizeAll rule.owns + (cursor.source.size - cursor.offset) < fuel)
    (hcalm : rule.Calm cursor.offset engine)
    (hfold : Yields (Engine.run rule.grammar.rules fuel rule.fold cursor) engine
      fun found engine' => post (found.or output) ∧ Untouched engine engine') :
    Yields (Engine.run rule.grammar.rules (fuel + 2) (.call 0) cursor) engine fun found engine' =>
      post found ∧ Untouched engine engine' := by
  have hcall : Engine.run rule.grammar.rules (fuel + 2) (.call 0) cursor =
      Engine.run rule.grammar.rules (fuel + 1) rule.expression cursor := by
    rw [Engine.run, Engine.step, find_rules]
  rw [hcall]
  apply Engine.yields_firstMatch_cons
  apply hfold.mono
  rintro found engine₁ ⟨hpost, hsame₁⟩
  cases found with
  | some found => exact ⟨hpost, hsame₁⟩
  | none =>
      apply Engine.yields_firstMatch_cons
      apply (yields_own rule.atom_mem_owns hsettles hfuel (hcalm.untouched hsame₁)).mono
      rintro found engine₂ ⟨rfl, hsame₂⟩
      cases found with
      | some found => exact ⟨hpost, hsame₁.trans hsame₂⟩
      | none => exact Engine.yields_firstMatch_nil ⟨hpost, hsame₁.trans hsame₂⟩

/-- Where the fold finds no left operand, a call of the rule finds an atom. -/
theorem yields_call_of_refused {output : Option (Output α)}
    (hsettles : rule.atom.Settles cursor output)
    (hfuel : Parser.sizeAll rule.owns + (cursor.source.size - cursor.offset) ≤ fuel)
    (hcalm : rule.Calm cursor.offset engine)
    (hrefused : Yields (Engine.leftOperand (Engine.run rule.grammar.rules fuel)
        (.guarded rule.guard (.call 0)) cursor) engine fun found engine' =>
      found = none ∧ Untouched engine engine') :
    Yields (Engine.run rule.grammar.rules (fuel + 3) (.call 0) cursor) engine fun found engine' =>
      found = output ∧ Untouched engine engine' := by
  apply yields_call hsettles (Nat.lt_succ_of_le hfuel) hcalm
  apply Engine.yields_foldStep
  apply hrefused.mono
  rintro _ engine₁ ⟨rfl, hsame⟩
  exact ⟨rfl, hsame⟩

/-- The guarded left operand of the fold is a call that finds an atom. -/
theorem yields_guarded {output : Option (Output α)} (hsettles : rule.atom.Settles cursor output)
    (hfuel : Parser.sizeAll rule.owns + (cursor.source.size - cursor.offset) ≤ fuel)
    (hleft : cursor.left = .empty) (hcalm : rule.Calm cursor.offset engine)
    (hfree : cursor.offset ∉ engine.active.get rule.guard) :
    Yields (Engine.run rule.grammar.rules (fuel + 5) (.guarded rule.guard (.call 0)) cursor) engine
      fun found engine' => found = output ∧ Untouched engine engine' := by
  apply Engine.yields_guardedMatch_free hfree
  have hcall : Yields (Engine.run rule.grammar.rules (fuel + 4) (.call 0) cursor)
      (engine.entered rule.guard cursor.offset) fun found engine' =>
        found = output ∧ Untouched (engine.entered rule.guard cursor.offset) engine' := by
    apply yields_call_of_refused hsettles (Nat.le_succ_of_le hfuel) hcalm.entered
    rw [Engine.leftOperand, hleft]
    apply Engine.yields_guardedMatch_busy
    · rw [Engine.active_entered_self]
      exact List.mem_cons_self
    · exact ⟨rfl, .refl _⟩
  apply hcall.mono
  rintro found engine₁ ⟨rfl, hsame⟩
  exact ⟨rfl, hsame.freed⟩

/-- A right operand is found as the last part of a step. -/
theorem yields_right (hfree : rule.FoldFree) (hleft : cursor.left = .empty)
    (hfuel : Parser.sizeAll rule.owns + (cursor.source.size - cursor.offset) ≤ fuel)
    (hcalm : rule.Calm cursor.offset engine) :
    Yields (Engine.rightOperand (Engine.run rule.grammar.rules (fuel + 3)) rule.last.parser cursor)
      engine fun found engine' =>
        rule.lastOperand.outcome rule.grammar.rules cursor = .ok found ∧
          Untouched engine engine' := by
  obtain ⟨output, hright, hsettles⟩ := Parser.settles_rightOperand
    (plain_of_mem_owns rule.lastOperand_mem_owns) hfree.last hleft
  have hfound : Yields (Engine.run rule.grammar.rules (fuel + 3) rule.last.parser
      (cursor.withLeft .rightOperand)) engine fun found engine' =>
        found = output ∧ Untouched engine engine' := by
    have hmem := rule.lastOperand_mem_owns
    rw [lastOperand] at hright hmem
    cases hlast : rule.last with
    | own parser =>
        rw [hlast] at hright hmem
        exact yields_own hmem hright (Nat.lt_add_right 2 (Nat.lt_succ_of_le hfuel)) hcalm
    | self =>
        rw [hlast] at hright
        apply yields_call_of_refused hright hfuel hcalm
        exact Yields.pure ⟨rfl, .refl engine⟩
  apply Engine.yields_rightOperand
  apply hfound.mono
  rintro found engine₁ ⟨rfl, hsame⟩
  exact ⟨hsettles.outcome _, hsame⟩

/-! ## Steps -/

/-- What goes on from an operand: the steps behind it, or nothing that takes the operand up. -/
def Extends (rule : FoldRule α) (x : α) (cursor : Cursor α) (output : Option (Output α)) : Prop :=
  (rule.Ended cursor ∧ ∀ found, output = some found → found.next.left.isEmpty = false) ∨
    ∃ found, output = some found ∧ rule.Folded x cursor found

/-- What calls of the rule find in front of less text than some bytes. -/
structure RunsBelow (rule : FoldRule α) (bytes : Nat) : Prop where
  alone : ∀ {fuel : Nat} {cursor : Cursor α} {engine : Engine α},
    cursor.source.size - cursor.offset < bytes → rule.depth bytes ≤ fuel → cursor.left = .empty →
      rule.Calm cursor.offset engine → cursor.offset ∉ engine.active.get rule.guard →
        Yields (Engine.run rule.grammar.rules fuel (.call 0) cursor) engine fun found engine' =>
          rule.Folds cursor found ∧ Untouched engine engine'
  behind : ∀ {fuel tag : Nat} {x : α} {cursor : Cursor α} {engine : Engine α},
    cursor.source.size - cursor.offset < bytes → rule.depth bytes ≤ fuel → cursor.left = .empty →
      rule.Calm cursor.offset engine →
        Yields (Engine.run rule.grammar.rules fuel (.call 0)
            (cursor.withLeft (.operand tag (some x)))) engine fun found engine' =>
          rule.Extends x cursor found ∧ Untouched engine engine'

theorem sizeAll_owns_le (rule : FoldRule α) : Parser.sizeAll rule.owns ≤
    rule.atom.size + Parser.sizeAll (rule.middle.map Element.parser) + rule.last.parser.size := by
  rw [owns, Parser.sizeAll, Nat.add_assoc]
  apply Nat.add_le_add_left
  induction rule.middle with
  | nil =>
      cases rule.last with
      | own parser => exact Nat.le_of_eq (Nat.add_comm _ _)
      | self => exact Nat.zero_le _
  | cons element middle ih =>
      rw [List.cons_append, List.map_cons, Parser.sizeAll]
      cases element with
      | own parser =>
          have hsize : (Element.own parser).parser.size = parser.size := rfl
          simp only [List.filterMap_cons, Element.own?, Parser.sizeAll]
          omega
      | self =>
          simp only [List.filterMap_cons, Element.own?]
          omega

/-- The bound on the depth of calls is more than the rule needs. -/
theorem depth_le_depthBound (rule : FoldRule α) {bytes horizon : Nat} (hle : bytes ≤ horizon + 1) :
    rule.depth bytes ≤ Engine.depthBound rule.grammar.rules rule.grammar.entry horizon := by
  have howns := rule.sizeAll_owns_le
  apply Engine.add_mul_le_depthBound _ _ _ hle
  simp [grammar, Rules.size, Rules.ofBodies, Definition.size, expression, fold, Parser.size,
    Parser.sizeAll, Parser.foldedLeft]
  omega

/-- A call finds from any state what it finds if nothing was parsed before. -/
theorem RunsBelow.outcome_eq (hbelow : rule.RunsBelow bytes)
    (hlt : cursor.source.size - cursor.offset < bytes) (hle : bytes ≤ cursor.source.size + 1)
    (hleft : cursor.left = .empty) {found : Option (Output α)} (h : rule.Folds cursor found) :
    rule.grammar.entry.outcome rule.grammar.rules cursor = .ok found := by
  have hrested := (Engine.rested_fresh (α := α)).withHorizon
    (max (Engine.fresh : Engine α).horizon cursor.source.size)
  have hfuel : rule.depth bytes ≤ Engine.depthBound rule.grammar.rules rule.grammar.entry
      (max (Engine.fresh : Engine α).horizon cursor.source.size) := by
    apply depth_le_depthBound
    omega
  have hparse : Yields (rule.grammar.entry.parse rule.grammar.rules cursor) .fresh
      fun output _ => rule.Folds cursor output := by
    apply yields_parse
    apply (hbelow.alone hlt hfuel hleft (.of_rested hrested _) (hrested.not_mem_active _ _)).mono
    rintro output engine' ⟨hfolds, -⟩
    exact hfolds
  obtain ⟨output, houtcome, hfolds⟩ := Parser.outcome_of_yields hparse
  rw [houtcome, hfolds.unique h]

section Steps

variable (hproper : rule.Proper) (hbelow : rule.RunsBelow (start.source.size - start.offset))
  (hfuel : rule.depth (start.source.size - start.offset) ≤ fuel) (hstart : start.left = .empty)
include hproper hbelow hfuel hstart

/-- An element finds what it does on its own, behind those in front of it. -/
theorem yields_element {before after : List (Element α)} {element : Element α} {payloads : List α}
    (helements : rule.middle ++ [rule.last] = before ++ element :: after)
    (hrow : InRow rule.grammar.rules (before.map Element.parser) start payloads here)
    (hcalm : rule.Calm start.offset engine) :
    Yields (Engine.run rule.grammar.rules (fuel + 1) element.parser here) engine
      fun found engine' => element.parser.outcome rule.grammar.rules here = .ok found ∧
        Untouched engine engine' := by
  unfold depth at hfuel
  obtain ⟨hleads, hleft⟩ := leads_elements helements hstart hrow
  have hsource := hleads.reaches.source_eq
  have hahead := hleads.reaches.offset_le
  cases element with
  | own parser =>
      have hmem : parser ∈ rule.owns := mem_owns_of_own (by rw [helements]; simp)
      obtain ⟨output, hsettles⟩ := Parser.settles (plain_of_mem_owns hmem) here
      have hroom : Parser.sizeAll rule.owns + (here.source.size - here.offset) < fuel + 1 := by
        rw [hsource]
        omega
      apply (yields_own hmem hsettles hroom (hcalm.ahead hahead)).mono
      rintro found engine₁ ⟨rfl, hsame⟩
      exact ⟨hsettles.outcome _, hsame⟩
  | self =>
      have hpast := hproper.offset_lt helements hstart hrow
      have hend := here.offset_le
      have hshorter : here.source.size - here.offset < start.source.size - start.offset := by
        rw [hsource] at hend ⊢
        omega
      apply (hbelow.alone hshorter (Nat.le_succ_of_le hfuel) hleft (hcalm.ahead hahead)
        (hcalm.later _ hpast)).mono
      rintro found engine₁ ⟨hfolds, hsame⟩
      refine ⟨hbelow.outcome_eq hshorter ?_ hleft hfolds, hsame⟩
      rw [hsource]
      omega

/-- The middle elements find what they do on their own, one behind another. -/
theorem yields_middle {before after : List (Element α)} {payloads : List α}
    (helements : rule.middle = before ++ after)
    (hrow : InRow rule.grammar.rules (before.map Element.parser) start payloads here)
    (hcalm : rule.Calm start.offset engine) :
    Yields (Engine.inSequence (Engine.run rule.grammar.rules (fuel + 1))
        (after.map Element.parser) here) engine fun result engine' =>
      InRow.Decided rule.grammar.rules (after.map Element.parser) here result ∧
        Untouched engine engine' := by
  induction after generalizing before payloads here engine with
  | nil => exact Engine.yields_inSequence_nil ⟨.nil here, .refl engine⟩
  | cons element after ih =>
      apply Engine.yields_inSequence_cons
      apply (yields_element hproper hbelow hfuel hstart
        (by rw [helements, List.append_assoc, List.cons_append]) hrow hcalm).mono
      rintro found engine₁ ⟨houtcome, hsame₁⟩
      cases found with
      | none =>
          refine ⟨?_, hsame₁⟩
          rintro payloads' next (_ | ⟨h, -⟩)
          cases houtcome.symm.trans h
      | some output =>
          have hrow' := hrow.append_one houtcome
          rw [← List.map_singleton, ← List.map_append] at hrow'
          apply (ih (by rw [helements, List.append_assoc, List.singleton_append]) hrow'
            (hcalm.untouched hsame₁)).mono
          rintro result engine₂ ⟨hresult, hsame₂⟩
          refine ⟨?_, hsame₁.trans hsame₂⟩
          cases result with
          | none =>
              rintro payloads' next (_ | ⟨h, hs⟩)
              cases houtcome.symm.trans h
              exact hresult _ _ hs
          | some result => exact .cons houtcome hresult

end Steps

/-- The fold offers its payload to a call of the rule, which goes on with the steps behind it. -/
theorem yields_extension (hbelow : rule.RunsBelow bytes) (hfuel : rule.depth bytes ≤ fuel)
    (hlt : next.source.size - next.offset < bytes) (hleft : next.left = .empty)
    (hcalm : rule.Calm next.offset engine) (hfree : next.offset ∉ engine.active.get rule.guard)
    (x : α) (tag : Nat) :
    Yields (Engine.run rule.grammar.rules (fuel + 1) (.guarded rule.guard (.call 0))
        (next.withLeft (.operand tag (some x)))) engine fun extended engine' =>
      rule.Folded x next (Engine.foldResult x next extended) ∧ Untouched engine engine' := by
  have hplace : (next.withLeft (.operand tag (some x))).offset ∉ engine.active.get rule.guard :=
    hfree
  apply Engine.yields_guardedMatch_free hplace
  apply (hbelow.behind hlt hfuel hleft hcalm.entered).mono
  rintro extended engine₁ ⟨hextends, hsame⟩
  refine ⟨?_, hsame.freed⟩
  rcases hextends with ⟨hended, hkept⟩ | ⟨found, rfl, hfolded⟩
  · have hresult : Engine.foldResult x next extended = ⟨x, next⟩ := by
      cases extended with
      | none => rfl
      | some found => rw [Engine.foldResult, hkept found rfl, if_neg Bool.false_ne_true]
    rw [hresult]
    exact ⟨⟨[], .nil next, rfl⟩, hended, hleft⟩
  · have hempty : found.next.left.isEmpty = true := Left.isEmpty_iff.mpr hfolded.left
    rw [Engine.foldResult, if_pos hempty]
    exact hfolded

/-- What a fold makes of an operand: it folds the steps behind it, if there is one. -/
def Turned (rule : FoldRule α) (x : α) (cursor : Cursor α) : Option (Output α) → Prop
  | none => rule.Ended cursor
  | some output => rule.Folded x cursor output

section Turns

variable (hproper : rule.Proper) (hfree : rule.FoldFree)
  (hbelow : rule.RunsBelow (start.source.size - start.offset))
  (hfuel : rule.depth (start.source.size - start.offset) ≤ fuel) (hstart : start.left = .empty)
include hproper hfree hbelow hfuel hstart

/-- Behind the middle elements: the right operand, and what goes on from the folded payload. -/
theorem yields_last {behind : Cursor α} {payloads : List α} {before : Engine α}
    (hmiddle : InRow rule.grammar.rules (rule.middle.map Element.parser) start payloads behind)
    (hcalm : rule.Calm start.offset engine) (hsame : Untouched before engine) (x : α) :
    Yields (Engine.rightOperand (Engine.run rule.grammar.rules (fuel + 3)) rule.last.parser behind)
      engine fun found engine' =>
        match found with
        | none => rule.Turned x start none ∧ Untouched before engine'
        | some last =>
            Yields (Engine.run rule.grammar.rules (fuel + 3) (.guarded rule.guard (.call 0))
                (last.next.withLeft (.operand engine'.nextTag
                  (some (rule.combine (x :: payloads ++ [last.payload])))))) engine'.tagged
              fun extended engine' =>
                rule.Turned x start (some (Engine.foldResult
                    (rule.combine (x :: payloads ++ [last.payload])) last.next extended)) ∧
                  Untouched before engine' := by
  obtain ⟨hleads, hleft⟩ := leads_elements rfl hstart hmiddle
  have hahead := hleads.reaches.offset_le
  have hroom : Parser.sizeAll rule.owns + (behind.source.size - behind.offset) ≤ fuel := by
    unfold depth at hfuel
    rw [hleads.reaches.source_eq]
    omega
  apply (yields_right hfree hleft hroom (hcalm.ahead hahead)).mono
  rintro found engine₁ ⟨houtcome, hsame₁⟩
  cases found with
  | none => exact ⟨ended_of_last hmiddle houtcome, hsame.trans hsame₁⟩
  | some last =>
      have hstep : rule.Step start (payloads ++ [last.payload]) last.next :=
        hmiddle.append_one houtcome
      have hmoved := hproper.consumes _ _ _ hstart hstep
      obtain ⟨hpast, hempty⟩ := hstep.leads hstart
      have hend := last.next.offset_le
      have hshorter : last.next.source.size - last.next.offset <
          start.source.size - start.offset := by
        rw [hpast.reaches.source_eq] at hend ⊢
        omega
      have hcalm₁ := hcalm.untouched (hsame₁.trans (.tagged engine₁))
      apply (yields_extension hbelow (Nat.le_add_right_of_le hfuel) hshorter hempty
        (hcalm₁.ahead (Nat.le_of_lt hmoved)) (hcalm₁.later _ hmoved) _ _).mono
      rintro extended engine₂ ⟨hfolded, hsame₂⟩
      exact ⟨.of_step hstep hfolded,
        hsame.trans (hsame₁.trans ((Untouched.tagged engine₁).trans hsame₂))⟩

/-- One step behind a left operand, and all the steps that go on from there. -/
theorem yields_turn {x : α} (hcalm : rule.Calm start.offset engine)
    (hoperand : Yields (Engine.leftOperand (Engine.run rule.grammar.rules (fuel + 3))
        (.guarded rule.guard (.call 0)) cursor) engine fun found engine' =>
      found = some ⟨x, start⟩ ∧ Untouched engine engine') :
    Yields (Engine.run rule.grammar.rules (fuel + 4) rule.fold cursor) engine fun found engine' =>
      rule.Turned x start found ∧ Untouched engine engine' := by
  apply Engine.yields_foldStep
  apply hoperand.mono
  rintro _ engine₁ ⟨rfl, hsame₁⟩
  have hcalm₁ := hcalm.untouched hsame₁
  apply (yields_middle hproper hbelow (Nat.le_add_right_of_le hfuel) hstart (List.nil_append _).symm
    (.nil start) hcalm₁).mono
  rintro result engine₂ ⟨hmiddle, hsame₂⟩
  have hsame := hsame₁.trans hsame₂
  cases result with
  | none => exact ⟨ended_of_middle hmiddle, hsame⟩
  | some result =>
      exact yields_last hproper hfree hbelow hfuel hstart hmiddle (hcalm₁.untouched hsame₂) hsame x

end Turns

/-! ## Calls -/

section Calls

variable (hproper : rule.Proper) (hfree : rule.FoldFree)
  (hbelow : ∀ shorter < bytes, rule.RunsBelow shorter)
  (hlt : cursor.source.size - cursor.offset < bytes) (hfuel : rule.depth bytes ≤ fuel + 8)
  (hleft : cursor.left = .empty) (hcalm : rule.Calm cursor.offset engine)
include hproper hfree hbelow hlt hfuel hleft hcalm

/-- With nothing to the left, a call folds the steps behind the first atom. -/
theorem yields_alone (hguard : cursor.offset ∉ engine.active.get rule.guard) :
    Yields (Engine.run rule.grammar.rules (fuel + 8) (.call 0) cursor) engine fun found engine' =>
      rule.Folds cursor found ∧ Untouched engine engine' := by
  unfold depth at hfuel
  obtain ⟨output, hsettles⟩ := Parser.settles (plain_of_mem_owns rule.atom_mem_owns) cursor
  have hatom := hsettles.outcome rule.grammar.rules
  have hoperand : Yields (Engine.leftOperand (Engine.run rule.grammar.rules (fuel + 5))
      (.guarded rule.guard (.call 0)) cursor) engine fun found engine' =>
        found = output ∧ Untouched engine engine' := by
    rw [Engine.leftOperand, hleft]
    exact yields_guarded hsettles (by omega) hleft hcalm hguard
  cases output with
  | none =>
      apply (yields_call_of_refused hsettles (by omega) hcalm hoperand).mono
      rintro _ engine₁ ⟨rfl, hsame⟩
      exact ⟨hatom, hsame⟩
  | some first =>
      have hleads := Parser.leads_of_outcome rule.direct rule.atom_mem_nodes hleft hatom
      have hempty : first.next.left = .empty := hleads.left.elim (·.trans hleft) id
      have hahead := hleads.reaches.offset_le
      have hshorter : first.next.source.size - first.next.offset < bytes := by
        rw [hleads.reaches.source_eq]
        omega
      have hdepth : rule.depth (first.next.source.size - first.next.offset) ≤ fuel + 2 := by
        unfold depth
        omega
      apply yields_call hsettles (by omega) hcalm
      apply (yields_turn hproper hfree (hbelow _ hshorter) hdepth hempty (hcalm.ahead hahead)
        hoperand).mono
      rintro found engine₁ ⟨hturned, hsame⟩
      refine ⟨?_, hsame⟩
      cases found with
      | none => exact ⟨first, hatom, ⟨[], .nil _, rfl⟩, hturned, hempty⟩
      | some found => exact ⟨first, hatom, hturned⟩

/-- Behind an operand, a call folds the steps there, or leaves the operand where it is. -/
theorem yields_behind (tag : Nat) (x : α) :
    Yields (Engine.run rule.grammar.rules (fuel + 8) (.call 0)
        (cursor.withLeft (.operand tag (some x)))) engine fun found engine' =>
      rule.Extends x cursor found ∧ Untouched engine engine' := by
  obtain ⟨output, hsettles, hkept⟩ := Parser.settles_operand
    (plain_of_mem_owns rule.atom_mem_owns) hfree.atom cursor tag (some x)
  have hdepth : rule.depth (cursor.source.size - cursor.offset) ≤ fuel + 2 := by
    unfold depth at hfuel ⊢
    omega
  have hroom : Parser.sizeAll rule.owns + (cursor.source.size - cursor.offset) < fuel + 6 := by
    unfold depth at hdepth
    omega
  have hcursor : (cursor.withLeft (.operand tag (some x))).withoutLeft = cursor :=
    Cursor.ext rfl rfl hleft.symm
  have hoperand : Yields (Engine.leftOperand (Engine.run rule.grammar.rules (fuel + 5))
      (.guarded rule.guard (.call 0)) (cursor.withLeft (.operand tag (some x)))) engine
      fun found engine' => found = some ⟨x, cursor⟩ ∧ Untouched engine engine' := by
    apply Yields.pure
    rw [hcursor]
    exact ⟨rfl, .refl engine⟩
  apply yields_call hsettles hroom hcalm
  apply (yields_turn hproper hfree (hbelow _ hlt) hdepth hleft hcalm hoperand).mono
  rintro found engine₁ ⟨hturned, hsame⟩
  refine ⟨?_, hsame⟩
  cases found with
  | none => exact .inl ⟨hturned, hkept⟩
  | some found => exact .inr ⟨found, rfl, hturned⟩

end Calls

/-- What calls of the rule find, by induction on the length of the text. -/
theorem runs_below (hproper : rule.Proper) (hfree : rule.FoldFree) (bytes : Nat) :
    rule.RunsBelow bytes := by
  induction bytes using Nat.strongRecOn with
  | ind bytes ih =>
      have hroom : ∀ {fuel}, rule.depth bytes ≤ fuel → bytes ≠ 0 → ∃ room, fuel = room + 8 := by
        intro fuel hfuel hpos
        unfold depth at hfuel
        exact Nat.exists_eq_add_of_le' (by omega)
      constructor
      · intro fuel cursor engine hlt hfuel hleft hcalm hguard
        obtain ⟨room, rfl⟩ := hroom hfuel (Nat.ne_zero_of_lt hlt)
        exact yields_alone hproper hfree ih hlt hfuel hleft hcalm hguard
      · intro fuel tag x cursor engine hlt hfuel hleft hcalm
        obtain ⟨room, rfl⟩ := hroom hfuel (Nat.ne_zero_of_lt hlt)
        exact yields_behind hproper hfree ih hlt hfuel hleft hcalm tag x

end FoldRule

end Packrat
