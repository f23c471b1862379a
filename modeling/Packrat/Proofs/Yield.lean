import Mathlib.Data.List.Basic
import Packrat.Proofs.Discipline

/-!
# What matches are made of

Where literals and characters stand for themselves and everything else is joined in order, the
payload of a match has the characters of the text that was taken, and no others.  A carried operand
is the one thing that can end up out of order: it stood in front of its place, and a fold that takes
it up further on puts it in front of what it finds there.  Where no fold does so, the payload is the
text that was taken.
-/

namespace Packrat

variable {α : Type}

/-! ## Faithful grammars -/

/--
The node gives for its match the texts of its parts in order, and for what it takes itself that.
-/
def Parser.Faithful (text : α → List Char) : Parser α → Prop
  | .satisfy accepts payload => ∀ c, accepts c = true → text (payload c) = [c]
  | .literal chars payload => text payload = chars
  | .endOfInput payload => text payload = []
  | .sequence _ combine | .foldLeft _ _ _ combine | .repeated _ _ _ combine =>
      ∀ payloads, text (combine payloads) = payloads.flatMap text
  | .optional _ wrap => text (wrap none) = [] ∧ ∀ payload, text (wrap (some payload)) = text payload
  | .convert _ f => ∀ payload payload', f payload = some payload' → text payload' = text payload
  | .redirected _ _ => False
  | _ => True

/-- All nodes are faithful. -/
def Grammar.Faithful (grammar : Grammar α) (text : α → List Char) : Prop :=
  ∀ node ∈ grammar.nodes, node.Faithful text

theorem Grammar.Faithful.direct {grammar : Grammar α} {text : α → List Char}
    (h : grammar.Faithful text) : grammar.Direct :=
  fun move parser hmem => h (.redirected move parser) hmem

/-- Finds fault with a fold that takes up an operand further on than it was put. -/
def Supervisor.adjacency : Supervisor α where
  fine place parser cursor found :=
    match parser, found with
    | .foldLeft _ _ _ _, some _ => !cursor.left.isOperand || place == cursor.offset
    | _, _ => true

/-! ## Texts that were taken -/

/-- The characters are those that were taken, in the same order if that is asked for. -/
def Spells (ordered : Bool) (taken chars : List Char) : Prop :=
  chars.Perm taken ∧ (ordered = true → chars = taken)

namespace Spells

variable {ordered : Bool} {taken taken' chars chars' carried : List Char}

theorem refl (ordered : Bool) (chars : List Char) : Spells ordered chars chars :=
  ⟨.refl chars, fun _ => rfl⟩

theorem append (h : Spells ordered taken chars) (h' : Spells ordered taken' chars') :
    Spells ordered (taken ++ taken') (chars ++ chars') :=
  ⟨h.1.append h'.1, fun hordered => by rw [h.2 hordered, h'.2 hordered]⟩

theorem trans (h : Spells ordered taken' taken) (h' : Spells ordered taken chars) :
    Spells ordered taken' chars :=
  ⟨h'.1.trans h.1, fun hordered => (h'.2 hordered).trans (h.2 hordered)⟩

/-- What is carried goes in front of what was taken before it was taken up. -/
theorem carried_append (h : Spells ordered taken chars)
    (h' : Spells ordered (carried ++ taken') chars')
    (hnil : ordered = true → carried = [] ∨ taken = []) :
    Spells ordered (carried ++ (taken ++ taken')) (chars ++ chars') := by
  constructor
  · refine (h.1.append h'.1).trans ?_
    rw [← List.append_assoc, ← List.append_assoc]
    exact List.perm_append_comm.append_right taken'
  · intro hordered
    rw [h.2 hordered, h'.2 hordered]
    rcases hnil hordered with rfl | rfl
    · rfl
    · rfl

end Spells

/-- The text of the operand that stands to the left of a cursor. -/
def Left.carried (text : α → List Char) (left : Left α) : List Char :=
    (left.value?.map text).getD []

theorem Left.carried_of_plain {text : α → List Char} {left : Left α} (h : left.isOperand = false) :
    left.carried text = [] := by
  cases left with
  | operand tag value => cases h
  | empty => rfl
  | rightOperand => rfl

/--
On the way from `cursor` to `next` the characters were gathered: those that were taken, and those of
the operand that the cursor carries, if it was taken up.
-/
structure Gathers (ordered : Bool) (text : α → List Char) (place : Nat) (cursor : Cursor α)
    (chars : List Char) (next : Cursor α) : Prop where
  spells : ∃ taken, cursor.Takes taken next ∧
    (next.left = cursor.left ∧ Spells ordered taken chars ∨
      next.left = .empty ∧
        (ordered = true → cursor.left.isOperand = true → place = cursor.offset) ∧
          Spells ordered (cursor.left.carried text ++ taken) chars)

namespace Gathers

variable {ordered : Bool} {text : α → List Char} {place : Nat} {cursor next further : Cursor α}
  {chars more taken : List Char}

theorem kept (htakes : cursor.Takes taken next) (hleft : next.left = cursor.left) :
    Gathers ordered text place cursor taken next :=
  ⟨⟨taken, htakes, Or.inl ⟨hleft, .refl ordered taken⟩⟩⟩

/-- Where no operand is carried, the characters are those that were taken. -/
theorem of_plain (h : Gathers ordered text place cursor chars next)
    (hplain : cursor.left.isOperand = false) :
    ∃ taken, cursor.Takes taken next ∧ Spells ordered taken chars := by
  obtain ⟨taken, htakes, ⟨-, hspells⟩ | ⟨-, -, hspells⟩⟩ := h.spells
  · exact ⟨taken, htakes, hspells⟩
  · rw [Left.carried_of_plain hplain] at hspells
    exact ⟨taken, htakes, hspells⟩

theorem of_taken (htakes : cursor.Takes taken next) (hspells : Spells ordered taken chars)
    (hplain : cursor.left.isOperand = false) (hnext : next.left = .empty) :
    Gathers ordered text place cursor chars next := by
  refine ⟨⟨taken, htakes, Or.inr ⟨hnext, fun _ hoperand => ?_, ?_⟩⟩⟩
  · rw [hplain] at hoperand
    cases hoperand
  · rw [Left.carried_of_plain hplain]
    exact hspells

theorem left (h : Gathers ordered text place cursor chars next) :
    next.left = cursor.left ∨ next.left = .empty := by
  obtain ⟨taken, -, hsame | hempty⟩ := h.spells
  · exact Or.inl hsame.1
  · exact Or.inr hempty.1

/-- Where no operand is carried, the place does not matter. -/
theorem of_handed (h : Gathers ordered text (handed place cursor cursor) cursor chars next) :
    Gathers ordered text place cursor chars next := by
  cases hoperand : cursor.left.isOperand with
  | true => rwa [handed_of_carried hoperand rfl] at h
  | false =>
      obtain ⟨taken, htakes, hspells⟩ := h.spells
      refine ⟨⟨taken, htakes, hspells.imp_right fun ⟨hleft, _, hspells⟩ => ⟨hleft, ?_, hspells⟩⟩⟩
      rw [hoperand]
      exact nofun

/-- What is gathered on the way is gathered in order. -/
theorem trans (h : Gathers ordered text place cursor chars next)
    (h' : Gathers ordered text (handed place cursor next) next more further)
    (hplace : place ≤ cursor.offset) :
    Gathers ordered text place cursor (chars ++ more) further := by
  obtain ⟨taken, htakes, hfirst⟩ := h.spells
  obtain ⟨taken', htakes', hsecond⟩ := h'.spells
  refine ⟨⟨taken ++ taken', htakes.trans htakes', ?_⟩⟩
  rcases hfirst with ⟨hleft, hspells⟩ | ⟨hleft, hat, hspells⟩
  · rcases hsecond with ⟨hleft', hspells'⟩ | ⟨hleft', hat', hspells'⟩
    · exact Or.inl ⟨hleft'.trans hleft, hspells.append hspells'⟩
    · -- the operand is taken up on the second part of the way
      have hnil : ordered = true → cursor.left.isOperand = true →
          taken = [] ∧ place = cursor.offset := by
        intro hordered hoperand
        have hput := hat' hordered (hleft ▸ hoperand)
        rw [handed_of_carried (hleft ▸ hoperand) hleft, htakes.offset_eq] at hput
        exact ⟨Text.byteLength_eq_zero_iff.mp (by omega), by omega⟩
      refine Or.inr ⟨hleft', fun hordered hoperand => (hnil hordered hoperand).2, ?_⟩
      rw [hleft] at hspells'
      refine hspells.carried_append hspells' fun hordered => ?_
      cases hoperand : cursor.left.isOperand with
      | false => exact Or.inl (Left.carried_of_plain hoperand)
      | true => exact Or.inr (hnil hordered hoperand).1
  · obtain ⟨hleft', hspells'⟩ : further.left = .empty ∧ Spells ordered taken' more := by
      rcases hsecond with ⟨hleft', hspells'⟩ | ⟨hleft', -, hspells'⟩
      · exact ⟨hleft'.trans hleft, hspells'⟩
      · rw [hleft] at hspells'
        exact ⟨hleft', hspells'⟩
    refine Or.inr ⟨hleft', hat, ?_⟩
    rw [← List.append_assoc]
    exact hspells.append hspells'

/-- A left context that is no operand has no part in it, and may be dropped. -/
theorem dropped {left : Left α} {place' : Nat} (hleft : left.isOperand = false)
    (h : Gathers ordered text place' (cursor.withLeft left) chars next)
    (hplain : cursor.left.isOperand = false) :
    Gathers ordered text place cursor chars next.withoutLeft := by
  obtain ⟨taken, htakes, hspells⟩ := h.of_plain hleft
  exact of_taken (htakes.of_withLeft.withLeft .empty) hspells hplain rfl

/-- An operand that was gathered and is taken up again stands for what was gathered. -/
theorem extended {tag place' : Nat} {value : α} (h : Gathers ordered text place cursor chars next)
    (hnext : next.left = .empty) (hvalue : text value = chars)
    (h' : Gathers ordered text place' (next.withLeft (.operand tag (some value))) more further)
    (hfurther : further.left = .empty) : Gathers ordered text place cursor more further := by
  obtain ⟨taken, htakes, hfirst⟩ := h.spells
  obtain ⟨taken', htakes', hsecond⟩ := h'.spells
  have hspells' : Spells ordered (chars ++ taken') more := by
    rcases hsecond with ⟨hleft, -⟩ | ⟨-, -, hspells'⟩
    · rw [hfurther] at hleft
      cases hleft
    · rw [← hvalue]
      exact hspells'
  refine ⟨⟨taken ++ taken', htakes.trans htakes'.of_withLeft, ?_⟩⟩
  rcases hfirst with ⟨hleft, hspells⟩ | ⟨-, hat, hspells⟩
  · refine Or.inl ⟨hfurther.trans (hnext.symm.trans hleft), ?_⟩
    exact (hspells.append (.refl ordered taken')).trans hspells'
  · refine Or.inr ⟨hfurther, hat, ?_⟩
    rw [← List.append_assoc]
    exact (hspells.append (.refl ordered taken')).trans hspells'

end Gathers

/-! ## The contract -/

/-- A match is good if its payload is made of what was gathered on the way to its end. -/
def Goodness.gathers (ordered : Bool) (text : α → List Char) : Goodness α :=
  fun place _ cursor output => cursor.Leads output.next ∧
    (place ≤ cursor.offset →
      Gathers ordered text place cursor (text output.payload) output.next)

section Contract

variable {ordered : Bool} {text : α → List Char} {place : Nat} {cursor here behind : Cursor α}

theorem handed_le {next : Cursor α} (h : cursor.Leads next) (hplace : place ≤ cursor.offset) :
    handed place cursor next ≤ next.offset := by
  unfold handed
  split
  · exact Nat.le_trans hplace h.reaches.offset_le
  · exact Nat.le_refl _

theorem handed_handed {next further : Cursor α} (h : cursor.Leads next) (h' : next.Leads further) :
    handed (handed place cursor next) next further = handed place cursor further := by
  cases hoperand : further.left.isOperand with
  | false => rw [handed_of_plain hoperand, handed_of_plain hoperand]
  | true =>
      have hcarried : further.left = next.left := h'.left.resolve_right fun hempty => by
        rw [hempty] at hoperand
        cases hoperand
      have hcarried' : next.left = cursor.left := h.left.resolve_right fun hempty => by
        rw [hcarried, hempty] at hoperand
        cases hoperand
      rw [handed_of_carried hoperand hcarried,
        handed_of_carried (hcarried ▸ hoperand) hcarried',
        handed_of_carried hoperand (hcarried.trans hcarried')]

/-- Parts that match one after another gather their texts in order. -/
theorem Chain.gathers {parsers : List (Parser α)} {payloads : List α}
    (h : Chain (.gathers ordered text) place cursor here parsers payloads behind)
    (hleads : cursor.Leads here) (hplace : place ≤ cursor.offset) :
    Gathers ordered text (handed place cursor here) here (payloads.flatMap text) behind := by
  induction h with
  | nil here => exact .kept (.refl here) rfl
  | cons hhead htail ih =>
      have hle := handed_le hleads hplace
      have hrest := ih (hleads.trans hhead.1)
      rw [← handed_handed hleads hhead.1] at hrest
      exact (hhead.2 hle).trans hrest hle

/-- The operands of a step of a fold, and what is between them, are gathered in order. -/
theorem FoldParts.gathers {left right : Parser α} {middle : List (Parser α)} {first last : Output α}
    {payloads : List α}
    (h : FoldParts (.gathers ordered text) place cursor left middle right first
      payloads behind last)
    (hplace : place ≤ cursor.offset)
    (hat : ordered = true → cursor.left.isOperand = true → place = cursor.offset) :
    Gathers ordered text place cursor ((first.payload :: payloads ++ [last.payload]).flatMap text)
      last.next.withoutLeft := by
  have hfirst : Gathers ordered text place cursor (text first.payload) first.next ∧
      first.next.left = .empty ∧ cursor.Leads first.next := by
    rcases h.operand with ⟨hempty, hleads, hgathers⟩ | ⟨tag, value, hleft, rfl⟩
    · exact ⟨hgathers hplace, hleads.left.elim (fun hsame => hsame.trans hempty) id, hleads⟩
    · refine ⟨⟨⟨[], .of_same rfl rfl, Or.inr ⟨rfl, hat, ?_⟩⟩⟩, rfl, .withoutLeft cursor⟩
      rw [hleft, List.append_nil]
      exact .refl ordered _
  obtain ⟨hfirst, hempty, hleads⟩ := hfirst
  have hmiddle := h.middle.gathers hleads hplace
  have hbehind : behind.left = .empty := hmiddle.left.elim (fun hsame => hsame.trans hempty) id
  have hlast : Gathers ordered text (handed place cursor behind) behind (text last.payload)
      last.next.withoutLeft :=
    (h.last.2 (Nat.le_refl _)).dropped rfl (by rw [hbehind]; rfl)
  have hway := (hfirst.trans hmiddle hplace).trans (hlast) hplace
  rw [List.cons_append, List.flatMap_cons, List.flatMap_append, List.flatMap_cons, List.flatMap_nil,
    List.append_nil, ← List.append_assoc]
  exact hway

/-- What a supervisor has to rule out for texts to be gathered in order. -/
def Supervisor.ordering (ordered : Bool) : Supervisor α := if ordered then .adjacency else .idle

theorem Supervisor.at_place_of_fine {left right : Parser α} {middle : List (Parser α)}
    {combine : List α → α} {output : Output α}
    (h : (ordering ordered).fine place (.foldLeft left middle right combine) cursor
      (some output) = true) :
    ordered = true → cursor.left.isOperand = true → place = cursor.offset := by
  rintro rfl hoperand
  simpa [ordering, adjacency, hoperand] using h

/-- Faithful nodes gather the texts of their parts in order. -/
theorem gathers_contract {grammar : Grammar α} (hfaithful : grammar.Faithful text) :
    Contract grammar (.ordering ordered) (.gathers ordered text) where
  leads h := h.1
  satisfy hnode h := by
    obtain ⟨c, htakes, hleft, hpayload, haccepts⟩ := Engine.leads_takeChar h
    refine ⟨⟨⟨_, htakes⟩, Or.inl hleft⟩, fun _ => ?_⟩
    rw [hpayload, hfaithful _ hnode c haccepts]
    exact .kept htakes hleft
  literal hnode h := by
    obtain ⟨htakes, hleft, hpayload⟩ := Engine.leads_takeLiteral h
    refine ⟨⟨⟨_, htakes⟩, Or.inl hleft⟩, fun _ => ?_⟩
    have htext := hfaithful _ hnode
    rw [hpayload, htext]
    exact .kept htakes hleft
  endOfInput hnode _ := by
    refine ⟨.refl _, fun _ => ?_⟩
    have htext := hfaithful _ hnode
    rw [htext]
    exact .kept (.refl _) rfl
  passed _ _ h := h
  afresh _ _ hplain h := by
    refine ⟨(Cursor.Leads.withoutLeft _).trans h.1, fun _ => ?_⟩
    obtain ⟨taken, htakes, hspells⟩ := (h.2 (Nat.le_refl _)).of_plain rfl
    exact .of_taken htakes.of_withLeft hspells hplain (h.1.left.elim id id)
  sequence hnode h := by
    refine ⟨h.leads And.left, fun hplace => ?_⟩
    rw [hfaithful _ hnode]
    exact (h.gathers (.refl _) hplace).of_handed
  folded hnode h hfine := by
    refine ⟨h.leads And.left, fun hplace => ?_⟩
    rw [hfaithful _ hnode]
    exact h.gathers hplace (Supervisor.at_place_of_fine hfine)
  extended hnode h hextended hempty hfine := by
    refine ⟨(h.leads And.left).trans (hextended.1.replaced hempty), fun hplace => ?_⟩
    exact (h.gathers hplace (Supervisor.at_place_of_fine hfine)).extended rfl (hfaithful _ hnode _)
      (hextended.2 (Nat.le_refl _)) hempty
  repeated hnode h _ := by
    refine ⟨h.leads And.left, fun hplace => ?_⟩
    rw [hfaithful _ hnode]
    exact (h.gathers (.refl _) hplace).of_handed
  present hnode h := by
    refine ⟨h.1, fun hplace => ?_⟩
    rw [(hfaithful _ hnode).2]
    exact h.2 hplace
  absent hnode := by
    refine ⟨.refl _, fun _ => ?_⟩
    rw [(hfaithful _ hnode).1]
    exact .kept (.refl _) rfl
  converted hnode h hf := by
    refine ⟨h.1, fun hplace => ?_⟩
    rw [hfaithful _ hnode _ _ hf]
    exact h.2 hplace
  called _ _ h := h
  shared _ _ h := h

end Contract

/-! ## Runs -/

section Runs

variable {grammar : Grammar α} {text : α → List Char} {engine engine' : Engine α}
  {cursor : Cursor α} {output : Output α} {fuel : Nat}

/-- Between two places there is only one text. -/
theorem Cursor.Takes.unique {next next' : Cursor α} {taken taken' : List Char}
    (h : cursor.Takes taken next) (h' : cursor.Takes taken' next')
    (hoffset : next'.offset = next.offset) : taken' = taken := by
  have hrest : next'.rest = next.rest := by
    rw [next'.rest_eq, next.rest_eq, hoffset, h.source_eq, h'.source_eq]
  have heq := h'.rest_eq.symm.trans h.rest_eq
  rw [hrest] at heq
  exact List.append_cancel_right heq

/-- The payload and the end of the match of a run, if it comes to one. -/
def Engine.seen : Except Stop (Option (Output α) × Engine α) → Option (α × Nat)
  | .ok (some output, _) => some (output.payload, output.next.offset)
  | _ => none

theorem Engine.seen_eq_some {result : Except Stop (Option (Output α) × Engine α)} {payload : α}
    {offset : Nat} (h : seen result = some (payload, offset)) :
    ∃ output engine', result = .ok (some output, engine') ∧ output.payload = payload ∧
      output.next.offset = offset := by
  unfold seen at h
  split at h
  · next output engine' =>
      obtain ⟨hpayload, hoffset⟩ := Prod.mk.inj (Option.some.inj h)
      exact ⟨output, engine', rfl, hpayload, hoffset⟩
  · cases h

/-- What a supervised run matches is spelt by its payload. -/
theorem spells_of_run (ordered : Bool) (hfaithful : grammar.Faithful text) (hblank : engine.Blank)
    (hempty : cursor.left = .empty) (alarm : Stop)
    (hrun : (Supervisor.ordering ordered).run alarm grammar.rules fuel cursor.offset grammar.entry
      cursor engine = .ok (some output, engine')) :
    ∃ taken, cursor.Takes taken output.next ∧ Spells ordered taken (text output.payload) := by
  have hcalls : GoodCalls grammar (.gathers ordered text) (fun _ => True) cursor
      ((Supervisor.ordering ordered).run alarm grammar.rules fuel)
      ((Supervisor.ordering ordered).run alarm grammar.rules fuel) :=
    (gathers_contract hfaithful).tracks_run hfaithful.direct (fun _ _ _ _ _ _ => rfl)
      (fun _ _ _ _ _ => trivial) trivial (fun _ _ => trivial) fuel
  have htag : ∀ tag value, cursor.left = .operand tag value → tag < engine.nextTag := by
    rw [hempty]
    exact nofun
  have hleaves := (hcalls rfl Grammar.entry_mem_nodes (.initial htag)
    (.of_sound (.of_blank hblank))).of_ok hrun
  exact (hleaves.good_of_some.2 (Nat.le_refl _)).of_plain (by rw [hempty]; rfl)

/--
A match of a faithful grammar has in its payload the characters that were taken, each of them as
often as it was taken.  They are in the order of the text if no fold took up an operand further on
than it was put, that is, if a supervisor who finds fault with that lets the match pass.
-/
theorem run_yields (hfaithful : grammar.Faithful text) (hblank : engine.Blank)
    (hempty : cursor.left = .empty)
    (hrun : Engine.run grammar.rules fuel grammar.entry cursor engine =
      .ok (some output, engine')) :
    ∃ taken, cursor.Takes taken output.next ∧ (text output.payload).Perm taken ∧
      ∀ alarm, Engine.seen (Supervisor.adjacency.run alarm grammar.rules fuel cursor.offset
          grammar.entry cursor engine) = some (output.payload, output.next.offset) →
        text output.payload = taken := by
  have hidle : (Supervisor.ordering false).run .tooDeep grammar.rules fuel cursor.offset
      grammar.entry cursor engine = .ok (some output, engine') := by
    rw [Supervisor.ordering, if_neg Bool.false_ne_true, Supervisor.run_idle]
    exact hrun
  obtain ⟨taken, htakes, hperm, -⟩ := spells_of_run false hfaithful hblank hempty .tooDeep hidle
  refine ⟨taken, htakes, hperm, fun alarm hseen => ?_⟩
  obtain ⟨found, engine'', hfound, hpayload, hoffset⟩ := Engine.seen_eq_some hseen
  obtain ⟨taken', htakes', -, hordered⟩ :=
    spells_of_run true hfaithful hblank hempty alarm hfound
  rw [← hpayload, hordered rfl]
  exact htakes.unique htakes' hoffset

end Runs

/-- Sums of letters and of sums in brackets: `E := E + E | ( E ) | a | … | z`. -/
def bracketedSums : Grammar String where
  rules := .ofBodies [.firstOf
    [.foldedLeft 0 (.call 0) [.literal ['+'] "+"] (.call 0) String.join,
      .sequence [.literal ['('] "(", .call 0, .literal [')'] ")"] String.join,
      .satisfy Char.isLower String.singleton]]
  entry := .call 0

theorem bracketedSums_faithful : bracketedSums.Faithful String.toList := by
  simp [Grammar.Faithful, Grammar.nodes, bracketedSums, Rules.nodes, Rules.ofBodies,
    Definition.nodes, Parser.nodes, Parser.nodesAll, Parser.foldedLeft,
    Parser.Faithful]

/-- Of `a+b(+c)` the bracket is moved to the front; `a+b+c` is left in order. -/
theorem bracketedSums_yields :
    (∃ output engine', Engine.run bracketedSums.rules 40 bracketedSums.entry
          (.start (.ofString "a+b(+c)")) .fresh = .ok (some output, engine') ∧
        output.payload = "(a+b+c)" ∧ output.next.offset = 7 ∧
          ∃ taken, (Cursor.start (.ofString "a+b(+c)")).Takes taken output.next ∧
            output.payload.toList.Perm taken) ∧
      ∃ output engine', Engine.run bracketedSums.rules 40 bracketedSums.entry
          (.start (.ofString "a+b+c")) .fresh = .ok (some output, engine') ∧
        (Cursor.start (.ofString "a+b+c")).Takes output.payload.toList output.next := by
  constructor
  · obtain ⟨output, engine', hrun, hpayload, hoffset⟩ := Engine.seen_eq_some
      (show Engine.seen (Engine.run bracketedSums.rules 40 bracketedSums.entry
        (.start (.ofString "a+b(+c)")) .fresh) = some ("(a+b+c)", 7) by decide +kernel)
    obtain ⟨taken, htakes, hperm, -⟩ :=
      run_yields bracketedSums_faithful Engine.blank_fresh rfl hrun
    exact ⟨output, engine', hrun, hpayload, hoffset, taken, htakes, hperm⟩
  · obtain ⟨output, engine', hrun, hpayload, hoffset⟩ := Engine.seen_eq_some
      (show Engine.seen (Engine.run bracketedSums.rules 40 bracketedSums.entry
        (.start (.ofString "a+b+c")) .fresh) = some ("a+b+c", 5) by decide +kernel)
    obtain ⟨taken, htakes, -, hordered⟩ :=
      run_yields bracketedSums_faithful Engine.blank_fresh rfl hrun
    refine ⟨output, engine', hrun, ?_⟩
    rw [hordered .tooDeep (by rw [hpayload, hoffset]; decide +kernel)]
    exact htakes

end Packrat
