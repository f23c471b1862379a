import Packrat.Proofs.Answers
import Packrat.Proofs.Sums.Reading

/-!
# Running grammars of sums

A run of a grammar of sums finds what `Sums.reading` says, in every context.  The proof goes by the
length of the text in front of the cursor.  At one place the grammar is called twice at most: a
second call comes from the guarded left operand of a fold, and finds an operand and no sum.
-/

namespace Packrat

open Text (byteLength)

variable {α : Type}

/-- A computation finds something and leaves the state as other parsers see it. -/
def Finds (action : EngineM α (Option (Output α))) (source : Source) (left : Left α)
    (engine : Engine α) (found : Option (Found α)) : Prop :=
  Yields action engine fun output engine' => Lands source left found output ∧ Untouched engine
    engine'

/-- A computation of parts in a row finds something and leaves the state as other parsers see it. -/
def FindsAll (action : EngineM α (Option (List α × Cursor α))) (source : Source) (left : Left α)
    (engine : Engine α) (found : Option (List α × List Char × Bool)) : Prop :=
  Yields action engine fun result engine' =>
    LandsAll source left found result ∧ Untouched engine engine'

section Pieces

variable {call : Call α} {parser : Parser α} {parsers : List (Parser α)} {cursor : Cursor α}
  {source : Source} {engine : Engine α} {rest : List Char} {found found' : Option (Found α)}

theorem finds_firstMatch_nil :
    Finds (Engine.firstMatch call [] cursor) source cursor.left engine none :=
  Engine.yields_firstMatch_nil ⟨trivial, .refl engine⟩

theorem finds_firstMatch_cons (hhead : Finds (call parser cursor) source cursor.left engine found)
    (htail : ∀ engine', Untouched engine engine' →
      Finds (Engine.firstMatch call parsers cursor) source cursor.left engine' found') :
    Finds (Engine.firstMatch call (parser :: parsers) cursor) source cursor.left engine
      (found.or found') := by
  apply Engine.yields_firstMatch_cons
  apply hhead.mono
  rintro output engine' ⟨hland, hsame⟩
  cases found with
  | none =>
      obtain rfl := Lands.none_iff.mp hland
      apply (htail engine' hsame).mono
      rintro output engine'' ⟨hland', hsame'⟩
      exact ⟨hland', hsame.trans hsame'⟩
  | some found =>
      obtain ⟨next, rfl, -, -⟩ := Lands.some_iff.mp hland
      exact ⟨hland, hsame⟩

theorem findsAll_nil (hat : cursor.At source rest) :
    FindsAll (Engine.inSequence call [] cursor) source cursor.left engine
      (Reading.all [] cursor.left.content rest) :=
  Engine.yields_inSequence_nil ⟨⟨rfl, hat, rfl⟩, .refl engine⟩

theorem findsAll_cons {reading : Reading α} {readings : List (Reading α)}
    (hhead : Finds (call parser cursor) source cursor.left engine
      (reading cursor.left.content rest))
    (htail : ∀ first, reading cursor.left.content rest = some first → ∀ next engine',
      next.At source first.rest → next.left = cursor.left.behind first.kept →
        Untouched engine engine' →
          FindsAll (Engine.inSequence call parsers next) source next.left engine'
            (Reading.all readings next.left.content first.rest)) :
    FindsAll (Engine.inSequence call (parser :: parsers) cursor) source cursor.left engine
      (Reading.all (reading :: readings) cursor.left.content rest) := by
  apply Engine.yields_inSequence_cons
  apply hhead.mono
  rintro output engine' ⟨hland, hsame⟩
  rw [Reading.all]
  cases hread : reading cursor.left.content rest with
  | none =>
      rw [hread] at hland
      obtain rfl := Lands.none_iff.mp hland
      exact ⟨trivial, hsame⟩
  | some first =>
      rw [hread] at hland
      obtain ⟨next, rfl, hnext, hleft⟩ := Lands.some_iff.mp hland
      apply (htail first hread next engine' hnext hleft hsame).mono
      rintro result engine'' ⟨hlands, hsame'⟩
      rw [hleft, Left.content_behind] at hlands
      exact ⟨hlands.cons, hsame.trans hsame'⟩

theorem finds_sequence {fuel : Nat} {rules : Rules α} {combine : List α → α}
    {found : Option (List α × List Char × Bool)}
    (h : FindsAll (Engine.inSequence (Engine.run rules fuel) parsers cursor) source
      cursor.left engine
      found) :
    Finds (Engine.run rules (fuel + 1) (.sequence parsers combine) cursor) source cursor.left engine
      (found.map fun (payloads, rest, kept) => ⟨combine payloads, rest, kept⟩) := by
  apply Yields.bind
  apply h.mono
  rintro result engine' ⟨hlands, hsame⟩
  cases found with
  | none =>
      obtain rfl := LandsAll.none_iff.mp hlands
      exact Yields.pure ⟨trivial, hsame⟩
  | some found =>
      obtain ⟨payloads, rest, kept⟩ := found
      obtain ⟨next, rfl, hnext, hleft⟩ := LandsAll.some_iff.mp hlands
      exact Yields.pure ⟨⟨rfl, hnext, hleft⟩, hsame⟩

theorem finds_guarded {id fuel : Nat} {rules : Rules α}
    (hfree : cursor.offset ∉ engine.active.get id)
    (h : Finds (Engine.run rules fuel parser cursor) source cursor.left
      (engine.entered id cursor.offset) found) :
    Finds (Engine.run rules (fuel + 1) (.guarded id parser) cursor) source cursor.left
      engine found := by
  apply Engine.yields_guardedMatch_free hfree
  apply h.mono
  rintro output engine' ⟨hland, hsame⟩
  exact ⟨hland, hsame.freed⟩

theorem finds_literal {fuel : Nat} {rules : Rules α} {text : List Char} {payload : α}
    (hat : cursor.At source rest) :
    Finds (Engine.run rules (fuel + 1) (.literal text payload) cursor) source cursor.left engine
      (Reading.literal text payload cursor.left.content rest) := by
  have hmeans : (Parser.literal text payload).means .empty rest =
      Reading.literal text payload cursor.left.content rest := by
    rw [Parser.means, Reading.literal, Reading.behind?]
    split <;> rfl
  rw [← hmeans]
  exact Yields.pure ⟨Engine.takeLiteral_lands hat .empty, .refl engine⟩

end Pieces

namespace Sums

variable {sums : Sums α} {source : Source} {cursor : Cursor α} {engine engine' : Engine α}
  {rest : List Char} {bytes fuel : Nat}

/-! ## States -/

/-- No guard of the grammar is busy further on, and none but that of sums at the offset itself. -/
structure Calm (sums : Sums α) (offset : Nat) (engine : Engine α) : Prop where
  idle : Idle (sums.groupGuard :: sums.atom.guards) sums.atom.climbs offset engine
  later : ∀ further, offset < further → further ∉ engine.active.get sums.sumGuard

namespace Calm

variable {offset further : Nat}

theorem untouched (h : sums.Calm offset engine) (hsame : Untouched engine engine') :
    sums.Calm offset engine' where
  idle := h.idle.untouched hsame
  later further hlt := by
    rw [hsame.active]
    exact h.later further hlt

theorem ahead (h : sums.Calm offset engine) (hle : offset ≤ further) :
    sums.Calm further engine where
  idle := h.idle.ahead hle
  later later hlt := h.later later (Nat.lt_of_le_of_lt hle hlt)

theorem entered (h : sums.Calm offset engine) : sums.Calm offset
    (engine.entered sums.sumGuard offset) where
  idle := by
    refine h.idle.entered (fun hmem => ?_) offset
    rcases List.mem_cons.mp hmem with heq | hatom
    · exact sums.guards_ne heq
    · exact sums.sumGuard_unused hatom
  later further hlt := by
    rw [Engine.active_entered_self, List.mem_cons, not_or]
    exact ⟨Nat.ne_of_gt hlt, h.later further hlt⟩

theorem atom (h : sums.Calm offset engine) : Idle sums.atom.guards sums.atom.climbs offset engine :=
  h.idle.mono (fun _ hid => List.mem_cons_of_mem _ hid) fun _ hid => hid

theorem of_rested (h : engine.Rested) (offset : Nat) : sums.Calm offset engine where
  idle := h.idle _ _ _
  later further _ := h.not_mem_active _ further

theorem group_free (h : sums.Calm offset engine) : offset ∉ engine.active.get sums.groupGuard :=
  h.idle.free sums.groupGuard List.mem_cons_self offset (Nat.le_refl _)

end Calm

/-! ## Operands -/

/-- A bound on the depth of calls in front of so many bytes. -/
def depth (sums : Sums α) (bytes : Nat) : Nat := sums.atom.size + 10 * bytes

/-- In front of less text than some bytes, a call of the grammar finds what it reads. -/
def FindsBelow (sums : Sums α) (source : Source) (bytes : Nat) : Prop :=
  ∀ {fuel : Nat} {rest : List Char} {cursor : Cursor α} {engine : Engine α},
    byteLength rest < bytes → sums.depth bytes ≤ fuel → cursor.At source rest →
      sums.Calm cursor.offset engine →
        (cursor.left = .empty → cursor.offset ∉ engine.active.get sums.sumGuard) →
          Finds (Engine.run sums.grammar.rules fuel (.call 0) cursor) source cursor.left engine
            (sums.reading cursor.left.content rest)

theorem finds_group (hbelow : sums.FindsBelow source (byteLength rest))
    (hfuel : sums.depth (byteLength rest) ≤ fuel) (hat : cursor.At source rest)
      (hcalm : sums.Calm cursor.offset engine) :
    Finds (Engine.run sums.grammar.rules (fuel + 3)
        (.inOrder sums.groupGuard (.literal sums.opening sums.opened)
          [.call 0, .literal sums.closing sums.closed] sums.group) cursor) source cursor.left engine
      (sums.groupOf sums.reading cursor.left.content rest) := by
  apply finds_sequence
  apply findsAll_cons (finds_guarded hcalm.group_free (finds_literal hat))
  intro first hfirst next engine₁ hnext hleft hsame₁
  obtain ⟨rest₁, hopening, rfl⟩ := Option.map_eq_some_iff.mp hfirst
  have hlt := Reading.behind?_lt sums.opening_ne hopening
  have hahead := (hat.offset_lt_iff hnext).mpr hlt
  have hfree : next.offset ∉ engine₁.active.get sums.sumGuard := by
    rw [hsame₁.active]
    exact hcalm.later next.offset hahead
  apply findsAll_cons
  · exact hbelow hlt (Nat.le_trans hfuel (Nat.le_add_right fuel 2)) hnext
      ((hcalm.untouched hsame₁).ahead (Nat.le_of_lt hahead)) fun _ => hfree
  · intro inside hinside next' engine₂ hnext' hleft' hsame₂
    apply findsAll_cons (finds_literal hnext')
    intro last hlast further engine₃ hfurther hleft'' hsame₃
    exact findsAll_nil hfurther

/-- A group or an atom, one of which the grammar takes if it does not find a sum. -/
theorem finds_operand (hbelow : sums.FindsBelow source (byteLength rest))
    (hfuel : sums.depth (byteLength rest) ≤ fuel) (hat : cursor.At source rest)
    (hcalm : sums.Calm cursor.offset engine) :
    Finds (Engine.firstMatch (Engine.run sums.grammar.rules (fuel + 3))
        [.inOrder sums.groupGuard (.literal sums.opening sums.opened)
          [.call 0, .literal sums.closing sums.closed] sums.group, sums.atom] cursor) source
      cursor.left engine (sums.operandOf sums.reading cursor.left.content rest) := by
  apply finds_firstMatch_cons (finds_group hbelow hfuel hat hcalm)
  intro engine₁ hsame₁
  rw [← Option.or_none (o := sums.atom.means cursor.left.content rest)]
  apply finds_firstMatch_cons
  · have hatom : sums.atom.size + byteLength rest < fuel + 3 := by
      unfold depth at hfuel
      omega
    exact run_plain _ sums.atom_plain hatom hat (Nat.le_refl _) (hcalm.untouched hsame₁).atom
  · intro engine₂ hsame₂
    exact finds_firstMatch_nil

/-- The one rule of the grammar. -/
theorem find_rules : sums.grammar.rules.find 0 = .body sums.expression := by
  rw [grammar, Rules.find_ofBodies]
  rfl

/-- A call of the grammar tries a fold first, and then an operand alone. -/
theorem finds_call {found : Option (Found α)}
    (hbelow : sums.FindsBelow source (byteLength rest))
    (hfuel : sums.depth (byteLength rest) ≤ fuel) (hat : cursor.At source rest)
    (hcalm : sums.Calm cursor.offset engine)
    (hfold : Finds (Engine.foldStep (Engine.run sums.grammar.rules (fuel + 2))
        (.guarded sums.sumGuard (.call 0)) [.literal sums.operator sums.sign] (.call 0) sums.join
        cursor) source cursor.left engine found) :
    Finds (Engine.run sums.grammar.rules (fuel + 5) (.call 0) cursor) source cursor.left engine
      (found.or (sums.operandOf sums.reading cursor.left.content rest)) := by
  have hcall : Engine.run sums.grammar.rules (fuel + 5) (.call 0) cursor =
      Engine.run sums.grammar.rules (fuel + 4) sums.expression cursor := by
    rw [Engine.run, Engine.step, find_rules]
  rw [hcall]
  apply finds_firstMatch_cons
  · exact hfold
  · intro engine₁ hsame₁
    exact finds_operand hbelow hfuel hat (hcalm.untouched hsame₁)

/-- Where the guard of sums is busy, an operand is found and no sum. -/
theorem finds_blocked (hbelow : sums.FindsBelow source (byteLength rest))
    (hfuel : sums.depth (byteLength rest) ≤ fuel) (hat : cursor.At source rest)
    (hcalm : sums.Calm cursor.offset engine) (hleft : cursor.left = .empty)
    (hbusy : cursor.offset ∈ engine.active.get sums.sumGuard) :
    Finds (Engine.run sums.grammar.rules (fuel + 5) (.call 0) cursor) source cursor.left engine
      (sums.operandOf sums.reading cursor.left.content rest) := by
  rw [← Option.none_or (o := sums.operandOf sums.reading cursor.left.content rest)]
  apply finds_call hbelow hfuel hat hcalm
  apply Engine.yields_foldStep
  rw [Engine.leftOperand, hleft]
  apply Engine.yields_guardedMatch_busy hbusy
  exact ⟨trivial, .refl engine⟩

/-! ## Sums -/

/-- The left operand is the one on the cursor, or an operand that is found behind the guard. -/
theorem yields_leftOperand (hbelow : sums.FindsBelow source (byteLength rest))
    (hfuel : sums.depth (byteLength rest) ≤ fuel) (hat : cursor.At source rest)
    (hcalm : sums.Calm cursor.offset engine)
    (hfree : cursor.left = .empty → cursor.offset ∉ engine.active.get sums.sumGuard) :
    Yields (Engine.leftOperand (Engine.run sums.grammar.rules (fuel + 6))
        (.guarded sums.sumGuard (.call 0)) cursor) engine fun output engine' =>
      Matches source .empty
          (Parser.operand (sums.operandOf sums.reading) cursor.left.content rest) output ∧
        Untouched engine engine' := by
  unfold Engine.leftOperand
  cases hleft : cursor.left with
  | rightOperand => exact Yields.pure ⟨trivial, .refl engine⟩
  | empty =>
      have hfound := finds_guarded (hfree hleft)
        (finds_blocked hbelow hfuel hat hcalm.entered hleft
          (by rw [Engine.active_entered_self]; exact List.mem_cons_self))
      apply hfound.mono
      rintro output engine' ⟨hland, hsame⟩
      rw [hleft] at hland
      exact ⟨hland.matches_pair, hsame⟩
  | operand tag value =>
      cases value with
      | none => exact Yields.pure ⟨trivial, .refl engine⟩
      | some value => exact Yields.pure ⟨⟨rfl, hat.withoutLeft, rfl⟩, .refl engine⟩

/-- What is found to go on from a folded payload, and what the fold makes of it. -/
theorem yields_extension {bytes : Nat} {next : Cursor α} {payload : α} {left : Left α}
    (hbelow : sums.FindsBelow source bytes) (hfuel : sums.depth bytes ≤ fuel)
    (hlt : byteLength rest < bytes) (hat : next.At source rest) (hempty : next.left = .empty)
    (hcalm : sums.Calm next.offset engine)
    (hfree : next.offset ∉ engine.active.get sums.sumGuard) :
    Yields (Engine.run sums.grammar.rules (fuel + 1) (.guarded sums.sumGuard (.call 0))
        (next.withLeft (.operand engine.nextTag (some payload)))) engine.tagged
      fun extended engine' =>
        Lands source left
            (some (Found.folded payload rest (sums.reading (.operand (some payload)) rest)))
            (some (Engine.foldResult payload next extended)) ∧
          Untouched engine engine' := by
  have hplace := hat.withLeft (.operand engine.nextTag (some payload))
  have hcalm' : sums.Calm next.offset (engine.tagged.entered sums.sumGuard next.offset) :=
    (hcalm.untouched (.tagged engine)).entered
  have hfound : Finds (Engine.run sums.grammar.rules (fuel + 1) (.guarded sums.sumGuard (.call 0))
      (next.withLeft (.operand engine.nextTag (some payload)))) source
      (.operand engine.nextTag (some payload)) engine.tagged
      (sums.reading (.operand (some payload)) rest) :=
    finds_guarded (show (next.withLeft _).offset ∉ engine.tagged.active.get
      sums.sumGuard from hfree)
      (hbelow hlt hfuel hplace hcalm' fun hnone => nomatch hnone)
  apply hfound.mono
  rintro extended engine' ⟨hland, hsame⟩
  exact ⟨Engine.lands_foldResult hat hempty hland left, (Untouched.tagged engine).trans hsame⟩

/-- Behind the operator: the right operand, and what goes on from the folded payload. -/
theorem yields_right {bytes : Nat} {next : Cursor α} {left : Left α} {x : α}
    {before : Engine α} (hbelow : sums.FindsBelow source bytes) (hfuel : sums.depth bytes ≤ fuel)
    (hlt : byteLength rest < bytes) (hat : next.At source rest)
    (hcalm : sums.Calm next.offset engine)
    (hfree : next.offset ∉ engine.active.get sums.sumGuard) (hsame : Untouched before engine) :
    Yields (Engine.rightOperand (Engine.run sums.grammar.rules (fuel + 1)) (.call 0) next) engine
      fun found engine' =>
        match found with
        | none => Lands source left (sums.rightOf sums.reading x rest) none ∧
            Untouched before engine'
        | some last =>
            Yields (Engine.run sums.grammar.rules (fuel + 1) (.guarded sums.sumGuard (.call 0))
                (last.next.withLeft (.operand engine'.nextTag
                  (some (sums.join [x, sums.sign, last.payload]))))) engine'.tagged
              fun extended engine' =>
                Lands source left (sums.rightOf sums.reading x rest)
                    (some (Engine.foldResult (sums.join [x, sums.sign, last.payload]) last.next
                      extended)) ∧
                  Untouched before engine' := by
  apply Engine.yields_rightOperand
  have hplace := hat.withLeft .rightOperand
  have hcall : Finds (Engine.run sums.grammar.rules (fuel + 1) (.call 0)
      (next.withLeft .rightOperand)) source .rightOperand engine
      (sums.reading .rightOperand rest) :=
    hbelow hlt (Nat.le_succ_of_le hfuel) hplace hcalm fun _ => hfree
  apply hcall.mono
  rintro output engine' ⟨hland, hsame'⟩
  rw [rightOf]
  cases hread : sums.reading .rightOperand rest with
  | none =>
      rw [hread] at hland
      obtain rfl := Lands.none_iff.mp hland
      exact ⟨trivial, hsame.trans hsame'⟩
  | some found =>
      rw [hread] at hland
      obtain ⟨last, rfl, hlast, -⟩ := Lands.some_iff.mp hland
      have hle := reading_shrinks _ _ _ hread
      have hahead := (hat.offset_le_iff hlast).mpr hle
      have hfree' : last.offset ∉ engine'.active.get sums.sumGuard := by
        rw [hsame'.active]
        rcases Nat.lt_or_eq_of_le hahead with hgt | heq
        · exact hcalm.later last.offset hgt
        · rwa [← heq]
      apply (yields_extension hbelow hfuel (Nat.lt_of_le_of_lt hle hlt) hlast.withoutLeft rfl
        ((hcalm.untouched hsame').ahead hahead) hfree').mono
      rintro extended engine'' ⟨hextended, hsame''⟩
      exact ⟨hextended, hsame.trans (hsame'.trans hsame'')⟩

/-- A fold is a sum: what goes on from the folded payload is found with it to the left. -/
theorem finds_fold (hbelow : sums.FindsBelow source (byteLength rest))
    (hfuel : sums.depth (byteLength rest) ≤ fuel) (hat : cursor.At source rest)
    (hcalm : sums.Calm cursor.offset engine)
    (hfree : cursor.left = .empty → cursor.offset ∉ engine.active.get sums.sumGuard) :
    Finds (Engine.foldStep (Engine.run sums.grammar.rules (fuel + 6))
        (.guarded sums.sumGuard (.call 0)) [.literal sums.operator sums.sign] (.call 0) sums.join
        cursor) source cursor.left engine (sums.sumOf sums.reading cursor.left.content rest) := by
  apply Engine.yields_foldStep
  apply (yields_leftOperand hbelow hfuel hat hcalm hfree).mono
  rintro first engine₁ ⟨hoperand, hsame₁⟩
  rw [sumOf]
  cases hx : Parser.operand (sums.operandOf sums.reading) cursor.left.content rest with
  | none =>
      rw [hx] at hoperand
      obtain rfl := Matches.none_iff.mp hoperand
      exact ⟨trivial, hsame₁⟩
  | some operand =>
      obtain ⟨x, rest₁⟩ := operand
      rw [hx] at hoperand
      obtain ⟨next₁, rfl, hat₁, hleft₁⟩ := Matches.some_iff.mp hoperand
      have hle : byteLength rest₁ ≤ byteLength rest :=
        Parser.operand_le (operandOf_shrinks reading_shrinks) hx
      apply (findsAll_cons (finds_literal hat₁) fun _ _ _ _ hnext _ _ => findsAll_nil hnext).mono
      rintro result engine₂ ⟨hlands, hsame₂⟩
      rw [Reading.all, Reading.literal] at hlands
      simp only [Option.bind_some]
      cases hoperator : Reading.behind? sums.operator rest₁ with
      | none =>
          rw [hoperator] at hlands
          obtain rfl := LandsAll.none_iff.mp hlands
          exact ⟨trivial, hsame₁.trans hsame₂⟩
      | some rest₂ =>
          rw [hoperator] at hlands
          obtain ⟨next₂, rfl, hat₂, hleft₂⟩ := LandsAll.some_iff.mp hlands
          have hlt := Nat.lt_of_lt_of_le (Reading.behind?_lt sums.operator_ne hoperator) hle
          have hahead₂ := (hat.offset_lt_iff hat₂).mpr hlt
          have hcalm₂ := (hcalm.untouched (hsame₁.trans hsame₂)).ahead (Nat.le_of_lt hahead₂)
          have hfree₂ : next₂.offset ∉ engine₂.active.get sums.sumGuard := by
            rw [(hsame₁.trans hsame₂).active]
            exact hcalm.later next₂.offset hahead₂
          exact yields_right hbelow (Nat.le_trans hfuel (Nat.le_add_right fuel 5)) hlt hat₂ hcalm₂
            hfree₂ (hsame₁.trans hsame₂)

/-! ## The grammar answers as it reads -/

/-- In front of any text, a call of the grammar finds what it reads, by induction on the length. -/
theorem finds_below (sums : Sums α) (source : Source) (bytes : Nat) :
    sums.FindsBelow source bytes := by
  induction bytes using Nat.strongRecOn with
  | ind bytes ih =>
      intro fuel rest cursor engine hlt hfuel hat hcalm hfree
      unfold depth at hfuel
      obtain ⟨room, rfl⟩ := Nat.exists_eq_add_of_le' (show 9 ≤ fuel by omega)
      have hroom : sums.depth (byteLength rest) ≤ room := by
        unfold depth
        omega
      rw [reading_eq]
      apply finds_call (ih _ hlt) (Nat.le_trans hroom (Nat.le_add_right room 4)) hat hcalm
      exact finds_fold (ih _ hlt) hroom hat hcalm hfree

theorem depth_le_depthBound (sums : Sums α) {bytes horizon : Nat} (hle : bytes ≤ horizon) :
    sums.depth (bytes + 1) ≤ Engine.depthBound sums.grammar.rules sums.grammar.entry horizon := by
  apply Engine.add_mul_le_depthBound
  · simp [grammar, Rules.size, Rules.ofBodies, Definition.size, expression, Parser.size,
      Parser.sizeAll, Parser.foldedLeft, Parser.inOrder]
    omega
  · exact Nat.succ_le_succ hle

/-- From rest, the grammar of sums answers as it reads. -/
theorem reads (sums : Sums α) : sums.grammar.Reads sums.reader := by
  intro source engine hrested
  apply yields_parseText
  apply yields_parse
  have hrested' :=
    hrested.withHorizon (max engine.horizon (Cursor.start source : Cursor α).source.size)
  have hfuel : sums.depth (byteLength source.chars + 1) ≤
      Engine.depthBound sums.grammar.rules sums.grammar.entry (max engine.horizon source.size) := by
    apply depth_le_depthBound
    rw [← source.size_eq]
    exact Nat.le_max_right _ _
  have hfound := finds_below sums source _ (Nat.lt_succ_self _) hfuel (.start source)
    (.of_rested hrested' _) fun _ => hrested'.not_mem_active _ _
  apply hfound.mono
  rintro output engine' ⟨hland, hsame⟩
  exact ⟨hland.matches_pair, hrested'.untouched hsame⟩

end Sums

end Packrat
