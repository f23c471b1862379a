import Packrat.Proofs.Answers
import Packrat.Proofs.Ladder.Groups

/-!
# Grammars without left recursion

Where a rule is called again behind consumed text only, its guards are all free when it is called,
and a run is recursive descent.  `Descends` says that a parser in front of a given text does what a
reader does; there is one rule for each combinator, and what a combinator does further on counts
for the text that is left there only.
-/

namespace Packrat

open Engine
open Text (byteLength)

variable {α : Type}

/-- All guards are free from an offset on. -/
def Engine.FreeFrom (engine : Engine α) (offset : Nat) : Prop :=
  ∀ id later, offset ≤ later → later ∉ engine.active.get id

namespace Engine.FreeFrom

variable {engine engine' : Engine α} {offset : Nat}

theorem mono {later : Nat} (h : engine.FreeFrom offset) (hle : offset ≤ later) :
    engine.FreeFrom later := by
  intro id further hfurther
  exact h id further (Nat.le_trans hle hfurther)

theorem untouched (h : engine.FreeFrom offset) (hsame : Untouched engine engine') :
    engine'.FreeFrom offset := by
  intro id later hlater
  rw [hsame.active]
  exact h id later hlater

/-- Entering a guard takes it at the offset only. -/
theorem entered (h : engine.FreeFrom offset) (id : Nat) :
    (engine.entered id offset).FreeFrom (offset + 1) := by
  intro other later hlater
  by_cases hid : id = other
  · subst hid
    rw [Engine.active_entered_self, List.mem_cons]
    rintro (heq | hmem)
    · omega
    · exact h id later (by omega) hmem
  · rw [Engine.active_entered_of_ne _ hid]
    exact h other later (by omega)

theorem of_rested (h : engine.Rested) : engine.FreeFrom offset :=
  fun id later _ => h.not_mem_active id later

end Engine.FreeFrom

/-- A plain parser without guards and precedence nodes. -/
structure Parser.Bare (parser : Parser α) : Prop where
  plain : parser.plain = true
  guards : parser.guards = []
  climbs : parser.climbs = []

theorem Parser.Bare.idle {parser : Parser α} (h : parser.Bare) (offset : Nat)
    (engine : Engine α) : Idle parser.guards parser.climbs offset engine where
  free id hid := by
    rw [h.guards] at hid
    cases hid
  calm id hid := by
    rw [h.climbs] at hid
    cases hid

theorem Parser.Bare.token (filler payload : α) (text : String) :
    (Parser.token filler text payload).Bare :=
  ⟨plain_padded filler _, guards_padded filler _, climbs_padded filler _⟩

/--
In front of `rest`, where all guards are free from `slack` bytes ahead on, the parser matches what
the reader reads, and leaves the state as it was.
-/
def Descends (rules : Rules α) (fuel slack : Nat) (rest : List Char) (parser : Parser α)
    (reader : Reader α) : Prop :=
  ∀ ⦃source : Source⦄ ⦃cursor : Cursor α⦄ ⦃engine : Engine α⦄,
    cursor.At source rest → cursor.left = .empty → engine.FreeFrom (cursor.offset + slack) →
      Yields (run rules fuel parser cursor) engine fun output engine' =>
        Matches source .empty (reader rest) output ∧ Untouched engine engine'

/-- The same for parsers one behind another. -/
def DescendsAll (rules : Rules α) (fuel slack : Nat) (rest : List Char)
    (parsers : List (Parser α)) (readers : List (Reader α)) : Prop :=
  ∀ ⦃source : Source⦄ ⦃cursor : Cursor α⦄ ⦃engine : Engine α⦄,
    cursor.At source rest → cursor.left = .empty → engine.FreeFrom (cursor.offset + slack) →
      Yields (inSequence (run rules fuel) parsers cursor) engine fun result engine' =>
        Ladder.MatchesAll source (Reader.all readers rest) result ∧ Untouched engine engine'

section Combinators

variable {rules : Rules α} {fuel slack : Nat} {rest : List Char} {parser : Parser α}
  {parsers : List (Parser α)} {reader : Reader α} {readers : List (Reader α)}

/-- A parser that needs fewer free guards may stand where more are free. -/
theorem Descends.lower {less : Nat} (h : Descends rules fuel slack rest parser reader)
    (hle : less ≤ slack) : Descends rules fuel less rest parser reader := by
  intro source cursor engine hat hleft hfree
  exact h hat hleft (hfree.mono (Nat.add_le_add_left hle _))

/-- Only what is read of the text itself counts. -/
theorem Descends.congr {reader' : Reader α} (h : Descends rules fuel slack rest parser reader)
    (heq : reader rest = reader' rest) : Descends rules fuel slack rest parser reader' := by
  intro source cursor engine hat hleft hfree
  rw [← heq]
  exact h hat hleft hfree

theorem descends_bare (hbare : parser.Bare) (hfuel : parser.size + byteLength rest < fuel) :
    Descends rules fuel slack rest parser parser.read := by
  intro source cursor engine hat hleft _
  exact Parser.run_read hbare.plain hfuel hat hleft (hbare.idle _ _)

theorem descends_call {rule : Nat} (hbody : rules.find rule = .body parser)
    (h : Descends rules fuel slack rest parser reader) :
    Descends rules (fuel + 1) slack rest (.call rule) reader := by
  intro source cursor engine hat hleft hfree
  simp only [run, step, hbody]
  exact h hat hleft hfree

/-- A guard is free where nothing is busy, and busy in front of what stands further on only. -/
theorem descends_guarded {id : Nat} (h : Descends rules fuel 1 rest parser reader) :
    Descends rules (fuel + 1) 0 rest (.guarded id parser) reader := by
  intro source cursor engine hat hleft hfree
  refine yields_guardedMatch_free (hfree id cursor.offset (Nat.le_refl _)) ?_
  refine (h hat hleft (FreeFrom.entered hfree id)).mono ?_
  rintro output engine' ⟨hmatches, hsame⟩
  exact ⟨hmatches, hsame.freed⟩

theorem descends_convert {f : α → α} (h : Descends rules fuel slack rest parser reader) :
    Descends rules (fuel + 1) slack rest (parser.map f) (.map f reader) := by
  intro source cursor engine hat hleft hfree
  refine Yields.bind ((h hat hleft hfree).mono ?_)
  rintro output engine' ⟨hmatches, hsame⟩
  rw [Reader.map]
  cases hread : reader rest with
  | none =>
      rw [hread] at hmatches
      obtain rfl := Matches.none_iff.mp hmatches
      exact Yields.pure ⟨trivial, hsame⟩
  | some found =>
      rw [hread] at hmatches
      obtain ⟨next, rfl, hnext, hnextLeft⟩ := Matches.some_iff.mp hmatches
      exact Yields.pure ⟨⟨rfl, hnext, hnextLeft⟩, hsame⟩

theorem descends_optional {wrap : Option α → α}
    (h : Descends rules fuel slack rest parser reader) :
    Descends rules (fuel + 1) slack rest (.optional parser wrap) (.optional wrap reader) := by
  intro source cursor engine hat hleft hfree
  refine Yields.bind ((h hat hleft hfree).mono ?_)
  rintro output engine' ⟨hmatches, hsame⟩
  rw [Reader.optional]
  cases hread : reader rest with
  | none =>
      rw [hread] at hmatches
      obtain rfl := Matches.none_iff.mp hmatches
      exact Yields.pure ⟨⟨rfl, hat, hleft⟩, hsame⟩
  | some found =>
      rw [hread] at hmatches
      obtain ⟨next, rfl, hnext, hnextLeft⟩ := Matches.some_iff.mp hmatches
      exact Yields.pure ⟨⟨rfl, hnext, hnextLeft⟩, hsame⟩

theorem descends_firstOf
    (h : List.Forall₂ (fun parser reader => Descends rules fuel slack rest parser reader)
      parsers readers) :
    Descends rules (fuel + 1) slack rest (.firstOf parsers) (.first readers) := by
  intro source cursor engine hat hleft hfree
  change Yields (firstMatch (run rules fuel) parsers cursor) engine _
  induction h generalizing engine with
  | nil => exact yields_firstMatch_nil ⟨trivial, .refl engine⟩
  | @cons parser reader parsers readers hhead _ ih =>
      refine yields_firstMatch_cons ((hhead hat hleft hfree).mono ?_)
      rintro output engine' ⟨hmatches, hsame⟩
      rw [Reader.first]
      cases hread : reader rest with
      | some found =>
          rw [hread] at hmatches
          obtain ⟨next, rfl, -, -⟩ := Matches.some_iff.mp hmatches
          exact ⟨hmatches, hsame⟩
      | none =>
          rw [hread] at hmatches
          obtain rfl := Matches.none_iff.mp hmatches
          refine (ih (hfree.untouched hsame)).mono ?_
          rintro output engine'' ⟨hmatches', hsame'⟩
          exact ⟨hmatches', hsame.trans hsame'⟩

/-! ## Sequences -/

theorem descendsAll_nil : DescendsAll rules fuel slack rest [] [] := by
  intro source cursor engine hat hleft _
  exact yields_inSequence_nil ⟨⟨rfl, hat, hleft⟩, .refl engine⟩

/-- Behind the first part, the slack may grow by what that part has taken. -/
theorem descendsAll_cons (behind : Nat) (h : Descends rules fuel slack rest parser reader)
    (hothers : ∀ x shorter, reader rest = some (x, shorter) →
      byteLength shorter + slack ≤ byteLength rest + behind ∧
        DescendsAll rules fuel behind shorter parsers readers) :
    DescendsAll rules fuel slack rest (parser :: parsers) (reader :: readers) := by
  intro source cursor engine hat hleft hfree
  refine yields_inSequence_cons ((h hat hleft hfree).mono ?_)
  rintro output engine' ⟨hmatches, hsame⟩
  rw [Reader.all]
  cases hread : reader rest with
  | none =>
      rw [hread] at hmatches
      obtain rfl := Matches.none_iff.mp hmatches
      exact ⟨trivial, hsame⟩
  | some found =>
      obtain ⟨x, shorter⟩ := found
      rw [hread] at hmatches
      obtain ⟨next, rfl, hnext, hnextLeft⟩ := Matches.some_iff.mp hmatches
      obtain ⟨hle, hall⟩ := hothers x shorter hread
      have hsum := hat.offset_add
      have hsum' := hnext.offset_add
      have hfree' : engine'.FreeFrom (next.offset + behind) :=
        (hfree.untouched hsame).mono (by omega)
      refine (hall hnext hnextLeft hfree').mono ?_
      rintro result engine'' ⟨hothers, hsame'⟩
      refine ⟨?_, hsame.trans hsame'⟩
      rw [Option.bind_some]
      dsimp only
      cases hreads : Reader.all readers shorter with
      | none =>
          rw [hreads] at hothers
          obtain rfl := Ladder.MatchesAll.none_iff.mp hothers
          trivial
      | some others =>
          rw [hreads] at hothers
          obtain ⟨next', rfl, hat', hleft'⟩ := Ladder.MatchesAll.some_iff.mp hothers
          exact ⟨rfl, hat', hleft'⟩

theorem descends_sequence {combine : List α → α}
    (h : DescendsAll rules fuel slack rest parsers readers) :
    Descends rules (fuel + 1) slack rest (.sequence parsers combine)
      (.map combine (.all readers)) := by
  intro source cursor engine hat hleft hfree
  refine Yields.bind ((h hat hleft hfree).mono ?_)
  rintro result engine' ⟨hmatches, hsame⟩
  rw [Reader.map]
  cases hread : Reader.all readers rest with
  | none =>
      rw [hread] at hmatches
      obtain rfl := Ladder.MatchesAll.none_iff.mp hmatches
      exact Yields.pure ⟨trivial, hsame⟩
  | some found =>
      rw [hread] at hmatches
      obtain ⟨next, rfl, hnext, hnextLeft⟩ := Ladder.MatchesAll.some_iff.mp hmatches
      exact Yields.pure ⟨⟨rfl, hnext, hnextLeft⟩, hsame⟩

/-! ## Repetition -/

/-- A repetition, behind what it has matched already. -/
theorem descends_rounds (hshrinks : Reader.Shrinks reader)
    (h : ∀ shorter, byteLength shorter ≤ byteLength rest →
      Descends rules fuel slack shorter parser reader)
    {source : Source} {cursor : Cursor α} {engine : Engine α} {payloads : List α}
    {count rounds : Nat} (hat : cursor.At source rest) (hleft : cursor.left = .empty)
    (hfree : engine.FreeFrom (cursor.offset + slack)) (hrounds : byteLength rest < rounds) :
    Yields (repeatMatch (run rules fuel) parser none rounds payloads count cursor) engine
      fun result engine' =>
        (result.1 = (Reader.many reader rest).1.reverse ++ payloads ∧
          result.2.2.At source (Reader.many reader rest).2 ∧ result.2.2.left = .empty) ∧
        Untouched engine engine' := by
  induction rounds generalizing cursor rest engine payloads count with
  | zero => exact absurd hrounds (Nat.not_lt_zero _)
  | succ rounds ih =>
      refine yields_repeatMatch_succ rfl ((h rest (Nat.le_refl _) hat hleft hfree).mono ?_)
      rintro output engine' ⟨hmatches, hsame⟩
      cases hread : reader rest with
      | none =>
          rw [hread] at hmatches
          obtain rfl := Matches.none_iff.mp hmatches
          rw [Reader.many_of_none hread]
          exact ⟨⟨rfl, hat, hleft⟩, hsame⟩
      | some found =>
          obtain ⟨payload, shorter⟩ := found
          rw [hread] at hmatches
          obtain ⟨next, rfl, hnext, hnextLeft⟩ := Matches.some_iff.mp hmatches
          have hle := hshrinks _ _ _ hread
          have hoffset := (hat.offset_le_iff hnext).mpr hle
          simp only [hat.offset_lt_iff hnext]
          by_cases hmoved : byteLength shorter < byteLength rest
          · rw [if_pos hmoved, Reader.many_of_some hread hmoved]
            have hlater : ∀ later, byteLength later ≤ byteLength shorter →
                Descends rules fuel slack later parser reader :=
              fun later hlater => h later (Nat.le_trans hlater hle)
            have hfree' : engine'.FreeFrom (next.offset + slack) :=
              (hfree.untouched hsame).mono (Nat.add_le_add_right hoffset _)
            refine (ih hlater hnext hnextLeft hfree' (by omega)).mono ?_
            rintro result engine'' ⟨⟨hpayloads, hplace⟩, hsame'⟩
            refine ⟨⟨?_, hplace⟩, hsame.trans hsame'⟩
            rw [hpayloads, Prod.map_fst, List.reverse_cons, List.append_assoc]
            rfl
          · rw [if_neg hmoved, Reader.many_of_stuck hread hmoved]
            exact ⟨⟨rfl, hnext, hnextLeft⟩, hsame⟩

theorem descends_many {collect : List α → α} (hshrinks : Reader.Shrinks reader)
    (h : ∀ shorter, byteLength shorter ≤ byteLength rest →
      Descends rules fuel slack shorter parser reader) (hfuel : byteLength rest < fuel) :
    Descends rules (fuel + 1) slack rest (.many parser collect)
      fun rest => some (Prod.map collect id (Reader.many reader rest)) := by
  intro source cursor engine hat hleft hfree
  refine yields_repetition ((descends_rounds hshrinks h hat hleft hfree hfuel).mono ?_)
  rintro ⟨payloads, count, next⟩ engine' ⟨⟨hpayloads, hnext, hnextLeft⟩, hsame⟩
  refine ⟨⟨?_, hnext, hnextLeft⟩, hsame⟩
  dsimp only at hpayloads ⊢
  rw [hpayloads, List.append_nil, List.reverse_reverse]

/-! ## Derived combinators -/

theorem padded_shrinks (h : Reader.Shrinks reader) : Reader.Shrinks (Reader.padded reader) := by
  intro rest x shorter hread
  obtain ⟨⟨y, behind⟩, hread', heq⟩ := Option.map_eq_some_iff.mp hread
  cases heq
  exact Nat.le_trans (Reader.byteLength_skipBlanks_le _)
    (Nat.le_trans (h _ _ _ hread') (Reader.byteLength_skipBlanks_le _))

/-- A parser with white space on both sides. -/
theorem descends_padded {filler : α} (hshrinks : Reader.Shrinks reader)
    (h : ∀ shorter, byteLength shorter ≤ byteLength rest →
      Descends rules fuel slack shorter parser reader) (hfuel : byteLength rest + 2 < fuel) :
    Descends rules (fuel + 1) slack rest (.padded filler parser) (Reader.padded reader) := by
  have hblanks : ∀ shorter, byteLength shorter ≤ byteLength rest →
      Descends rules fuel slack shorter
        (.many (.satisfy Text.isBlank fun _ => filler) fun _ => filler)
        fun rest => some (filler, Reader.skipBlanks rest) := by
    intro shorter hshorter
    have hread : (Parser.many (.satisfy Text.isBlank fun _ => filler) fun _ => filler).read =
        fun rest => some (filler, Reader.skipBlanks rest) := by
      funext rest
      exact Parser.read_many_satisfy
    rw [← hread]
    exact descends_bare ⟨rfl, rfl, rfl⟩ (by rw [Parser.many, Parser.size, Parser.size]; omega)
  have hpadded : Reader.padded reader =
      Reader.map (fun payloads => payloads.getD 1 filler) (Reader.all
        [fun rest => some (filler, Reader.skipBlanks rest), reader,
          fun rest => some (filler, Reader.skipBlanks rest)]) := by
    funext rest
    simp only [Reader.padded, Reader.map, Reader.all, Option.bind_some]
    cases reader (Reader.skipBlanks rest) <;> rfl
  rw [hpadded]
  apply descends_sequence
  refine descendsAll_cons slack (hblanks rest (Nat.le_refl _)) ?_
  intro x inner hread
  cases hread
  have hinner := Reader.byteLength_skipBlanks_le rest
  refine ⟨by omega, descendsAll_cons slack (h _ hinner) ?_⟩
  intro x last hread
  have hlast := hshrinks _ _ _ hread
  refine ⟨by omega, descendsAll_cons slack (hblanks last (by omega)) ?_⟩
  intro x shorter hread
  cases hread
  exact ⟨Nat.add_le_add_right (Reader.byteLength_skipBlanks_le last) _, descendsAll_nil⟩

/-- Items with separators between them.  The guard of an item is entered in front of the item. -/
theorem descends_joined {tailId itemsId : Nat} {pack : List α → α} {unpack : α → List α}
    {item separator : Parser α} {itemReader separatorReader : Reader α}
    (hitemShrinks : Reader.Shrinks itemReader)
    (hseparatorShrinks : Reader.Shrinks separatorReader)
    (hitem : ∀ shorter, byteLength shorter ≤ byteLength rest →
      ∀ fuel', fuel ≤ fuel' → Descends rules fuel' 1 shorter item itemReader)
    (hseparator : ∀ shorter, byteLength shorter ≤ byteLength rest →
      Descends rules fuel 1 shorter separator separatorReader)
    (hfuel : byteLength rest < fuel) :
    Descends rules (fuel + 5) 0 rest (.joined tailId itemsId pack unpack item separator)
      (Ladder.joinedReading pack unpack itemReader separatorReader) := by
  have htail : ∀ later, byteLength later ≤ byteLength rest →
      Descends rules (fuel + 2) 0 later
        (.inOrder tailId separator [item] fun payloads => payloads.getD 1 (pack []))
        (Ladder.tailReading pack separatorReader itemReader) := by
    intro later hlater
    apply descends_sequence
    refine descendsAll_cons 0 (descends_guarded (hseparator later hlater)) ?_
    intro x shorter hread
    have hle := hseparatorShrinks _ _ _ hread
    refine ⟨by omega, descendsAll_cons 0 ((hitem shorter (by omega) (fuel + 1)
      (by omega)).lower (Nat.zero_le 1)) ?_⟩
    intro x' shorter' hread'
    exact ⟨Nat.add_le_add_right (hitemShrinks _ _ _ hread') 0, descendsAll_nil⟩
  have htailShrinks : Reader.Shrinks (Ladder.tailReading pack separatorReader itemReader) :=
    Ladder.tailReading_shrinks hseparatorShrinks hitemShrinks
  unfold Parser.joined Ladder.joinedReading
  apply descends_optional
  apply descends_sequence
  refine descendsAll_cons 0
    (descends_guarded (hitem rest (Nat.le_refl _) (fuel + 2) (by omega))) ?_
  intro x shorter hread
  have hle := hitemShrinks _ _ _ hread
  refine ⟨by omega, descendsAll_cons 0 (descends_many htailShrinks ?_ (by omega)) ?_⟩
  · intro later hlater
    exact htail later (Nat.le_trans hlater hle)
  · intro x' later hread'
    exact ⟨Nat.add_le_add_right
      (Ladder.manyReading_shrinks hseparatorShrinks hitemShrinks _ _ _ hread') 0, descendsAll_nil⟩

end Combinators

end Packrat
