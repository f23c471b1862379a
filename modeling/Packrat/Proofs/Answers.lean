import Packrat.Grammar
import Packrat.Proofs.Frame
import Packrat.Proofs.Plain.Lexeme

/-!
# Answers to whole texts

What a reader makes of a whole text, and what it means that a grammar gives the same answers:
it does so for a text after any number of other texts, whose parses have left nothing behind.
-/

namespace Packrat

open Text (byteLength)

variable {α : Type}

/-- The answer to a whole text; a match that ends before the text does is a failure. -/
def Reader.answer (reader : Reader α) (chars : List Char) : Except (Failure α) α :=
  match reader chars with
  | none => .error .noMatch
  | some (x, []) => .ok x
  | some (x, rest) => .error (.leftover (byteLength chars - byteLength rest) x)

/-- Nothing goes on, and nothing is stored in the first cache. -/
structure Engine.Rested (engine : Engine α) : Prop where
  active : ∀ id, engine.active.get id = []
  climbing : ∀ id, engine.climbing.get id = []
  depth : ∀ id, engine.depth.get id = 0
  empty : ∀ key, engine.entry key = none

theorem Engine.rested_fresh : (Engine.fresh : Engine α).Rested where
  active _ := Table.get_empty _
  climbing _ := Table.get_empty _
  depth _ := Table.get_empty _
  empty key := by
    rw [entry, fresh, Table.get_empty]
    exact Std.HashMap.getElem?_empty

/-- What stays as other parsers see it stays at rest. -/
theorem Engine.Rested.untouched {engine engine' : Engine α} (h : engine.Rested)
    (hsame : Untouched engine engine') : engine'.Rested where
  active id := by rw [hsame.active, h.active]
  climbing id := by rw [hsame.climbing, h.climbing]
  depth id := by rw [hsame.depth, h.depth]
  empty key := by rw [Engine.entry, hsame.caches]; exact h.empty key

/-- The size of the longest text has no part in it. -/
theorem Engine.Rested.withHorizon {engine : Engine α} (h : engine.Rested) (horizon : Nat) :
    Engine.Rested { engine with horizon } :=
  ⟨h.active, h.climbing, h.depth, h.empty⟩

/-- At rest, no guard is busy anywhere. -/
theorem Engine.Rested.not_mem_active {engine : Engine α} (h : engine.Rested) (id offset : Nat) :
    offset ∉ engine.active.get id := by
  rw [h.active]
  exact List.not_mem_nil

theorem Engine.Rested.idle {engine : Engine α} (h : engine.Rested) (guards climbs : List Nat)
    (offset : Nat) : Idle guards climbs offset engine where
  free id _ later _ := h.not_mem_active id later
  calm id _ := h.climbing id

/-- A state at rest is ready for a run on any text. -/
theorem Engine.Rested.ready {layout : Layout α} {source : Source} {offset threshold : Nat}
    {engine : Engine α} (h : engine.Rested) : Ready layout source offset threshold engine where
  free id later _ _ := h.not_mem_active id later
  sound slot _ later result hentry := by rw [h.empty] at hentry; cases hentry
  refused memo later result hentry := by rw [h.empty] at hentry; cases hentry
  unused memo later tag _ := h.empty _
  calm id _ := h.climbing id

/-- The bound on the depth of calls is more than a parser without calls needs. -/
theorem Engine.add_lt_depthBound (rules : Rules α) (parser : Parser α) {bytes horizon : Nat}
    (hle : bytes ≤ horizon) : parser.size + bytes < depthBound rules parser horizon := by
  rw [depthBound]
  have hnodes : parser.size < rules.size + parser.size + 3 := by omega
  generalize rules.size + parser.size + 3 = nodes at hnodes
  have hpos : 0 < nodes := Nat.zero_lt_of_lt hnodes
  calc parser.size + bytes
      < nodes + horizon := Nat.add_lt_add_of_lt_of_le hnodes hle
    _ ≤ nodes * horizon + nodes := by
        rw [Nat.add_comm]
        exact Nat.add_le_add_right (Nat.le_mul_of_pos_left _ hpos) _
    _ = nodes * (horizon + 1) := (Nat.mul_succ _ _).symm
    _ ≤ nodes * nodes * nodes * (horizon + 1) :=
        Nat.mul_le_mul_right _ (Nat.le_mul_of_pos_left _ (Nat.mul_pos hpos hpos))

/-- The bound on the depth of calls has room for some calls at every offset. -/
theorem Engine.add_mul_le_depthBound (rules : Rules α) (parser : Parser α)
    {room bytes horizon : Nat} (hroom : room + 10 ≤ 2 * (rules.size + parser.size + 3))
    (hle : bytes ≤ horizon + 1) : room + 10 * bytes ≤ depthBound rules parser horizon := by
  rw [depthBound]
  have hnodes : 2 ≤ rules.size + parser.size + 3 := by omega
  generalize rules.size + parser.size + 3 = nodes at hroom hnodes ⊢
  have hsquare : room + 10 ≤ nodes * nodes := Nat.le_trans hroom (Nat.mul_le_mul_right _ hnodes)
  calc
    room + 10 * bytes ≤ room * (horizon + 1) + 10 * (horizon + 1) :=
      Nat.add_le_add (Nat.le_mul_of_pos_right _ (Nat.succ_pos horizon)) (Nat.mul_le_mul_left _ hle)
    _ = (room + 10) * (horizon + 1) := (Nat.add_mul _ _ _).symm
    _ ≤ nodes * nodes * (horizon + 1) := Nat.mul_le_mul_right _ hsquare
    _ ≤ nodes * nodes * nodes * (horizon + 1) :=
      Nat.mul_le_mul_right _ (Nat.le_mul_of_pos_right _ (Nat.zero_lt_of_lt hnodes))

/-- A run whose bound on the depth of calls fits the longest text so far. -/
theorem yields_parse {rules : Rules α} {parser : Parser α} {cursor : Cursor α} {engine : Engine α}
    {post : Option (Output α) → Engine α → Prop}
    (h : Yields (Engine.run rules (Engine.depthBound rules parser
        (max engine.horizon cursor.source.size)) parser cursor)
      { engine with horizon := max engine.horizon cursor.source.size } post) :
    Yields (parser.parse rules cursor) engine post := by
  obtain ⟨result, engine', hrun, hpost⟩ := h
  exact ⟨result, engine', hrun, hpost⟩

/-- A match of what was read of a text gives the answer of the reading. -/
theorem Matches.answer_eq {source : Source} {reader : Reader α} {output : Option (Output α)}
    (h : Matches source .empty (reader source.chars) output) :
    source.answer output = reader.answer source.chars := by
  rw [Reader.answer]
  cases hread : reader source.chars with
  | none =>
      rw [hread] at h
      obtain rfl := Matches.none_iff.mp h
      rfl
  | some found =>
      obtain ⟨x, rest⟩ := found
      rw [hread] at h
      obtain ⟨next, rfl, hnext, -⟩ := Matches.some_iff.mp h
      have hoffset := hnext.offset_add
      have hsize := source.size_eq
      cases rest with
      | nil =>
          have hend : ¬ next.offset < source.size := by
            rw [Text.byteLength_nil] at hoffset
            omega
          exact if_neg hend
      | cons c cs =>
          have hpos := c.utf8Size_pos
          have hleft : next.offset < source.size := by
            rw [Text.byteLength_cons] at hoffset
            omega
          have heq : next.offset = byteLength source.chars - byteLength (c :: cs) := by omega
          rw [Source.answer, if_pos hleft, heq]

/-- The answer to a whole text is what was read of it. -/
theorem yields_parseText {rules : Rules α} {parser : Parser α} {source : Source}
    {reader : Reader α} {engine : Engine α} {post : Engine α → Prop}
    (h : Yields (parser.parse rules (.start source)) engine fun output engine' =>
      Matches source .empty (reader source.chars) output ∧ post engine') :
    Yields (parser.parseText rules source) engine fun result engine' =>
      result = reader.answer source.chars ∧ post engine' := by
  obtain ⟨output, engine', hparse, hmatches, hpost⟩ := h
  exact Yields.of_eq (parseText_of_parse hparse) ⟨hmatches.answer_eq, hpost⟩

namespace Grammar

variable {grammar : Grammar α} {reader : Reader α}

/-- Texts are answered one after another if each is answered from wherever the last one has led. -/
theorem yields_answerAll {inv : Engine α → Prop} {texts : List String}
    {answer : String → Except (Failure α) α} {engine : Engine α}
    (h : ∀ text ∈ texts, ∀ engine, inv engine →
      Yields (grammar.parseText (.ofString text)) engine fun result engine' =>
        result = answer text ∧ inv engine')
    (hinv : inv engine) :
    Yields (grammar.answerAll (texts.map .text)) engine fun replies engine' =>
      replies.map Prod.fst = texts.map (fun text => .text text (answer text)) ∧ inv engine' := by
  induction texts generalizing engine with
  | nil => exact Yields.pure ⟨rfl, hinv⟩
  | cons text texts ih =>
      obtain ⟨hhead, htail⟩ := List.forall_mem_cons.mp h
      refine Yields.bind (Yields.bind ((hhead engine hinv).mono ?_))
      rintro result engine' ⟨rfl, hinv'⟩
      refine Yields.pure (Yields.bind ?_)
      refine Yields.of_eq (show statistics engine' = .ok (_, engine') from rfl) ?_
      refine Yields.bind ((ih htail hinv').mono ?_)
      rintro replies engine'' ⟨hreplies, hinv''⟩
      refine Yields.pure ⟨?_, hinv''⟩
      rw [List.map_cons, List.map_cons, hreplies]

/-- From rest, a grammar answers a text as a reader does, and comes to rest again. -/
def Reads (grammar : Grammar α) (reader : Reader α) : Prop :=
  ∀ (source : Source) (engine : Engine α), engine.Rested →
    Yields (grammar.parseText source) engine fun result engine' =>
      result = reader.answer source.chars ∧ engine'.Rested

/-- A grammar answers texts as a reader does, on their own and one after another. -/
structure Answers (grammar : Grammar α) (reader : Reader α) : Prop where
  observed : ∀ text : String,
    (grammar.observe text).map (·.result) = .ok (reader.answer text.toList)
  requested : ∀ texts : List String,
    (grammar.answerFresh (texts.map .text)).map (·.map Prod.fst) =
      .ok (texts.map fun text => .text text (reader.answer text.toList))

/-- A grammar without rules and caches answers as its entry reads. -/
theorem reads_of_plain (hplain : grammar.entry.plain = true) :
    grammar.Reads grammar.entry.read := by
  intro source engine hrested
  apply yields_parseText
  apply yields_parse
  have hrested' := hrested.withHorizon (max engine.horizon source.size)
  have hfuel : grammar.entry.size + byteLength source.chars <
      Engine.depthBound grammar.rules grammar.entry (max engine.horizon source.size) := by
    apply Engine.add_lt_depthBound
    rw [← source.size_eq]
    exact Nat.le_max_right _ _
  apply (Parser.run_read hplain hfuel (.start source) rfl (hrested'.idle _ _ _)).mono
  rintro output engine' ⟨hmatches, hsame⟩
  exact ⟨hmatches, hrested'.untouched hsame⟩

theorem Reads.observe (h : grammar.Reads reader) (text : String) :
    (grammar.observe text).map (·.result) = .ok (reader.answer text.toList) := by
  obtain ⟨result, engine', hrun, hresult, -⟩ := h (.ofString text) .fresh Engine.rested_fresh
  simp only [Grammar.observe, StateT.run, Bind.bind, Except.bind, hrun]
  exact congrArg Except.ok hresult

theorem Reads.answers (h : grammar.Reads reader) : grammar.Answers reader where
  observed := h.observe
  requested texts := by
    have htext : ∀ text ∈ texts, ∀ engine : Engine α, engine.Rested →
        Yields (grammar.parseText (.ofString text)) engine fun result engine' =>
          result = reader.answer text.toList ∧ engine'.Rested :=
      fun text _ engine hrested => h (.ofString text) engine hrested
    obtain ⟨replies, engine', hrun, hreplies, -⟩ := yields_answerAll htext Engine.rested_fresh
    rw [answerFresh, StateT.run', hrun]
    exact congrArg Except.ok hreplies

end Grammar

end Packrat
