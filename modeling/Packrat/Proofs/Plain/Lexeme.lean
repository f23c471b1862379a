import Packrat.Proofs.Plain.Run
import Packrat.Proofs.Reader.Sequence

/-!
# Tokens

Plain parsers as readers: what the tokens of a grammar read where nothing stands to their left.
-/

namespace Packrat

open Text (byteLength)

variable {α : Type}

@[simp] theorem LeftContent.behind_empty (kept : Bool) :
    (LeftContent.empty : LeftContent α).behind kept = .empty := by
  cases kept <;> rfl

namespace Parser

/-- What a plain parser reads where nothing stands to its left. -/
def read (parser : Parser α) : Reader α := fun rest => (parser.means .empty rest).map Found.pair

theorem read_shrinks (parser : Parser α) : Reader.Shrinks parser.read := by
  intro rest x shorter hread
  obtain ⟨found, hmeans, heq⟩ := Option.map_eq_some_iff.mp hread
  cases heq
  exact means_le parser .empty rest found hmeans

/-- A run of a plain parser with nothing to its left is a match of what it reads. -/
theorem run_read {rules : Rules α} {fuel : Nat} {parser : Parser α} {cursor : Cursor α}
    {source : Source} {rest : List Char} {engine : Engine α} (hplain : parser.plain = true)
    (hfuel : parser.size + byteLength rest < fuel) (hat : cursor.At source rest)
    (hleft : cursor.left = .empty)
    (hidle : Idle parser.guards parser.climbs cursor.offset engine) :
    Yields (Engine.run rules fuel parser cursor) engine fun output engine' =>
      Matches source .empty (parser.read rest) output ∧ Untouched engine engine' := by
  refine (run_plain rules hplain hfuel hat (Nat.le_refl _) hidle).mono ?_
  rintro output engine' ⟨hland, hsame⟩
  rw [hleft] at hland
  exact ⟨hland.matches_pair, hsame⟩

/-! ## What combinators read -/

section Combinators

variable {parser : Parser α} {rest : List Char}

theorem read_firstOf (alternatives : List (Parser α)) :
    (firstOf alternatives).read = Reader.first (alternatives.map read) := by
  funext rest
  rw [read, means]
  induction alternatives with
  | nil => rfl
  | cons parser parsers ih =>
      rw [meansFirst, List.map_cons, Reader.first, ← ih, read]
      cases parser.means .empty rest <;> rfl

theorem read_sequence (parts : List (Parser α)) (combine : List α → α) :
    (sequence parts combine).read = Reader.map combine (Reader.all (parts.map read)) := by
  have hall : ∀ rest, (meansAll parts .empty rest).map (fun found => (found.1, found.2.1)) =
      Reader.all (parts.map read) rest := by
    induction parts with
    | nil => exact fun _ => rfl
    | cons parser parsers ih =>
        intro rest
        rw [meansAll, List.map_cons, Reader.all, read, Option.map_bind]
        cases parser.means .empty rest with
        | none => rfl
        | some found =>
            simp only [Option.map_some, Option.bind_some, Function.comp_apply, Found.pair,
              LeftContent.behind_empty, ← ih, Option.map_map]
            rfl
  funext rest
  rw [read, means, Reader.map, ← hall, Option.map_map, Option.map_map]
  rfl

theorem read_optional (parser : Parser α) (wrap : Option α → α) :
    (Parser.optional parser wrap).read = Reader.optional wrap parser.read := by
  funext rest
  rw [read, means, Reader.optional, read]
  cases parser.means .empty rest <;> rfl

theorem read_convert (parser : Parser α) (f : α → Option α) (rest : List Char) :
    (convert parser f).read rest =
      (parser.read rest).bind fun (x, rest) => (f x).map (·, rest) := by
  rw [read, means, read]
  cases parser.means .empty rest with
  | none => rfl
  | some found => cases h : f found.payload <;> simp [h, Found.pair]

theorem read_map (parser : Parser α) (f : α → α) :
    (parser.map f).read = Reader.map f parser.read := by
  funext rest
  rw [Parser.map, read_convert, Reader.map]
  cases parser.read rest <;> rfl

/-- What a parser finds over and over is what its reader reads. -/
theorem repeatMeans_eq_many (parser : Parser α) (payloads : List α) (count : Nat)
    (rest : List Char) (kept : Bool) :
    ∃ kept', repeatMeans parser.means none .empty payloads count rest kept =
      ((Reader.many parser.read rest).1.reverse ++ payloads,
        count + (Reader.many parser.read rest).1.length, (Reader.many parser.read rest).2,
        kept') := by
  induction hbytes : byteLength rest using Nat.strongRecOn
    generalizing rest payloads count kept with
  | ind bytes ih =>
      subst hbytes
      cases hmeans : parser.means .empty rest with
      | none =>
          rw [Reader.many_of_none (by rw [read, hmeans]; rfl),
            repeatMeans_of_none rfl (by rw [LeftContent.behind_empty, hmeans])]
          exact ⟨kept, rfl⟩
      | some found =>
          have hread : parser.read rest = some (found.payload, found.rest) := by
            rw [read, hmeans]
            rfl
          rw [repeatMeans_of_some rfl (by rw [LeftContent.behind_empty, hmeans])]
          by_cases hmoved : byteLength found.rest < byteLength rest
          · obtain ⟨kept', hkept⟩ := ih _ hmoved (found.payload :: payloads) (count + 1) found.rest
              (kept && found.kept) rfl
            rw [if_pos hmoved, hkept, Reader.many_of_some hread hmoved]
            refine ⟨kept', ?_⟩
            simp [Nat.add_assoc, Nat.add_comm 1]
          · rw [if_neg hmoved, Reader.many_of_stuck hread hmoved]
            exact ⟨_, rfl⟩

theorem read_many (parser : Parser α) (collect : List α → α) (rest : List Char) :
    (many parser collect).read rest =
      some (Prod.map collect id (Reader.many parser.read rest)) := by
  obtain ⟨kept, hmany⟩ := repeatMeans_eq_many parser [] 0 rest true
  rw [read, many, means, hmany]
  simp only [Nat.not_lt_zero, if_false, List.append_nil, List.reverse_reverse]
  rfl

/-- A repetition that has to match once reads something or nothing at all. -/
theorem read_many1 (parser : Parser α) (collect : List α → α) (rest : List Char) :
    (many1 parser collect).read rest =
      if (Reader.many parser.read rest).1 = [] then none
      else some (Prod.map collect id (Reader.many parser.read rest)) := by
  obtain ⟨kept, hmany⟩ := repeatMeans_eq_many parser [] 0 rest true
  rw [read, many1, means, hmany]
  simp only [List.append_nil, List.reverse_reverse, Nat.zero_add, Nat.lt_one_iff,
    List.length_eq_zero_iff]
  split <;> rfl

end Combinators

/-! ## Characters of a kind -/

section Characters

variable {accepts : Char → Bool} {payload : Char → α} {rest : List Char}

theorem read_satisfy :
    (satisfy accepts payload).read rest =
      match rest with
      | [] => none
      | c :: rest => if accepts c then some (payload c, rest) else none := by
  cases rest with
  | nil => rfl
  | cons c rest =>
      rw [read, means]
      dsimp only
      split <;> rfl

theorem many_satisfy :
    Reader.many (satisfy accepts payload).read rest =
      ((rest.takeWhile accepts).map payload, rest.dropWhile accepts) := by
  induction rest with
  | nil => exact Reader.many_of_none rfl
  | cons c rest ih =>
      cases haccepts : accepts c with
      | false =>
          rw [Reader.many_of_none (by rw [read_satisfy]; exact if_neg (by rw [haccepts]; decide))]
          simp [haccepts]
      | true =>
          have hread : (satisfy accepts payload).read (c :: rest) = some (payload c, rest) := by
            rw [read_satisfy]
            exact if_pos haccepts
          rw [Reader.many_of_some hread (by simpa using c.utf8Size_pos), ih]
          simp [haccepts]

theorem read_many_satisfy {collect : List α → α} :
    (many (satisfy accepts payload) collect).read rest =
      some (collect ((rest.takeWhile accepts).map payload), rest.dropWhile accepts) := by
  rw [read_many, many_satisfy]
  rfl

/-- At least one character of a kind, and all that follow. -/
theorem read_many1_satisfy {collect : List α → α} :
    (many1 (satisfy accepts payload) collect).read rest =
      if rest.takeWhile accepts = [] then none
      else some (collect ((rest.takeWhile accepts).map payload), rest.dropWhile accepts) := by
  rw [read_many1, many_satisfy]
  simp only [List.map_eq_nil_iff]
  rfl

/-- A single character as a literal. -/
theorem read_literal_singleton {expected : Char} {payload : α} :
    (literal [expected] payload).read rest =
      match rest with
      | [] => none
      | c :: rest => if c = expected then some (payload, rest) else none := by
  cases rest with
  | nil => rfl
  | cons c rest =>
      rw [read, means]
      by_cases heq : c = expected
      · subst heq
        simp [Found.pair]
      · have hne : ¬ expected = c := fun h => heq h.symm
        simp [heq, hne]

end Characters

/-! ## White space -/

theorem read_padded (filler : α) (parser : Parser α) :
    (padded filler parser).read = Reader.padded parser.read := by
  funext rest
  simp only [padded, read_sequence, List.map_cons, List.map_nil, Reader.map, Reader.all,
    read_many_satisfy, Option.bind_some, Option.map_bind]
  rw [Reader.padded, Reader.skipBlanks]
  cases parser.read (rest.dropWhile Text.isBlank) <;> rfl

theorem read_token (filler : α) (text : String) (payload : α) (rest : List Char) :
    (token filler text payload).read rest = (Reader.behind text rest).map (payload, ·) := by
  rw [token, read_padded, Reader.padded, Reader.behind, read, means]
  split <;> rfl

theorem plain_padded (filler : α) (parser : Parser α) :
    (padded filler parser).plain = parser.plain := by
  simp [padded, many, plain, plainAll]

theorem guards_padded (filler : α) (parser : Parser α) :
    (padded filler parser).guards = parser.guards := by
  simp [padded, many, guards, guardsAll]

theorem climbs_padded (filler : α) (parser : Parser α) :
    (padded filler parser).climbs = parser.climbs := by
  simp [padded, many, climbs, climbsAll]

/-- A token leaves the state alone whatever the state is. -/
theorem run_token {rules : Rules α} {fuel : Nat} {filler payload : α} {text : String}
    {cursor : Cursor α} {source : Source} {rest : List Char} {engine : Engine α}
    (hfuel : byteLength rest + 6 < fuel) (hat : cursor.At source rest)
    (hleft : cursor.left = .empty) :
    Yields (Engine.run rules fuel (token filler text payload) cursor) engine
      fun output engine' =>
        Matches source .empty ((Reader.behind text rest).map (payload, ·)) output ∧
          Untouched engine engine' := by
  rw [← read_token filler]
  refine run_read (plain_padded filler _) ?_ hat hleft ⟨?_, ?_⟩
  · simp only [token, padded, many, size, sizeAll]
    omega
  · rw [token, guards_padded]
    exact fun id hid => by cases hid
  · rw [token, climbs_padded]
    exact fun id hid => by cases hid

end Parser

end Packrat
