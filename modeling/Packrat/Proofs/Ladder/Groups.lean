import Packrat.Proofs.Ladder.Parts
import Packrat.Proofs.Reader.Sequence

/-!
# Inside groups

Behind its first symbol, a group is made of plain parsers, of calls of the whole grammar, and of
what sequences, repetitions and guards make of them.  `Inside` says that a parser in such a place
matches what a reader reads; one lemma for each combinator puts the places together.
-/

namespace Packrat.Ladder

open Engine
open Text (byteLength)

variable {α : Type} {ladder : Ladder α} {source : Source} {cursor : Cursor α} {rest : List Char}
  {engine : Engine α} {parser : Parser α} {parsers : List (Parser α)} {reader : Reader α}
  {readers : List (Reader α)} {offset threshold fuel bytes i : Nat}

/-! ## Plain parsers -/

/-- A plain parser that shares no guard and no precedence node with the operators. -/
structure Atomic (ladder : Ladder α) (parser : Parser α) : Prop where
  plain : parser.plain = true
  guards : ∀ id ∈ parser.guards, id ∉ ladder.levels.flatMap Level.guards ++ ladder.around
  climbs : ladder.node ∉ parser.climbs

theorem Atomic.idle (h : ladder.Atomic parser)
    (hready : Ready ladder.layout source offset threshold engine) :
    Idle parser.guards parser.climbs offset engine where
  free id hid later hle := by
    refine hready.free id later hle fun rank hmem => absurd ?_ (h.guards id hid)
    rw [← guardRanks_fst]
    exact List.mem_map_of_mem hmem
  calm id hid := by
    refine hready.calm id ?_
    rintro rfl
    exact h.climbs hid

/-- A plain parser matches what it reads wherever it stands. -/
theorem yields_atomic (hatomic : ladder.Atomic parser) (hat : cursor.At source rest)
    (hleft : cursor.left = .empty)
    (hready : Ready ladder.layout source cursor.offset threshold engine)
    (hfuel : parser.size + byteLength rest < fuel) :
    Yields (run ladder.rules fuel parser cursor) engine
      (ladder.Parses source cursor.offset threshold engine (parser.read rest)) :=
  (Parser.run_read hatomic.plain hfuel hat hleft (hatomic.idle hready)).mono
    fun _ _ hrun => ⟨hrun.1, .of_untouched hrun.2⟩

/-- A plain parser without guards and precedence nodes has nothing to do with the operators. -/
theorem Atomic.of_bare (hplain : parser.plain = true) (hguards : parser.guards = [])
    (hclimbs : parser.climbs = []) : ladder.Atomic parser where
  plain := hplain
  guards id hid := by
    rw [hguards] at hid
    cases hid
  climbs hid := by
    rw [hclimbs] at hid
    cases hid

theorem Atomic.token (filler payload : α) (text : String) :
    ladder.Atomic (.token filler text payload) :=
  .of_bare (Parser.plain_padded filler _) (Parser.guards_padded filler _)
    (Parser.climbs_padded filler _)

/-! ## Places in a group -/

/--
A parser matches what a reader reads in front of less than the given number of bytes, while the
alternative at `i` is tried.
-/
def Inside (ladder : Ladder α) (source : Source) (i bytes threshold : Nat) (parser : Parser α)
    (reader : Reader α) : Prop :=
  ∀ ⦃cursor : Cursor α⦄ ⦃rest : List Char⦄ ⦃engine : Engine α⦄ ⦃fuel : Nat⦄,
    cursor.At source rest → byteLength rest < bytes → cursor.left = .empty →
    Ready ladder.layout source cursor.offset threshold engine →
    (engine.climbing.get ladder.node).head? = some i →
    ladder.scale * bytes + parser.size ≤ fuel →
      Yields (run ladder.rules fuel parser cursor) engine
        (ladder.Parses source cursor.offset threshold engine (reader rest))

/-- Where precedence starts over, a call matches what the whole grammar reads. -/
theorem inside_call (hrung : ladder.rungs[i]? = some parser)
    (hrestarts : ∀ {fuel : Nat}, 3 ≤ fuel → restarts ladder.rules fuel parser = .ok true)
    (hclimbs : ∀ fewer, fewer < bytes → ladder.Climbs source fewer 0) :
    ladder.Inside source i bytes 1 (.call 0) (ladder.reads 0) := by
  intro cursor rest engine fuel hat hbytes hleft hready htop hfuel
  have hdepth := ladder.depth_lt hbytes 0
  exact yields_call_nested hrung hrestarts htop (hclimbs _ hbytes) hat rfl hleft hready (by omega)

/-- A parser that relies on fewer guards may stand where more are free. -/
theorem Inside.lower {higher : Nat} (h : ladder.Inside source i bytes higher parser reader)
    (hle : threshold ≤ higher) : ladder.Inside source i bytes threshold parser reader := by
  intro cursor rest engine fuel hat hbytes hleft hready htop hfuel
  refine (h hat hbytes hleft (hready.ahead (.of_le hle)) htop hfuel).mono ?_
  exact fun output engine' hparses => hparses.wider (.of_le hle)

theorem inside_atomic (hatomic : ladder.Atomic parser) :
    ladder.Inside source i bytes threshold parser parser.read := by
  intro cursor rest engine fuel hat hbytes hleft hready htop hfuel
  have hscale := ladder.le_scale_mul bytes
  exact yields_atomic hatomic hat hleft hready (by omega)

/-- A guard around a whole expression is free, since the expression stands behind a symbol. -/
theorem inside_guarded {id : Nat} (hid : id ∈ ladder.around)
    (h : ladder.Inside source i bytes 1 parser reader) :
    ladder.Inside source i bytes 0 (.guarded id parser) reader := by
  intro cursor rest engine fuel hat hbytes hleft hready htop hfuel
  have hguard := mem_guards_around hid
  rw [Parser.size] at hfuel
  obtain ⟨fuel, rfl⟩ := Nat.exists_eq_add_of_le' (show 1 ≤ fuel by omega)
  refine yields_guardedMatch_free (hready.free_of_le hguard (Nat.le_refl 0))
    ((h hat hbytes hleft ((hready.ahead (.of_le (Nat.zero_le 1))).entered hguard Nat.zero_lt_one)
      htop (by omega)).mono ?_)
  rintro output engine' hparses
  exact ⟨hparses.1, (hparses.2.wider (.of_le (Nat.zero_le 1))).freed⟩

/-- Parsers one behind another match what their readers read. -/
theorem yields_all (h : List.Forall₂ (ladder.Inside source i bytes threshold) parsers readers)
    (hshrinks : ∀ reader ∈ readers, Reader.Shrinks reader) (hat : cursor.At source rest)
    (hbytes : byteLength rest < bytes) (hleft : cursor.left = .empty)
    (hready : Ready ladder.layout source cursor.offset threshold engine)
    (htop : (engine.climbing.get ladder.node).head? = some i)
    (hfuel : ladder.scale * bytes + Parser.sizeAll parsers ≤ fuel) :
    Yields (inSequence (run ladder.rules fuel) parsers cursor) engine
      (ladder.Parts source cursor.offset threshold engine (Reader.all readers rest)) := by
  induction h generalizing cursor rest engine with
  | nil => exact yields_parts_nil hat hleft
  | @cons parser reader parsers readers hhead _ ih =>
      obtain ⟨hfirst, hothers⟩ := List.forall_mem_cons.mp hshrinks
      rw [Parser.sizeAll] at hfuel
      refine yields_parts_cons (Reader.all readers)
        (hhead hat hbytes hleft hready htop (by omega)) ?_
      intro payload shorter next engine' hread hnext hnextLeft hkept
      have hle := hfirst _ _ _ hread
      have hahead : Ahead cursor.offset threshold next.offset threshold := by
        have hoffset := (hat.offset_le_iff hnext).mpr hle
        simp only [Ahead]
        omega
      refine (ih hothers hnext (by omega) hnextLeft ((hready.kept hkept).ahead hahead)
        (by rw [hkept.climbing, htop]) (by omega)).mono ?_
      rintro result engine'' ⟨hall, hkept'⟩
      exact ⟨hall, hkept'.wider hahead⟩

theorem inside_sequence {combine : List α → α}
    (h : List.Forall₂ (ladder.Inside source i bytes threshold) parsers readers)
    (hshrinks : ∀ reader ∈ readers, Reader.Shrinks reader) :
    ladder.Inside source i bytes threshold (.sequence parsers combine)
      (.map combine (.all readers)) := by
  intro cursor rest engine fuel hat hbytes hleft hready htop hfuel
  rw [Parser.size] at hfuel
  exact yields_sequence _ hfuel fun hfuel =>
    yields_all h hshrinks hat hbytes hleft hready htop hfuel

theorem inside_optional {wrap : Option α → α}
    (h : ladder.Inside source i bytes threshold parser reader) :
    ladder.Inside source i bytes threshold (.optional parser wrap) (.optional wrap reader) := by
  intro cursor rest engine fuel hat hbytes hleft hready htop hfuel
  rw [Parser.size] at hfuel
  obtain ⟨fuel, rfl⟩ := Nat.exists_eq_add_of_le' (show 1 ≤ fuel by omega)
  refine Yields.bind ((h hat hbytes hleft hready htop (by omega)).mono ?_)
  rintro output engine' ⟨hmatches, hkept⟩
  rw [Reader.optional]
  cases hread : reader rest with
  | none =>
      rw [hread] at hmatches
      obtain rfl := Matches.none_iff.mp hmatches
      exact Yields.pure ⟨⟨rfl, hat, hleft⟩, hkept⟩
  | some found =>
      rw [hread] at hmatches
      obtain ⟨next, rfl, hnext, hnextLeft⟩ := Matches.some_iff.mp hmatches
      exact Yields.pure ⟨⟨rfl, hnext, hnextLeft⟩, hkept⟩

/-- A repetition, behind what it has matched already. -/
theorem yields_many (h : ladder.Inside source i bytes threshold parser reader)
    (hshrinks : Reader.Shrinks reader) {payloads : List α} {count rounds : Nat}
    (hat : cursor.At source rest) (hbytes : byteLength rest < bytes)
    (hleft : cursor.left = .empty)
    (hready : Ready ladder.layout source cursor.offset threshold engine)
    (htop : (engine.climbing.get ladder.node).head? = some i)
    (hrounds : byteLength rest < rounds) (hfuel : ladder.scale * bytes + parser.size ≤ fuel) :
    Yields (repeatMatch (run ladder.rules fuel) parser none rounds payloads count cursor) engine
      fun result engine' =>
        (result.1 = (Reader.many reader rest).1.reverse ++ payloads ∧
            result.2.2.At source (Reader.many reader rest).2 ∧ result.2.2.left = .empty) ∧
          Kept ladder.layout source cursor.offset threshold engine engine' := by
  induction rounds generalizing cursor rest engine payloads count with
  | zero => exact absurd hrounds (Nat.not_lt_zero _)
  | succ rounds ih =>
      refine yields_repeatMatch_succ rfl ((h hat hbytes hleft hready htop hfuel).mono ?_)
      rintro output engine' ⟨hmatches, hkept⟩
      cases hread : reader rest with
      | none =>
          rw [hread] at hmatches
          obtain rfl := Matches.none_iff.mp hmatches
          rw [Reader.many_of_none hread]
          exact ⟨⟨rfl, hat, hleft⟩, hkept⟩
      | some found =>
          obtain ⟨payload, shorter⟩ := found
          rw [hread] at hmatches
          obtain ⟨next, rfl, hnext, hnextLeft⟩ := Matches.some_iff.mp hmatches
          have hle := hshrinks _ _ _ hread
          have hahead : Ahead cursor.offset threshold next.offset threshold := by
            have hoffset := (hat.offset_le_iff hnext).mpr hle
            simp only [Ahead]
            omega
          simp only [hat.offset_lt_iff hnext]
          by_cases hmoved : byteLength shorter < byteLength rest
          · rw [if_pos hmoved, Reader.many_of_some hread hmoved]
            refine (ih hnext (by omega) hnextLeft ((hready.kept hkept).ahead hahead)
              (by rw [hkept.climbing, htop]) (by omega)).mono ?_
            rintro result engine'' ⟨⟨hpayloads, hplace⟩, hkept'⟩
            refine ⟨⟨?_, hplace⟩, hkept.trans (hkept'.wider hahead)⟩
            rw [hpayloads, Prod.map_fst, List.reverse_cons, List.append_assoc]
            rfl
          · rw [if_neg hmoved, Reader.many_of_stuck hread hmoved]
            exact ⟨⟨rfl, hnext, hnextLeft⟩, hkept⟩

theorem inside_many {collect : List α → α}
    (h : ladder.Inside source i bytes threshold parser reader)
    (hshrinks : Reader.Shrinks reader) :
    ladder.Inside source i bytes threshold (.many parser collect)
      fun rest => some (Prod.map collect id (Reader.many reader rest)) := by
  intro cursor rest engine fuel hat hbytes hleft hready htop hfuel
  have hscale := ladder.le_scale_mul bytes
  rw [Parser.many, Parser.size] at hfuel
  obtain ⟨fuel, rfl⟩ := Nat.exists_eq_add_of_le' (show 1 ≤ fuel by omega)
  refine yields_repetition ((yields_many h hshrinks hat hbytes hleft hready htop (by omega)
    (by omega)).mono ?_)
  rintro ⟨payloads, count, next⟩ engine' ⟨⟨hpayloads, hnext, hnextLeft⟩, hkept⟩
  refine ⟨⟨?_, hnext, hnextLeft⟩, hkept⟩
  dsimp only at hpayloads ⊢
  rw [hpayloads, List.append_nil, List.reverse_reverse]

/-! ## Lists -/

/-- What a separator and an item behind it are read as. -/
def tailReading (pack : List α → α) (separator item : Reader α) : Reader α :=
  .map (fun payloads => payloads.getD 1 (pack [])) (.all [separator, item])

/-- What any number of items with separators between them are read as. -/
def joinedReading (pack : List α → α) (unpack : α → List α) (item separator : Reader α) :
    Reader α :=
  .optional (fun payload => payload.getD (pack [])) <|
    .map (fun
        | [first, rest] => pack (first :: unpack rest)
        | _ => pack []) <|
      .all [item, fun rest =>
        some (Prod.map pack id (Reader.many (tailReading pack separator item) rest))]

section Joined

variable {pack : List α → α} {unpack : α → List α} {item item' separator : Reader α} {limit : Nat}

theorem tailReading_shrinks (hseparator : Reader.Shrinks separator) (hitem : Reader.Shrinks item) :
    Reader.Shrinks (tailReading pack separator item) :=
  Reader.map_shrinks (Reader.all_shrinks (List.forall_mem_cons.mpr
    ⟨hseparator, List.forall_mem_singleton.mpr hitem⟩))

theorem manyReading_shrinks (hseparator : Reader.Shrinks separator)
    (hitem : Reader.Shrinks item) :
    Reader.Shrinks fun rest =>
      some (Prod.map pack id (Reader.many (tailReading pack separator item) rest)) := by
  intro rest x shorter hread
  cases hread
  exact Reader.many_le (tailReading_shrinks hseparator hitem) rest

theorem joinedReading_shrinks (hseparator : Reader.Shrinks separator)
    (hitem : Reader.Shrinks item) :
    Reader.Shrinks (joinedReading pack unpack item separator) :=
  Reader.optional_shrinks (Reader.map_shrinks (Reader.all_shrinks (List.forall_mem_cons.mpr
    ⟨hitem, List.forall_mem_singleton.mpr (manyReading_shrinks hseparator hitem)⟩)))

theorem joinedReading_agree (hseparator : Reader.Shrinks separator)
    (hitem : Reader.Shrinks item) (h : Reader.Agree limit item item') :
    Reader.Agree limit (joinedReading pack unpack item separator)
      (joinedReading pack unpack item' separator) := by
  have htail : Reader.Agree limit (tailReading pack separator item)
      (tailReading pack separator item') := by
    refine Reader.map_agree (Reader.all_agree ?_ (.cons (fun _ _ => rfl) (.cons h .nil)))
    exact List.forall_mem_cons.mpr ⟨hseparator, List.forall_mem_singleton.mpr hitem⟩
  refine Reader.optional_agree (Reader.map_agree (Reader.all_agree ?_ (.cons h (.cons ?_ .nil))))
  · exact List.forall_mem_cons.mpr
      ⟨hitem, List.forall_mem_singleton.mpr (manyReading_shrinks hseparator hitem)⟩
  · intro rest hrest
    refine congrArg (fun found => some (Prod.map pack id found)) (Reader.many_congr ?_)
    exact fun shorter hle => htail shorter (Nat.lt_of_le_of_lt hle hrest)

/-- A list of expressions inside a group. -/
theorem inside_joined {tailId itemsId : Nat} {separator : Parser α}
    (htail : tailId ∈ ladder.around) (hitems : itemsId ∈ ladder.around)
    (hseparator : ladder.Atomic separator) (hitem : Reader.Shrinks item)
    (hcall : ladder.Inside source i bytes 1 (.call 0) item) :
    ladder.Inside source i bytes 0 (.joined tailId itemsId pack unpack (.call 0) separator)
      (joinedReading pack unpack item separator.read) := by
  have hseparatorShrinks := separator.read_shrinks
  have hlater : ladder.Inside source i bytes 0
      (.inOrder tailId separator [.call 0] fun payloads => payloads.getD 1 (pack []))
      (tailReading pack separator.read item) := by
    refine inside_sequence ?_ ?_
    · exact .cons (inside_guarded htail (inside_atomic hseparator))
        (.cons (hcall.lower (Nat.zero_le 1)) .nil)
    · exact List.forall_mem_cons.mpr
        ⟨hseparatorShrinks, List.forall_mem_singleton.mpr hitem⟩
  unfold Parser.joined joinedReading
  apply inside_optional
  refine inside_sequence ?_ ?_
  · exact .cons (inside_guarded hitems hcall)
      (.cons (inside_many hlater (tailReading_shrinks hseparatorShrinks hitem)) .nil)
  · exact List.forall_mem_cons.mpr
      ⟨hitem, List.forall_mem_singleton.mpr (manyReading_shrinks hseparatorShrinks hitem)⟩

end Joined

/-! ## Groups -/

/-- A parser that is a group as a whole matches what a reader reads. -/
def Leads (ladder : Ladder α) (parser : Parser α) (reader : Reader α) : Prop :=
  ∀ ⦃source : Source⦄ ⦃cursor : Cursor α⦄ ⦃rest : List Char⦄ ⦃engine : Engine α⦄
    ⦃fuel threshold i : Nat⦄,
    cursor.At source rest → cursor.left = .empty →
    Ready ladder.layout source cursor.offset threshold engine →
    (engine.climbing.get ladder.node).head? = some i →
    ladder.Inside source i (byteLength rest) 1 (.call 0) ladder.expression →
    ladder.scale * byteLength rest + parser.size < fuel →
      Yields (run ladder.rules fuel parser cursor) engine
        (ladder.Parses source cursor.offset threshold engine (reader rest))

/-- A group begins with a plain parser that leads ahead; the rest of it is inside. -/
theorem leads_sequence {first : Parser α} {combine : List α → α} (hfirst : ladder.Atomic first)
    (hahead : ∀ rest x shorter, first.read rest = some (x, shorter) →
      byteLength shorter < byteLength rest)
    (hinside : ∀ {source : Source} {i bytes : Nat},
      ladder.Inside source i bytes 1 (.call 0) ladder.expression →
        List.Forall₂ (ladder.Inside source i bytes 0) parsers readers)
    (hshrinks : ∀ reader ∈ readers, Reader.Shrinks reader) :
    ladder.Leads (.sequence (first :: parsers) combine)
      (.map combine (.all (first.read :: readers))) := by
  intro source cursor rest engine fuel threshold i hat hleft hready htop hcall hfuel
  have hscale := ladder.le_scale_mul (byteLength rest)
  rw [Parser.size, Parser.sizeAll] at hfuel
  refine yields_sequence
    (ladder.scale * byteLength rest + first.size + Parser.sizeAll parsers + 1) (by omega)
    fun {fuel} hfuel => ?_
  refine yields_parts_cons (Reader.all readers)
    (yields_atomic hfirst hat hleft hready (by omega)) ?_
  intro payload shorter next engine' hread hnext hnextLeft hkept
  have hlt := hahead _ _ _ hread
  have hoffset := (hat.offset_lt_iff hnext).mpr hlt
  refine (yields_all (hinside hcall) hshrinks hnext hlt hnextLeft
    ((hready.kept hkept).ahead (.of_lt hoffset)) (by rw [hkept.climbing, htop]) (by omega)).mono ?_
  rintro result engine'' ⟨hall, hkept'⟩
  exact ⟨hall, hkept'.wider (.of_lt hoffset)⟩

theorem leads_map {f : α → α} (h : ladder.Leads parser reader) :
    ladder.Leads (parser.map f) (.map f reader) := by
  intro source cursor rest engine fuel threshold i hat hleft hready htop hcall hfuel
  rw [Parser.map, Parser.size] at hfuel
  obtain ⟨fuel, rfl⟩ := Nat.exists_eq_add_of_le' (show 1 ≤ fuel by omega)
  refine Yields.bind ((h hat hleft hready htop hcall (by omega)).mono ?_)
  rintro output engine' ⟨hmatches, hkept⟩
  rw [Reader.map]
  cases hread : reader rest with
  | none =>
      rw [hread] at hmatches
      obtain rfl := Matches.none_iff.mp hmatches
      exact Yields.pure ⟨trivial, hkept⟩
  | some found =>
      rw [hread] at hmatches
      obtain ⟨next, rfl, hnext, hnextLeft⟩ := Matches.some_iff.mp hmatches
      exact Yields.pure ⟨⟨rfl, hnext, hnextLeft⟩, hkept⟩

end Packrat.Ladder
