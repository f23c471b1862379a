import Packrat.Proofs.Ladder.Parts

/-!
# Prefix and right-associative levels

An operand behind a symbol is read further on, where a level may start over.  The left operand of a
right-associative operator stands at the place of the operator's own rule: there its guard and its
stored result keep the rule out, and the operand is what the tighter levels read.
-/

namespace Packrat.Ladder

open Engine
open Text (byteLength)

variable {α : Type} {ladder : Ladder α} {source : Source} {cursor : Cursor α} {rest : List Char}
  {engine engine' : Engine α} {parser : Parser α} {parsers : List (Parser α)}
  {threshold fuel bound bytes i memo : Nat} {name : String}

/-! ## Levels do not restart precedence -/

theorem restarts_rule {nested : Bool} (hfuel : 3 ≤ fuel)
    (h : ∀ {fuel : Nat}, 1 ≤ fuel → restarts ladder.rules fuel parser = .ok nested) :
    restarts ladder.rules fuel (ladder.rule memo name parser) = .ok nested := by
  obtain ⟨fuel, rfl⟩ := Nat.exists_eq_add_of_le' hfuel
  rw [rule]
  cases ladder.cached <;> cases ladder.traced
  · exact h (Nat.succ_pos _)
  · exact h (Nat.succ_pos _)
  · exact h (Nat.succ_pos _)
  · exact h (Nat.succ_pos _)

theorem restarts_anyOf {wrapped : Bool} (hfuel : 3 ≤ fuel)
    (h : ∀ parser ∈ parsers, restarts ladder.rules fuel parser = .ok false) :
    restarts ladder.rules fuel (.anyOf wrapped parsers) = .ok false := by
  obtain ⟨fuel, rfl⟩ := Nat.exists_eq_add_of_le' hfuel
  match parsers, wrapped with
  | [], _ => rfl
  | [parser], true => rfl
  | [parser], false => exact h parser List.mem_cons_self
  | _ :: _ :: _, _ => rfl

theorem restarts_levelRule (level : Level α) (hfuel : 3 ≤ fuel) :
    restarts ladder.rules fuel (ladder.levelRule level) = .ok false := by
  have hplain {parser : Parser α} (h : ∀ fuel, restarts ladder.rules (fuel + 1) parser = .ok false)
      {fuel : Nat} (hfuel : 1 ≤ fuel) : restarts ladder.rules fuel parser = .ok false := by
    obtain ⟨fuel, rfl⟩ := Nat.exists_eq_add_of_le' hfuel
    exact h fuel
  cases level with
  | left wrapped operators =>
      refine restarts_anyOf hfuel fun parser hmem => ?_
      obtain ⟨operator, -, rfl⟩ := List.mem_map.mp hmem
      exact restarts_rule hfuel (hplain fun _ => rfl)
  | right operator signs => exact restarts_rule hfuel (hplain fun _ => rfl)
  | prefixed wrapped operators =>
      refine restarts_anyOf hfuel fun parser hmem => ?_
      obtain ⟨operator, -, rfl⟩ := List.mem_map.mp hmem
      exact restarts_rule hfuel (hplain fun _ => rfl)

/-! ## Prefix operators -/

theorem prefixed_rung {wrapped : Bool} {operators : List (Prefix α)}
    (hlevel : ladder.levels[i]? = some (.prefixed wrapped operators))
    (hclimbs : ∀ fewer, fewer < bytes → ladder.Climbs source fewer i) :
    ladder.Rung source bytes i (ladder.levelRule (.prefixed wrapped operators))
      (Reader.first (operators.map fun operator =>
        operator.toSign.unary.before (ladder.reads i))) := by
  intro cursor rest engine fuel hat hbytes hleft hready htop hfuel
  have hscale := ladder.le_scale_mul bytes
  rw [depth] at hfuel
  refine yields_anyOf (ladder.scale * bytes + 12) (by omega) fun {fuel} hfuel => ?_
  refine yields_firstMatch ?_
  rw [List.forall₂_map_left_iff, List.forall₂_map_right_iff]
  refine List.forall₂_same.mpr fun operator hmem engine' hkept => ?_
  have hslot : (⟨operator.memo, i + 1, operator.toSign.unary.before (ladder.reads i)⟩ : Slot α) ∈
      ladder.layout.slots := mem_slots hlevel (List.mem_map_of_mem hmem)
  refine yields_rule (ladder.scale * bytes + 9) hslot (hready.kept hkept) hat hleft
    (by omega)
    fun {fuel begun} hfuel hbegunReady hbegun => ?_
  have htop' : (begun.climbing.get ladder.node).head? = some i := by
    rw [hbegun.climbing, hkept.climbing, htop]
  have hlater : ladder.Later source cursor.offset (i + 1 + 1) bytes begun
      (ladder.scale * bytes + 8) (ladder.reads i) :=
    later_inside (rungs_level hlevel) (restarts_levelRule _) htop' hclimbs hat hbytes hbegunReady
      (by omega)
  exact yields_sign operator.toSign hlater hat (Nat.le_of_eq hbytes) hleft (by omega) hfuel

theorem prefixed_climbs {wrapped : Bool} {operators : List (Prefix α)}
    (hlevel : ladder.levels[i]? = some (.prefixed wrapped operators))
    (hclimbs : ∀ fewer, fewer < bytes → ladder.Climbs source fewer i)
    (hnext : ladder.Climbs source bytes (i + 1)) : ladder.Climbs source bytes i := by
  refine climbs_of_rung (rungs_level hlevel) (prefixed_rung hlevel hclimbs) hnext fun rest => ?_
  have hreads := reads_level hlevel
  have heq : ladder.reads i rest = Reader.signed (operators.map (·.unary)) (ladder.reads i)
      (ladder.reads (i + 1)) rest := by
    conv_lhs => rw [hreads, Level.reading, Reader.prefixed_eq]
    rw [hreads]
    rfl
  rw [heq, Reader.signed, Reader.first_append, List.map_map]
  congr 1
  exact Option.or_none

/-! ## Rules that are kept out -/

/-- A rule is under way at an offset, or it is known to read nothing there. -/
structure Blocked (ladder : Ladder α) (operator : Infix α) (offset : Nat) (engine : Engine α) :
    Prop where
  stored : ladder.cached = true → engine.entry ⟨operator.memo, offset, .empty⟩ = some none
  busy : ladder.cached = false → offset ∈ engine.active.get operator.guard

namespace Blocked

variable {operator : Infix α} {offset : Nat}

theorem kept {source : Source} {at_ : Nat} (h : ladder.Blocked operator offset engine)
    (hkept : Kept ladder.layout source at_ threshold engine engine') :
    ladder.Blocked operator offset engine' where
  stored hcached := hkept.grows _ _ (h.stored hcached)
  busy hcached := by
    rw [hkept.active]
    exact h.busy hcached

theorem pushed (h : ladder.Blocked operator offset engine) (index : Nat) :
    ladder.Blocked operator offset (engine.pushed ladder.node index) :=
  ⟨h.stored, h.busy⟩

/-- A rule that has begun and entered its guard is under way. -/
theorem entered {begun : Engine α}
    (hbegun : Written ladder.cached ⟨operator.memo, offset, .empty⟩ none engine begun) :
    ladder.Blocked operator offset (begun.entered operator.guard offset) where
  stored := hbegun.here
  busy _ := by
    rw [Engine.active_entered_self]
    exact List.mem_cons_self

end Blocked

/-- A rule that is kept out matches nothing; its body must begin with its guard. -/
theorem yields_blocked (bound : Nat) {operator : Infix α} {at_ : Nat}
    (hblocked : ladder.Blocked operator cursor.offset engine) (hleft : cursor.left = .empty)
    (hfuel : bound + 2 ≤ fuel)
    (hbody : ∀ {fuel : Nat} {engine : Engine α} {post : Option (Output α) → Engine α → Prop},
      bound ≤ fuel → cursor.offset ∈ engine.active.get operator.guard → post none engine →
        Yields (run ladder.rules fuel parser cursor) engine post) :
    Yields (run ladder.rules fuel (ladder.rule operator.memo name parser) cursor) engine
      (ladder.Parses source at_ threshold engine none) := by
  have hkey : (⟨operator.memo, cursor.offset, cursor.left.key⟩ : CacheKey) =
      ⟨operator.memo, cursor.offset, .empty⟩ := by rw [hleft]; rfl
  cases hcached : ladder.cached with
  | true =>
      refine yields_rule_stored (by omega) hcached (hkey ▸ hblocked.stored hcached) ?_
      exact fun engine' hkept => ⟨trivial, hkept⟩
  | false =>
      refine yields_rule_missing bound hfuel (fun h => by rw [hcached] at h; cases h) ?_
      intro fuel begun hfuel hbegun
      have hbusy : cursor.offset ∈ begun.active.get operator.guard := by
        rw [hbegun.active]
        exact hblocked.busy hcached
      refine hbody hfuel hbusy ?_
      intro ended hended
      rw [hcached] at hbegun hended
      exact ⟨trivial, hbegun.kept.trans hended.kept⟩

/-- A call at the place of an alternative: what the alternative reads, or else the tighter ones. -/
theorem yields_call_attempt (own : Option (α × List Char)) (bound : Nat)
    (hrung : ladder.rungs[i]? = some parser)
    (hrestarts : ∀ {fuel : Nat}, 3 ≤ fuel → restarts ladder.rules fuel parser = .ok false)
    (htop : (engine.climbing.get ladder.node).head? = some i)
    (hnext : ladder.Climbs source bytes (i + 1)) (hat : cursor.At source rest)
    (hbytes : byteLength rest = bytes) (hleft : cursor.left.isOperand = false)
    (hready : Ready ladder.layout source cursor.offset (i + 1 + 1) engine)
    (hthreshold : threshold ≤ i + 1 + 1) (hdepth : ladder.depth bytes (i + 1) ≤ bound)
    (hbound : 3 ≤ bound) (hfuel : bound + 2 ≤ fuel)
    (hattempt : ∀ {fuel : Nat}, bound ≤ fuel →
      Yields (run ladder.rules fuel parser cursor) (engine.pushed ladder.node i)
        (ladder.Parses source cursor.offset threshold (engine.pushed ladder.node i) own)) :
    Yields (run ladder.rules fuel (.call 0) cursor) engine
      (ladder.Parses source cursor.offset threshold engine
        (own.or (ladder.reads (i + 1) rest))) := by
  obtain ⟨hlt, hparser⟩ := List.getElem?_eq_some_iff.mp hrung
  have hdrop : ladder.rungs.drop i = parser :: ladder.rungs.drop (i + 1) := by
    rw [List.drop_eq_getElem_cons hlt, hparser]
  refine yields_call bound hfuel fun {fuel} hfuel => ?_
  refine yields_climbMatch_active htop hdrop (hrestarts (Nat.le_trans hbound hfuel))
    (yields_attempt ((hattempt hfuel).mono ?_))
  rintro output engine' ⟨hmatches, hkept⟩
  have hkept := hkept.popped
  cases own with
  | some found =>
      obtain ⟨next, rfl, -, -⟩ := Matches.some_iff.mp hmatches
      exact ⟨hmatches, hkept⟩
  | none =>
      obtain rfl := Matches.none_iff.mp hmatches
      simp only [hleft, Bool.false_eq_true, if_false, Option.none_or]
      refine (hnext hat.withoutLeft hbytes rfl (hready.kept hkept)
        (Nat.le_trans hdepth hfuel)).mono fun output engine'' hparses => ?_
      exact Parses.after hkept (hparses.wider (.of_le hthreshold))

/-! ## Right-associative operators -/

/-- What an operator between two parts reads, part by part. -/
theorem after_eq_parts (operator : Infix α) (found : Option (α × List Char)) (operand : Reader α) :
    (found.bind fun (x, shorter) => operator.binary.after operand x shorter) =
      (found.bind fun (x, shorter) =>
        (((Reader.behind operator.text shorter).map (operator.payload, ·)).bind
          fun (payload, shorter) =>
            ((operand shorter).bind fun (y, shorter) =>
              (some ([], shorter)).map (Prod.map (y :: ·) id)).map
                (Prod.map (payload :: ·) id)).map (Prod.map (x :: ·) id)).map
                  (Prod.map operator.combine id) := by
  rw [Option.map_bind]
  refine Option.bind_congr fun (x, shorter) _ => ?_
  simp only [Reader.Binary.after, Infix.binary, Function.comp_apply]
  cases Reader.behind operator.text shorter with
  | none => rfl
  | some shorter =>
      simp only [Option.bind_some, Option.map_some]
      cases operand shorter <;> rfl

/-- A left operand, a symbol, and a right operand that stands further on. -/
theorem yields_operation (bound : Nat) (operator : Infix α) {left right : Parser α} {offset : Nat}
    {found : Option (α × List Char)} {operand : Reader α}
    (hleft : ∀ {fuel : Nat}, bound ≤ fuel →
      Yields (run ladder.rules fuel left cursor) engine
        (ladder.Parses source offset threshold engine found))
    (hfound : ∀ x shorter, found = some (x, shorter) → byteLength shorter + 6 < bound)
    (hright : ∀ {x : α} {shorter shorter' : List Char} {next : Cursor α} {engine' : Engine α}
      {fuel : Nat}, found = some (x, shorter) → byteLength shorter' < byteLength shorter →
      next.At source shorter' → next.left = .empty →
      Kept ladder.layout source offset threshold engine engine' → bound ≤ fuel →
        Yields (run ladder.rules fuel right next) engine'
          (ladder.Parses source offset threshold engine' (operand shorter')))
    (hfuel : bound + 1 ≤ fuel) :
    Yields (run ladder.rules fuel
        (.sequence [left, operator.symbol ladder.filler, right] operator.combine) cursor) engine
      (ladder.Parses source offset threshold engine
        (found.bind fun (x, shorter) => operator.binary.after operand x shorter)) := by
  rw [after_eq_parts]
  refine yields_sequence bound hfuel fun {fuel} hfuel => ?_
  refine yields_parts_cons (fun shorter =>
    ((Reader.behind operator.text shorter).map (operator.payload, ·)).bind
      fun (payload, shorter) =>
        ((operand shorter).bind fun (y, shorter) =>
          (some ([], shorter)).map (Prod.map (y :: ·) id)).map (Prod.map (payload :: ·) id))
    (hleft hfuel) ?_
  intro x shorter next engine₁ hsome hnext hnextLeft hkept₁
  have hshort := hfound x shorter hsome
  refine yields_parts_cons (fun shorter => (operand shorter).bind
    fun (y, shorter) => (some ([], shorter)).map (Prod.map (y :: ·) id))
    (yields_token (by omega) hnext hnextLeft) ?_
  intro payload shorter' next' engine₂ hsymbol hnext' hnextLeft' hkept₂
  obtain ⟨shorter'', hbehind, heq⟩ := Option.map_eq_some_iff.mp hsymbol
  cases heq
  have hlt := Reader.behind_lt operator.nonempty hbehind
  refine yields_parts_cons (fun shorter => some ([], shorter))
    (hright hsome hlt hnext' hnextLeft' (hkept₁.trans hkept₂) hfuel) ?_
  exact fun _ hat hleft _ => yields_parts_nil hat hleft

/-- The left operand of a right-associative operator: the operator's own rule is kept out of it. -/
theorem yields_left_operand {operator : Infix α} {signs : List (Sign α)} {begun : Engine α}
    (hlevel : ladder.levels[i]? = some (.right operator signs))
    (hnext : ladder.Climbs source bytes (i + 1)) (hat : cursor.At source rest)
    (hbytes : byteLength rest = bytes) (hleft : cursor.left = .empty)
    (hready : Ready ladder.layout source cursor.offset (i + 1) engine)
    (htop : (engine.climbing.get ladder.node).head? = some i)
    (hbegunReady : Ready ladder.layout source cursor.offset (i + 1 + 1) begun)
    (hbegun : Written ladder.cached ⟨operator.memo, cursor.offset, .empty⟩ none engine begun)
    (hfuel : ladder.depth bytes (i + 1) + 9 ≤ fuel) :
    Yields (run ladder.rules fuel (.guarded operator.guard (.call 0)) cursor) begun
      (ladder.Parses source cursor.offset (i + 1 + 1) begun (ladder.reads (i + 1) rest)) := by
  have hguard : (operator.guard, i + 1) ∈ ladder.layout.guards :=
    mem_guards hlevel List.mem_cons_self
  have htop' : ((begun.entered operator.guard cursor.offset).climbing.get ladder.node).head? =
      some i := by
    rw [← htop, ← hbegun.climbing]
    rfl
  have hfree : cursor.offset ∉ begun.active.get operator.guard := by
    rw [hbegun.active]
    exact hready.free_of_le hguard (Nat.le_refl _)
  obtain ⟨fuel, rfl⟩ := Nat.exists_eq_add_of_le' (Nat.le_of_add_left_le hfuel)
  refine yields_guardedMatch_free hfree ((yields_call_attempt none
    (ladder.depth bytes (i + 1) + 6) (rungs_level hlevel) (restarts_levelRule _) htop' hnext hat
    hbytes (by rw [hleft]; rfl) (hbegunReady.entered hguard (Nat.lt_succ_self _)) (Nat.le_refl _)
    (Nat.le_add_right _ _) (by omega) (by omega) fun {fuel} hfuel => ?_).mono ?_)
  · refine yields_blocked 2 ((Blocked.entered hbegun).pushed i) hleft (by omega) ?_
    intro fuel engine post hfuel hbusy hpost
    obtain ⟨fuel, rfl⟩ := Nat.exists_eq_add_of_le' hfuel
    exact Yields.bind (yields_inSequence_cons (yields_guardedMatch_busy hbusy
      (Yields.pure hpost)))
  · exact fun output engine' hparses => ⟨hparses.1, hparses.2.freed⟩

theorem right_rung {operator : Infix α} {signs : List (Sign α)}
    (hproper : ∀ primary ∈ ladder.primaries, primary.Proper)
    (hlevel : ladder.levels[i]? = some (.right operator signs))
    (hclimbs : ∀ fewer, fewer < bytes → ladder.Climbs source fewer i)
    (hnext : ladder.Climbs source bytes (i + 1)) :
    ladder.Rung source bytes i (ladder.levelRule (.right operator signs))
      (powerValue operator signs (ladder.reads (i + 1)) (ladder.reads i)) := by
  intro cursor rest engine fuel hat hbytes hleft hready htop hfuel
  have hscale := ladder.le_scale_mul bytes
  have hdepth : ladder.scale * bytes ≤ ladder.depth bytes (i + 1) := Nat.le_add_right _ _
  have hslot : (⟨operator.memo, i + 1,
      powerValue operator signs (ladder.reads (i + 1)) (ladder.reads i)⟩ : Slot α) ∈
      ladder.layout.slots := mem_slots hlevel List.mem_cons_self
  refine yields_rule (ladder.depth bytes (i + 1) + 10) hslot hready hat hleft (by omega)
    fun {fuel begun} hfuel hbegunReady hbegun => ?_
  have htop' : (begun.climbing.get ladder.node).head? = some i := by
    rw [hbegun.climbing, htop]
  have hlater : ladder.Later source cursor.offset (i + 1 + 1) bytes begun
      (ladder.depth bytes (i + 1) + 7) (ladder.reads i) :=
    later_inside (rungs_level hlevel) (restarts_levelRule _) htop' hclimbs hat hbytes hbegunReady
      (by omega)
  refine yields_operation (ladder.depth bytes (i + 1) + 9) operator
    (yields_left_operand hlevel hnext hat hbytes hleft hready htop hbegunReady hbegun)
    ?_ ?_ hfuel
  · intro x shorter hread
    have hle := reads_shrinks hproper (i + 1) _ _ _ hread
    omega
  · intro x shorter shorter' next engine' fuel hread hlt hnextAt hnextLeft hkept hfuel
    have hle := reads_shrinks hproper (i + 1) _ _ _ hread
    exact yields_signedCall signs (hlater.kept hkept) hnextAt (by omega) hnextLeft (by omega)
      hfuel

theorem right_climbs {operator : Infix α} {signs : List (Sign α)}
    (hproper : ∀ primary ∈ ladder.primaries, primary.Proper)
    (hlevel : ladder.levels[i]? = some (.right operator signs))
    (hclimbs : ∀ fewer, fewer < bytes → ladder.Climbs source fewer i)
    (hnext : ladder.Climbs source bytes (i + 1)) : ladder.Climbs source bytes i := by
  refine climbs_of_rung (rungs_level hlevel) (right_rung hproper hlevel hclimbs hnext) hnext
    fun rest => ?_
  have hreads := reads_level hlevel
  conv_lhs => rw [hreads, Level.reading,
    Reader.rightAssociative_eq (reads_shrinks hproper (i + 1))]
  rw [powerValue, hreads]
  exact Reader.map_getD_eq_or _

end Packrat.Ladder
