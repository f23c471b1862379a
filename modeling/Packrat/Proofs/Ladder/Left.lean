import Packrat.Proofs.Ladder.Extend
import Packrat.Proofs.Ladder.Turns

/-!
# Left-associative levels

The left operand of an operator stands at the place of its level, where the operators that are not
under way take their turn before the tighter levels do.  Both ways to keep operators out lead to an
induction: on the operators behind those whose results are stored, and on the number of free guards.
-/

namespace Packrat.Ladder

open Engine
open Text (byteLength)

variable {α : Type} {ladder : Ladder α} {source : Source} {cursor : Cursor α} {rest : List Char}
  {engine engine' : Engine α} {fuel bound bytes i : Nat} {wrapped : Bool}
  {operators earlier later : List (Infix α)} {operator : Infix α}

/-- The rule of an operator that is under way matches nothing. -/
theorem yields_infixRule_blocked {threshold at_ : Nat}
    (hblocked : ladder.Blocked operator cursor.offset engine) (hleft : cursor.left = .empty)
    (hfuel : 4 ≤ fuel) :
    Yields (run ladder.rules fuel (ladder.infixRule operator) cursor) engine
      (ladder.Parses source at_ threshold engine none) := by
  refine yields_blocked 2 hblocked hleft hfuel fun {fuel engine post} hfuel hbusy hpost => ?_
  obtain ⟨fuel, rfl⟩ := Nat.exists_eq_add_of_le' hfuel
  refine yields_foldStep ?_
  rw [leftOperand, hleft]
  exact yields_guardedMatch_busy hbusy hpost

/-- To begin storing the result of an operator disturbs nothing that tighter levels store. -/
theorem ready_begun {offset : Nat} {begun : Engine α} {slot : Slot α}
    (hslot : slot ∈ ladder.layout.slots) (hmemo : slot.memo = operator.memo)
    (hrank : slot.rank = i + 1) (hready : Ready ladder.layout source offset (i + 1 + 1) engine)
    (hbegun : Written ladder.cached ⟨operator.memo, offset, .empty⟩ none engine begun) :
    Ready ladder.layout source offset (i + 1 + 1) begun := by
  apply hready.begun hbegun _ (fun _ hoperand => nomatch hoperand) (.refl _ _)
  rintro slot' hslot' hnode - hahead
  rw [ladder.layout.slot_unique hslot' hslot (hnode.trans hmemo.symm), hrank] at hahead
  simp only [Ahead] at hahead
  omega

/-- The left operand of an operator that is not under way is a call of the whole grammar. -/
theorem yields_leftOperand_open {found : Option (α × List Char)}
    (hfree : cursor.offset ∉ engine.active.get operator.guard) (hleft : cursor.left = .empty)
    (hfuel : bound + 1 ≤ fuel)
    (hoperand : ∀ {fuel : Nat}, bound ≤ fuel →
      Yields (run ladder.rules fuel (.call 0) cursor) (engine.entered operator.guard cursor.offset)
        (ladder.Parses source cursor.offset (i + 1) (engine.entered operator.guard cursor.offset)
          found)) :
    Yields (leftOperand (run ladder.rules fuel) (.guarded operator.guard (.call 0)) cursor) engine
      (ladder.Parses source cursor.offset (i + 1) engine found) := by
  rw [leftOperand, hleft]
  obtain ⟨fuel, rfl⟩ := Nat.exists_eq_add_of_le' (Nat.le_of_add_left_le hfuel)
  apply yields_guardedMatch_free hfree
  apply (hoperand (Nat.le_of_succ_le_succ hfuel)).mono
  exact fun output engine' hparses => ⟨hparses.1, hparses.2.freed⟩

/-- The rule of an operator that is not under way, given what its left operand is. -/
theorem yields_infixRule_open (bound : Nat) (found : Option (α × List Char))
    (hproper : ∀ primary ∈ ladder.primaries, primary.Proper)
    (hlevel : ladder.levels[i]? = some (.left wrapped operators))
    (hoperator : operator ∈ operators)
    (hclimbs : ∀ fewer, fewer < bytes → ladder.Climbs source fewer (i + 1))
    (hat : cursor.At source rest) (hbytes : byteLength rest = bytes)
    (hleft : cursor.left = .empty)
    (hready : Ready ladder.layout source cursor.offset (i + 1 + 1) engine)
    (htop : (engine.climbing.get ladder.node).head? = some i)
    (hfree : cursor.offset ∉ engine.active.get operator.guard)
    (hmissing : ladder.cached = true →
      engine.entry ⟨operator.memo, cursor.offset, .empty⟩ = none)
    (hfound : ∀ x shorter, found = some (x, shorter) → byteLength shorter ≤ bytes)
    {slot : Slot α} (hslot : slot ∈ ladder.layout.slots) (hmemo : slot.memo = operator.memo)
    (hrank : slot.rank = i + 1)
    (hvalue : ladder.cached = true → slot.value rest = found.bind fun (x, rest) =>
      Reader.chain (operators.map (·.binary)) (ladder.reads (i + 1)) operator.binary x rest)
    (hbound : ladder.scale * bytes + 8 ≤ bound) (hfuel : bound + 4 ≤ fuel)
    (hoperand : ∀ {fuel : Nat} {begun : Engine α}, bound ≤ fuel →
      Written ladder.cached ⟨operator.memo, cursor.offset, .empty⟩ none engine begun →
      Ready ladder.layout source cursor.offset (i + 1 + 1)
        (begun.entered operator.guard cursor.offset) →
      ((begun.entered operator.guard cursor.offset).climbing.get ladder.node).head? = some i →
        Yields (run ladder.rules fuel (.call 0) cursor) (begun.entered operator.guard cursor.offset)
          (ladder.Parses source cursor.offset (i + 1)
            (begun.entered operator.guard cursor.offset) found)) :
    Yields (run ladder.rules fuel (ladder.infixRule operator) cursor) engine fun output engine' =>
      ladder.Parses source cursor.offset (i + 1) engine (found.bind fun (x, rest) =>
          Reader.chain (operators.map (·.binary)) (ladder.reads (i + 1)) operator.binary x rest)
        output engine' ∧
      (ladder.cached = true →
        engine'.entry ⟨operator.memo, cursor.offset, .empty⟩ = some output) := by
  have hkey : (⟨operator.memo, cursor.offset, cursor.left.key⟩ : CacheKey) =
      ⟨operator.memo, cursor.offset, .empty⟩ := by rw [hleft]; rfl
  have hguard : (operator.guard, i + 1) ∈ ladder.layout.guards :=
    mem_guards hlevel (List.mem_map_of_mem hoperator)
  apply yields_rule_missing (bound + 2) hfuel (hkey ▸ hmissing)
  rw [hkey]
  intro fuel begun hfuel hbegun
  have hbegunReady := ready_begun hslot hmemo hrank hready hbegun
  have htop' : (begun.climbing.get ladder.node).head? = some i := by
    rw [hbegun.climbing, htop]
  have hextends : ∀ fewer, fewer < bytes → ladder.Extends source i operators fewer :=
    fun fewer hfewer => extends_all hproper hlevel fun fewer' hfewer' =>
      hclimbs fewer' (Nat.lt_trans hfewer' hfewer)
  apply (yields_folded (i + 1) (bound + 1) hproper hlevel hoperator hclimbs hextends hat hbytes
    hbegunReady htop' found hfound (by omega) hfuel _).mono
  · rintro output engine' ⟨hmatches, hkept⟩ ended hended
    refine ⟨⟨hmatches, ?_⟩, hended.here⟩
    refine (Kept.refl engine).written hbegun hkept hended hmissing fun hcached => ?_
    rw [← hmemo]
    refine .value hslot (.of_le (Nat.le_of_eq hrank.symm)) ?_
    rwa [hat.dropBytes_eq, hvalue hcached]
  · intro fuel hfuel
    apply yields_leftOperand_open (by rwa [hbegun.active]) hleft hfuel
    exact fun hfuel => hoperand hfuel hbegun
      (hbegunReady.entered hguard (Nat.lt_succ_self _)) htop'

theorem admitted_le {choice : Choice} (hproper : ∀ primary ∈ ladder.primaries, primary.Proper)
    (hbytes : byteLength rest = bytes) (given : List (Infix α)) (x : α) (shorter : List Char)
    (h : (admitted choice operators given (ladder.reads (i + 1)) rest).or
      (ladder.reads (i + 1) rest) = some (x, shorter)) : byteLength shorter ≤ bytes := by
  have hshrinks := reads_shrinks hproper (i + 1)
  rcases Option.or_eq_some_iff.mp h with h | ⟨-, h⟩
  · obtain ⟨⟨y, rest'⟩, hread, h⟩ := Option.bind_eq_some_iff.mp h
    obtain ⟨first, -, h⟩ := Option.bind_eq_some_iff.mp h
    obtain ⟨⟨z, rest''⟩, hafter, hfold⟩ := Option.map_eq_some_iff.mp h
    have hle := Reader.foldFrom_joined_le hshrinks hfold
    have hlt := Reader.Binary.after_lt hshrinks hafter
    have hle' := hshrinks _ _ _ hread
    omega
  · exact hbytes ▸ hshrinks _ _ _ h

/-- Operators that are under way are passed over. -/
theorem yields_passed {at_ threshold : Nat} {parsers : List (Parser α)}
    {found : Option (α × List Char)} (hleft : cursor.left = .empty) (hfuel : 4 ≤ fuel)
    (hblocked : ∀ operator ∈ earlier, ladder.Blocked operator cursor.offset engine)
    (h : ∀ engine', Kept ladder.layout source at_ threshold engine engine' →
      Yields (firstMatch (run ladder.rules fuel) parsers cursor) engine'
        (ladder.Parses source at_ threshold engine' found)) :
    Yields (firstMatch (run ladder.rules fuel) (earlier.map ladder.infixRule ++ parsers) cursor)
      engine (ladder.Parses source at_ threshold engine found) := by
  induction earlier generalizing engine with
  | nil => exact h engine (.refl engine)
  | cons operator earlier ih =>
      obtain ⟨hhead, htail⟩ := List.forall_mem_cons.mp hblocked
      have hblockedRule : Yields (run ladder.rules fuel (ladder.infixRule operator) cursor) engine
          (ladder.Parses source at_ threshold engine none) :=
        yields_infixRule_blocked hhead hleft hfuel
      refine yields_firstMatch_cons (hblockedRule.mono ?_)
      rintro output engine₁ ⟨hmatches, hkept⟩
      obtain rfl := Matches.none_iff.mp hmatches
      refine (ih (fun other hother => (htail other hother).kept hkept) fun engine₂ hkept' =>
        h engine₂ (hkept.trans hkept')).mono ?_
      exact fun output engine₂ hparses => Parses.after hkept hparses

/-! ## With a cache -/

theorem leftSlots_append {rank : Nat} {next : Reader α} {slot : Slot α}
    (h : slot ∈ leftSlots rank operators next later) :
    slot ∈ leftSlots rank operators next (earlier ++ later) := by
  induction earlier with
  | nil => exact h
  | cons operator earlier ih => exact List.mem_cons_of_mem _ ih

/--
The operators of `earlier` are under way at an offset or known to read nothing there; those of
`later` are not under way, and what is stored for them is what they read.
-/
structure Pending (ladder : Ladder α) (source : Source) (i offset : Nat) (rest : List Char)
    (operators earlier later : List (Infix α)) (engine : Engine α) : Prop where
  ready : Ready ladder.layout source offset (i + 1 + 1) engine
  top : (engine.climbing.get ladder.node).head? = some i
  blocked : ∀ operator ∈ earlier, engine.entry ⟨operator.memo, offset, .empty⟩ = some none
  free : ∀ operator ∈ later, offset ∉ engine.active.get operator.guard
  sound : ∀ slot ∈ leftSlots (i + 1) operators (ladder.reads (i + 1)) later, ∀ result,
    engine.entry ⟨slot.memo, offset, .empty⟩ = some result →
      Matches source .empty (slot.value rest) result

namespace Pending

variable {offset threshold : Nat}

theorem kept (hlevel : ladder.levels[i]? = some (.left wrapped operators))
    (hoperators : operators = earlier ++ later)
    (hrest : Text.dropBytes offset source.chars = rest)
    (h : ladder.Pending source i offset rest operators earlier later engine)
    (hkept : Kept ladder.layout source offset threshold engine engine') :
    ladder.Pending source i offset rest operators earlier later engine' where
  ready := h.ready.kept hkept
  top := by rw [hkept.climbing, h.top]
  blocked operator hmem := hkept.grows _ _ (h.blocked operator hmem)
  free operator hmem := by
    rw [hkept.active]
    exact h.free operator hmem
  sound slot hslot := by
    have hmem : slot ∈ ladder.layout.slots := by
      refine mem_slots hlevel ?_
      rw [levelSlots, hoperators]
      exact hoperators ▸ leftSlots_append hslot
    have hsound := h.sound slot hslot
    rw [← hrest] at hsound ⊢
    exact hkept.sound hmem hsound

/-- An operator that has read nothing joins the earlier ones. -/
theorem passed
    (h : ladder.Pending source i offset rest operators earlier (operator :: later) engine)
    (hentry : engine.entry ⟨operator.memo, offset, .empty⟩ = some none) :
    ladder.Pending source i offset rest operators (earlier ++ [operator]) later engine where
  ready := h.ready
  top := h.top
  blocked other hother := by
    rcases List.mem_append.mp hother with hother | hother
    · exact h.blocked other hother
    · rwa [List.mem_singleton.mp hother]
  free other hother := h.free other (List.mem_cons_of_mem _ hother)
  sound slot hslot := h.sound slot (List.mem_cons_of_mem _ hslot)

/-- An operator whose left operand is being parsed joins the earlier ones. -/
theorem begun {begun : Engine α} (hcached : ladder.cached = true)
    (hlevel : ladder.levels[i]? = some (.left wrapped operators))
    (hoperators : operators = earlier ++ operator :: later)
    (h : ladder.Pending source i offset rest operators earlier (operator :: later) engine)
    (hbegun : Written ladder.cached ⟨operator.memo, offset, .empty⟩ none engine begun)
    (hready : Ready ladder.layout source offset (i + 1 + 1)
      (begun.entered operator.guard offset)) :
    ladder.Pending source i offset rest operators (earlier ++ [operator]) later
      ((begun.entered operator.guard offset).pushed ladder.node i) := by
  have hmemos := nodup_memos hlevel
  have hguards := nodup_guards hlevel
  rw [hoperators, List.map_append, List.map_cons, List.nodup_append, List.nodup_cons]
    at hmemos hguards
  have helsewhere {memo : Nat} (hne : memo ≠ operator.memo) :
      begun.entry ⟨memo, offset, .empty⟩ = engine.entry ⟨memo, offset, .empty⟩ :=
    hbegun.elsewhere _ fun _ heq => hne (congrArg CacheKey.node heq)
  refine ⟨hready.pushed i, by simp, fun other hother => ?_, fun other hother => ?_,
    fun slot hslot => ?_⟩
  · by_cases heq : other.memo = operator.memo
    · rw [heq]
      exact hbegun.here hcached
    · rcases List.mem_append.mp hother with hother | hother
      · exact (helsewhere heq).trans (h.blocked other hother)
      · exact absurd (congrArg Infix.memo (List.mem_singleton.mp hother)) heq
  · have hne : operator.guard ≠ other.guard := fun heq =>
      hguards.2.1.1 (heq ▸ List.mem_map_of_mem hother)
    rw [Engine.pushed, Engine.active_entered_of_ne _ hne, hbegun.active]
    exact h.free other (List.mem_cons_of_mem _ hother)
  · have hne : slot.memo ≠ operator.memo := by
      intro heq
      refine hmemos.2.1.1 ?_
      rw [← leftSlots_memo (i + 1) operators (ladder.reads (i + 1)) later, ← heq]
      exact List.mem_map_of_mem hslot
    intro result hentry
    exact h.sound slot (List.mem_cons_of_mem _ hslot) result ((helsewhere hne).symm.trans hentry)

end Pending

/-- The operators behind the first one are run unless that one goes first. -/
theorem yields_behind {operator : Infix α} {output : Option (Output α)} {engine₁ : Engine α}
    (hmatches : Matches source .empty
      (lastValue operators (ladder.reads (i + 1)) operator later rest) output)
    (hkept : Kept ladder.layout source cursor.offset (i + 1) engine engine₁)
    (hlater : output = none →
      Yields (firstMatch (run ladder.rules fuel) (later.map ladder.infixRule) cursor) engine₁
        (ladder.Parses source cursor.offset (i + 1) engine₁
          (admitted .last operators later (ladder.reads (i + 1)) rest))) :
    match output with
    | some output => ladder.Parses source cursor.offset (i + 1) engine
        (admitted .last operators (operator :: later) (ladder.reads (i + 1)) rest)
        (some output) engine₁
    | none => Yields (firstMatch (run ladder.rules fuel) (later.map ladder.infixRule) cursor)
        engine₁ (ladder.Parses source cursor.offset (i + 1) engine
          (admitted .last operators (operator :: later) (ladder.reads (i + 1)) rest)) := by
  rw [admitted_last_cons]
  cases hfound : lastValue operators (ladder.reads (i + 1)) operator later rest with
  | some found =>
      rw [hfound] at hmatches
      obtain ⟨next, rfl, -, -⟩ := Matches.some_iff.mp hmatches
      exact ⟨hmatches, hkept⟩
  | none =>
      rw [hfound] at hmatches
      obtain rfl := Matches.none_iff.mp hmatches
      exact (hlater rfl).mono fun output engine₂ hparses => Parses.after hkept hparses

/-- Wherever operators are pending, the rules of the later ones match what is admitted of them. -/
def LaterRuns (ladder : Ladder α) (source : Source) (i : Nat) (cursor : Cursor α)
    (rest : List Char) (operators earlier later : List (Infix α)) (bound : Nat) : Prop :=
  ∀ engine fuel,
    ladder.Pending source i cursor.offset rest operators earlier later engine → bound ≤ fuel →
      Yields (firstMatch (run ladder.rules fuel) (later.map ladder.infixRule) cursor) engine
        (ladder.Parses source cursor.offset (i + 1) engine
          (admitted .last operators later (ladder.reads (i + 1)) rest))

namespace LaterRuns

variable {begun : Engine α}

/-- An operator that was run and does not go first is refused where the others are run. -/
theorem behind
    (hlater : ladder.LaterRuns source i cursor rest operators (earlier ++ [operator]) later bound)
    (hlevel : ladder.levels[i]? = some (.left wrapped operators))
    (hoperators : operators = earlier ++ operator :: later) (hat : cursor.At source rest)
    (hpending : ladder.Pending source i cursor.offset rest operators earlier (operator :: later)
      engine)
    (hkept : Kept ladder.layout source cursor.offset (i + 1) engine engine')
    (hentry : engine'.entry ⟨operator.memo, cursor.offset, .empty⟩ = some none)
    (hfuel : bound ≤ fuel) :
    Yields (firstMatch (run ladder.rules fuel) (later.map ladder.infixRule) cursor) engine'
      (ladder.Parses source cursor.offset (i + 1) engine'
        (admitted .last operators later (ladder.reads (i + 1)) rest)) :=
  hlater _ _ ((hpending.kept hlevel hoperators hat.dropBytes_eq hkept).passed hentry) hfuel

/-- The left operand of an operator is what those behind it read, or else a tighter level. -/
theorem operand
    (hlater : ladder.LaterRuns source i cursor rest operators (earlier ++ [operator]) later
      (ladder.depth bytes (i + 1) + 8 * later.length + 12))
    (hcached : ladder.cached = true)
    (hlevel : ladder.levels[i]? = some (.left wrapped operators))
    (hnext : ladder.Climbs source bytes (i + 1))
    (hat : cursor.At source rest) (hbytes : byteLength rest = bytes)
    (hleft : cursor.left = .empty) (hoperators : operators = earlier ++ operator :: later)
    (hpending : ladder.Pending source i cursor.offset rest operators earlier (operator :: later)
      engine)
    (hbegun : Written ladder.cached ⟨operator.memo, cursor.offset, .empty⟩ none engine begun)
    (hready : Ready ladder.layout source cursor.offset (i + 1 + 1)
      (begun.entered operator.guard cursor.offset))
    (htop : ((begun.entered operator.guard cursor.offset).climbing.get ladder.node).head? = some i)
    (hfuel : ladder.depth bytes (i + 1) + 8 * later.length + 15 ≤ fuel) :
    Yields (run ladder.rules fuel (.call 0) cursor) (begun.entered operator.guard cursor.offset)
      (ladder.Parses source cursor.offset (i + 1) (begun.entered operator.guard cursor.offset)
        ((admitted .last operators later (ladder.reads (i + 1)) rest).or
          (ladder.reads (i + 1) rest))) := by
  have hoperators' : operators = (earlier ++ [operator]) ++ later := by simp [hoperators]
  have hpending' := hpending.begun hcached hlevel hoperators hbegun hready
  apply yields_call_attempt _ (ladder.depth bytes (i + 1) + 8 * later.length + 13)
    (rungs_level hlevel) (restarts_levelRule _) htop hnext hat hbytes (by rw [hleft]; rfl) hready
    (Nat.le_succ _) (by omega) (by omega) (by omega)
  intro fuel hfuel
  apply yields_anyOf (ladder.depth bytes (i + 1) + 8 * later.length + 12) (by omega)
  intro fuel hfuel
  rw [hoperators', List.map_append, ← hoperators']
  apply yields_passed hleft (by omega)
  · intro other hother
    constructor
    · exact fun _ => hpending'.blocked other hother
    · intro huncached
      rw [hcached] at huncached
      cases huncached
  · intro engine₁ hkept
    exact hlater _ _ (hpending'.kept hlevel hoperators' hat.dropBytes_eq hkept) hfuel

/-- One more operator in front of those that are run: it goes first if none of them does. -/
theorem cons (hcached : ladder.cached = true)
    (hproper : ∀ primary ∈ ladder.primaries, primary.Proper)
    (hlevel : ladder.levels[i]? = some (.left wrapped operators))
    (hclimbs : ∀ fewer, fewer < bytes → ladder.Climbs source fewer (i + 1))
    (hnext : ladder.Climbs source bytes (i + 1))
    (hat : cursor.At source rest) (hbytes : byteLength rest = bytes)
    (hleft : cursor.left = .empty) (hoperators : operators = earlier ++ operator :: later)
    (hlater : ladder.LaterRuns source i cursor rest operators (earlier ++ [operator]) later
      (ladder.depth bytes (i + 1) + 8 * later.length + 12)) :
    ladder.LaterRuns source i cursor rest operators earlier (operator :: later)
      (ladder.depth bytes (i + 1) + 8 * (later.length + 1) + 12) := by
  intro engine fuel hpending hfuel
  have hshrinks := reads_shrinks hproper (i + 1)
  have hdepth : ladder.scale * bytes ≤ ladder.depth bytes (i + 1) := Nat.le_add_right _ _
  have hmem : operator ∈ operators := by simp [hoperators]
  have hslots := mem_leftSlots (i + 1) operators (ladder.reads (i + 1)) earlier operator later
  rw [← hoperators] at hslots
  rw [List.map_cons]
  cases hstored : engine.entry ⟨operator.memo, cursor.offset, .empty⟩ with
  | some result =>
      have hmatches := hpending.sound _ List.mem_cons_self result hstored
      apply yields_firstMatch_cons
      apply yields_rule_stored (by omega) hcached (by rw [hleft]; exact hstored)
      intro engine₁ hkept
      have hkept : Kept ladder.layout source cursor.offset (i + 1) engine engine₁ := hkept
      apply yields_behind hmatches hkept
      rintro rfl
      exact hlater.behind hlevel hoperators hat hpending hkept (hkept.grows _ _ hstored) (by omega)
  | none =>
      apply yields_firstMatch_cons
      apply (yields_infixRule_open (ladder.depth bytes (i + 1) + 8 * later.length + 15)
        ((admitted .last operators later (ladder.reads (i + 1)) rest).or
          (ladder.reads (i + 1) rest)) hproper hlevel hmem hclimbs hat hbytes hleft hpending.ready
        hpending.top (hpending.free operator List.mem_cons_self) (fun _ => hstored)
        (admitted_le hproper hbytes later) (mem_slots hlevel hslots) rfl rfl
        (fun _ => (lastValue_eq hshrinks hmem).symm) (by omega) (by omega) _).mono
      · rintro output engine₁ ⟨⟨hmatches, hkept⟩, hentry⟩
        rw [lastValue_eq hshrinks hmem] at hmatches
        apply yields_behind hmatches hkept
        rintro rfl
        exact hlater.behind hlevel hoperators hat hpending hkept (hentry hcached) (by omega)
      · intro fuel begun hfuel hbegun hready htop
        exact hlater.operand hcached hlevel hnext hat hbytes hleft hoperators hpending hbegun hready
          htop hfuel

end LaterRuns

/-- Of the operators that are still to be run, the last one that fits goes first. -/
theorem yields_later (hcached : ladder.cached = true)
    (hproper : ∀ primary ∈ ladder.primaries, primary.Proper)
    (hlevel : ladder.levels[i]? = some (.left wrapped operators))
    (hclimbs : ∀ fewer, fewer < bytes → ladder.Climbs source fewer (i + 1))
    (hnext : ladder.Climbs source bytes (i + 1))
    (hat : cursor.At source rest) (hbytes : byteLength rest = bytes)
    (hleft : cursor.left = .empty) (hoperators : operators = earlier ++ later) :
    ladder.LaterRuns source i cursor rest operators earlier later
      (ladder.depth bytes (i + 1) + 8 * later.length + 12) := by
  induction later generalizing earlier with
  | nil =>
      intro engine fuel _ _
      have hnone : admitted .last operators [] (ladder.reads (i + 1)) rest = none := by
        simp [admitted, Reader.fitting, Choice.pick]
      rw [hnone]
      exact yields_firstMatch_nil ⟨trivial, .refl engine⟩
  | cons operator later ih =>
      have hoperators' : operators = (earlier ++ [operator]) ++ later := by simp [hoperators]
      rw [List.length_cons]
      exact LaterRuns.cons hcached hproper hlevel hclimbs hnext hat hbytes hleft hoperators
        (ih hoperators')

/-! ## Without a cache -/

/-- The operators whose guards are free at an offset. -/
def freeOperators (operators : List (Infix α)) (offset : Nat) (engine : Engine α) :
    List (Infix α) :=
  operators.filter fun operator => offset ∉ engine.active.get operator.guard

theorem freeOperators_entered {offset : Nat} {begun : Engine α}
    (hactive : ∀ id, begun.active.get id = engine.active.get id) :
    freeOperators operators offset (begun.entered operator.guard offset) =
      (freeOperators operators offset engine).filter
        fun other => other.guard ≠ operator.guard := by
  rw [freeOperators, freeOperators, List.filter_filter]
  refine List.filter_congr fun other _ => ?_
  by_cases hguard : other.guard = operator.guard
  · simp [Engine.entered, hguard]
  · rw [Engine.active_entered_of_ne _ (Ne.symm hguard), hactive]
    simp [hguard]

/-- The operators whose guards are not free have no turn. -/
theorem admitted_freeOperators (hproper : ∀ primary ∈ ladder.primaries, primary.Proper)
    (hlevel : ladder.levels[i]? = some (.left wrapped operators)) {offset : Nat}
    {given : List (Infix α)} (hgiven : freeOperators operators offset engine = given)
    (rest : List Char) :
    admitted .firstOfOdd operators given (ladder.reads (i + 1)) rest =
      Reader.first (operators.map fun operator =>
        if decide (offset ∉ engine.active.get operator.guard) then
          turn operators given (ladder.reads (i + 1)) operator
        else fun _ => none) rest := by
  have hsub : given.Sublist operators := hgiven ▸ List.filter_sublist
  rw [← first_turns (reads_shrinks hproper (i + 1)) ((nodup_guards hlevel).sublist (hsub.map _))
    fun _ hmem => hsub.subset hmem, ← Reader.first_filter]
  conv_lhs => arg 1; arg 2; rw [← hgiven]
  rfl

/-- Wherever the guards of some operators are free, the level matches what is admitted of them. -/
def FreeRuns (ladder : Ladder α) (source : Source) (i : Nat) (cursor : Cursor α)
    (rest : List Char) (wrapped : Bool) (operators given : List (Infix α)) (bound : Nat) : Prop :=
  ∀ engine fuel, Ready ladder.layout source cursor.offset (i + 1 + 1) engine →
    (engine.climbing.get ladder.node).head? = some i →
      freeOperators operators cursor.offset engine = given → bound ≤ fuel →
        Yields (run ladder.rules fuel (ladder.levelRule (.left wrapped operators)) cursor) engine
          (ladder.Parses source cursor.offset (i + 1) engine
            (admitted .firstOfOdd operators given (ladder.reads (i + 1)) rest))

/-- The rule of an operator whose guard is free lets in the others at its left operand. -/
theorem yields_infixRule_free {given : List (Infix α)}
    (hinner : ladder.FreeRuns source i cursor rest wrapped operators
      (given.filter fun other => other.guard ≠ operator.guard) bound)
    (hcached : ladder.cached = false)
    (hproper : ∀ primary ∈ ladder.primaries, primary.Proper)
    (hlevel : ladder.levels[i]? = some (.left wrapped operators)) (hmem : operator ∈ operators)
    (hclimbs : ∀ fewer, fewer < bytes → ladder.Climbs source fewer (i + 1))
    (hnext : ladder.Climbs source bytes (i + 1))
    (hat : cursor.At source rest) (hbytes : byteLength rest = bytes)
    (hleft : cursor.left = .empty)
    (hready : Ready ladder.layout source cursor.offset (i + 1 + 1) engine)
    (htop : (engine.climbing.get ladder.node).head? = some i)
    (hgiven : freeOperators operators cursor.offset engine = given)
    (hfree : cursor.offset ∉ engine.active.get operator.guard)
    (hbound : ladder.depth bytes (i + 1) + 6 ≤ bound) (hfuel : bound + 6 ≤ fuel) :
    Yields (run ladder.rules fuel (ladder.infixRule operator) cursor) engine
      (ladder.Parses source cursor.offset (i + 1) engine
        (turn operators given (ladder.reads (i + 1)) operator rest)) := by
  have hdepth : ladder.scale * bytes ≤ ladder.depth bytes (i + 1) := Nat.le_add_right _ _
  have huncached {P : Prop} (h : ladder.cached = true) : P := by
    rw [hcached] at h
    cases h
  obtain ⟨earlier, later, hsplit⟩ := List.append_of_mem hmem
  have hslots := mem_leftSlots (i + 1) operators (ladder.reads (i + 1)) earlier operator later
  rw [← hsplit] at hslots
  apply (yields_infixRule_open (bound + 2)
    ((admitted .firstOfOdd operators (given.filter fun other => other.guard ≠ operator.guard)
      (ladder.reads (i + 1)) rest).or (ladder.reads (i + 1) rest))
    hproper hlevel hmem hclimbs hat hbytes hleft hready htop hfree huncached
    (admitted_le hproper hbytes _) (mem_slots hlevel hslots) rfl rfl huncached
    (by omega) hfuel _).mono
  · exact fun output ended hended => hended.1
  · intro fuel begun hfuel hbegun hbegunReady hbegunTop
    apply yields_call_attempt _ bound (rungs_level hlevel) (restarts_levelRule _) hbegunTop hnext
      hat hbytes (by rw [hleft]; rfl) hbegunReady (Nat.le_succ _) (by omega) (by omega) hfuel
    intro fuel hfuel
    have hpushedTop : (((begun.entered operator.guard cursor.offset).pushed ladder.node
        i).climbing.get ladder.node).head? = some i := by simp
    have hfewer : freeOperators operators cursor.offset
        ((begun.entered operator.guard cursor.offset).pushed ladder.node i) =
          given.filter fun other => other.guard ≠ operator.guard := by
      rw [← hgiven]
      exact freeOperators_entered hbegun.active
    exact hinner _ _ (hbegunReady.pushed i) hpushedTop hfewer hfuel

/-- Of the operators whose guards are free, the first one goes first or none does. -/
theorem yields_free (hcached : ladder.cached = false)
    (hproper : ∀ primary ∈ ladder.primaries, primary.Proper)
    (hlevel : ladder.levels[i]? = some (.left wrapped operators))
    (hclimbs : ∀ fewer, fewer < bytes → ladder.Climbs source fewer (i + 1))
    (hnext : ladder.Climbs source bytes (i + 1))
    (hat : cursor.At source rest) (hbytes : byteLength rest = bytes)
    (hleft : cursor.left = .empty) (given : List (Infix α)) :
    ladder.FreeRuns source i cursor rest wrapped operators given
      (ladder.depth bytes (i + 1) + 8 * given.length + 14) := by
  induction hcount : given.length using Nat.strongRecOn generalizing given with
  | ind count ih =>
      intro engine fuel hready htop hgiven hfuel
      rw [admitted_freeOperators hproper hlevel hgiven]
      apply yields_anyOf (ladder.depth bytes (i + 1) + 8 * count + 13) hfuel
      intro fuel hfuel
      apply yields_firstMatch
      rw [List.forall₂_map_left_iff, List.forall₂_map_right_iff]
      apply List.forall₂_same.mpr
      intro operator hmem engine' hkept
      by_cases hfree : cursor.offset ∈ engine.active.get operator.guard
      · have hblocked : ladder.Blocked operator cursor.offset engine' := by
          constructor
          · intro h
            rw [hcached] at h
            cases h
          · intro _
            rwa [hkept.active]
        rw [if_neg (by simpa using hfree)]
        exact yields_infixRule_blocked hblocked hleft (by omega)
      · have hmemGiven : operator ∈ given := by
          rw [← hgiven]
          exact List.mem_filter.mpr ⟨hmem, decide_eq_true hfree⟩
        have hless : (given.filter fun other => other.guard ≠ operator.guard).length < count := by
          rw [← hcount]
          exact List.length_filter_lt_length_iff_exists.mpr ⟨operator, hmemGiven, by simp⟩
        have hgiven' : freeOperators operators cursor.offset engine' = given := by
          simp only [freeOperators, hkept.active] at hgiven ⊢
          exact hgiven
        rw [if_pos (by simpa using hfree)]
        exact yields_infixRule_free (ih _ hless _ rfl) hcached hproper hlevel hmem hclimbs hnext hat
          hbytes hleft (hready.kept hkept) (by rw [hkept.climbing, htop]) hgiven' (by rwa [hkept.active])
          (by omega) (by omega)

/-! ## The level -/

theorem length_le_size (ladder : Ladder α) (wrapped : Bool) (operators : List (Infix α)) :
    operators.length ≤ (ladder.levelRule (.left wrapped operators)).size := by
  have hlength := Parser.length_le_sizeAll (operators.map ladder.infixRule)
  rw [List.length_map] at hlength
  have hfirst : operators.length ≤ (Parser.firstOf (operators.map ladder.infixRule)).size :=
    Nat.le_succ_of_le hlength
  match operators, wrapped with
  | [], _ => exact Nat.zero_le _
  | [_], true => exact hfirst
  | [operator], false => exact (ladder.infixRule operator).size_pos
  | _ :: _ :: _, _ => exact hfirst

theorem leftSlots_rank {rank : Nat} {next : Reader α} {slot : Slot α}
    (h : slot ∈ leftSlots rank operators next later) : slot.rank = rank := by
  induction later with
  | nil => cases h
  | cons operator later ih =>
      cases h with
      | head => rfl
      | tail _ h => exact ih h

/-- No operator is under way where a level begins. -/
theorem pending_all (hlevel : ladder.levels[i]? = some (.left wrapped operators))
    (hat : cursor.At source rest)
    (hready : Ready ladder.layout source cursor.offset (i + 1) engine)
    (htop : (engine.climbing.get ladder.node).head? = some i) :
    ladder.Pending source i cursor.offset rest operators [] operators engine where
  ready := hready.ahead (.of_le (Nat.le_succ _))
  top := htop
  blocked operator hmem := nomatch hmem
  free operator hmem :=
    hready.free_of_le (mem_guards hlevel (List.mem_map_of_mem hmem)) (Nat.le_refl _)
  sound slot hslot result hentry := by
    rw [← hat.dropBytes_eq]
    refine hready.sound slot (mem_slots hlevel hslot) _ result hentry (.of_le ?_)
    exact Nat.le_of_eq (leftSlots_rank hslot).symm

theorem left_rung (hproper : ∀ primary ∈ ladder.primaries, primary.Proper)
    (hlevel : ladder.levels[i]? = some (.left wrapped operators))
    (hclimbs : ∀ fewer, fewer < bytes → ladder.Climbs source fewer (i + 1))
    (hnext : ladder.Climbs source bytes (i + 1)) :
    ladder.Rung source bytes i (ladder.levelRule (.left wrapped operators))
      (admitted ladder.choice operators operators (ladder.reads (i + 1))) := by
  intro cursor rest engine fuel hat hbytes hleft hready htop hfuel
  have hlength := ladder.length_le_size wrapped operators
  cases hcached : ladder.cached with
  | true =>
      rw [choice, if_pos hcached]
      refine yields_anyOf (ladder.depth bytes (i + 1) + 8 * operators.length + 12)
        (by omega) fun {fuel} hfuel => ?_
      have hpending := pending_all hlevel hat hready htop
      exact yields_later hcached hproper hlevel hclimbs hnext hat hbytes hleft rfl _ _ hpending
        hfuel
  | false =>
      have hopen : freeOperators operators cursor.offset engine = operators := by
        refine List.filter_eq_self.mpr fun operator hmem => decide_eq_true ?_
        exact hready.free_of_le (mem_guards hlevel (List.mem_map_of_mem hmem)) (Nat.le_refl _)
      rw [choice, if_neg (by rw [hcached]; exact Bool.false_ne_true)]
      exact yields_free hcached hproper hlevel hclimbs hnext hat hbytes hleft operators _ _
        (hready.ahead (.of_le (Nat.le_succ _))) htop hopen (by omega)

theorem left_climbs (hproper : ∀ primary ∈ ladder.primaries, primary.Proper)
    (hlevel : ladder.levels[i]? = some (.left wrapped operators))
    (hclimbs : ∀ fewer, fewer < bytes → ladder.Climbs source fewer (i + 1))
    (hnext : ladder.Climbs source bytes (i + 1)) : ladder.Climbs source bytes i := by
  refine climbs_of_rung (rungs_level hlevel) (left_rung hproper hlevel hclimbs hnext) hnext
    fun rest => ?_
  rw [reads_level hlevel]
  exact Reader.map_getD_eq_or _

end Packrat.Ladder
