import Packrat.Proofs.Combinators
import Packrat.Proofs.Ladder.Layout

/-!
# Calls in a ladder

What a rule and a call of the whole grammar yield, given what the rule's body and the alternatives
of the precedence node yield.  A call that stands inside an alternative goes on with this
alternative, or starts over inside a group.
-/

namespace Packrat

open Text (byteLength)

variable {α : Type}

theorem Cursor.withoutLeft_eq {cursor : Cursor α} (h : cursor.left = .empty) :
    cursor.withoutLeft = cursor :=
  Cursor.ext rfl rfl h.symm

namespace Engine

variable {engine : Engine α} {key other : CacheKey} {result : Option (Output α)}

@[simp] theorem entry_counted (cache : Nat) :
    (engine.counted cache key).entry other = engine.entry other := by
  simp only [entry, counted, Table.get_update]
  split
  · next hcache => rw [hcache, Cache.entries_count]
  · rfl

theorem entry_stored :
    (engine.stored 0 key result).entry other =
      if key = other then some result else engine.entry other := by
  simp only [entry, stored, Table.get_update_self, Cache.getElem?_store]

/-- Inside another alternative, a precedence node tries that one and the tighter ones. -/
theorem yields_climbMatch_same {call : Call α} {restarts : Parser α → Except Stop Bool}
    {id active : Nat} {parser : Parser α} {parsers tighter : List (Parser α)} {cursor : Cursor α}
    {post : Option (Output α) → Engine α → Prop}
    (htop : (engine.climbing.get id).head? = some active)
    (hdrop : parsers.drop active = parser :: tighter) (hrestart : restarts parser = .ok false)
    (hleft : cursor.left = .empty)
    (h : Yields (attemptAll call id active (parser :: tighter) cursor) engine post) :
    Yields (climbMatch call restarts id parsers cursor) engine post := by
  obtain ⟨result, engine', hrun, hpost⟩ := h
  refine yields_climbMatch_active htop hdrop hrestart ?_
  simp only [attemptAll, Bind.bind, StateT.bind] at hrun
  cases hattempt : attempt call id active parser cursor engine with
  | error stop =>
      rw [hattempt] at hrun
      cases hrun
  | ok first =>
      obtain ⟨output, engine₁⟩ := first
      rw [hattempt] at hrun
      refine Yields.of_eq hattempt ?_
      cases output with
      | some output =>
          cases hrun
          exact hpost
      | none =>
          rw [Cursor.withoutLeft_eq hleft, hleft]
          exact Yields.of_eq hrun hpost

end Engine

namespace Written

variable {key key' : CacheKey} {result result' : Option (Output α)}
  {cached : Bool} {engine engine' engine'' : Engine α}

theorem refl (engine : Engine α) : Written false key result engine engine :=
  ⟨fun _ => rfl, fun _ => rfl, fun _ => rfl, rfl, fun h => (nomatch h), fun _ _ => rfl⟩

theorem recorded (engine : Engine α) (event : Event) :
    Written false key result engine (engine.recorded event) :=
  ⟨fun _ => rfl, fun _ => rfl, fun _ => rfl, rfl, fun h => (nomatch h), fun _ _ => rfl⟩

theorem counted (key : CacheKey) (result : Option (Output α)) (engine : Engine α) (cache : Nat) :
    Written false key result engine (engine.counted cache key) :=
  ⟨fun _ => rfl, fun _ => rfl, fun _ => rfl, rfl, fun h => (nomatch h),
    fun _ _ => Engine.entry_counted _⟩

theorem stored (engine : Engine α) (key : CacheKey) (result : Option (Output α)) :
    Written true key result engine (engine.stored 0 key result) where
  active _ := rfl
  climbing _ := rfl
  depth _ := rfl
  nextTag := rfl
  here _ := by rw [Engine.entry_stored, if_pos rfl]
  elsewhere other hother := by rw [Engine.entry_stored, if_neg (hother rfl).symm]

/-- Nothing is written before the result is. -/
theorem after (h : Written false key' result' engine engine')
    (h' : Written cached key result engine' engine'') :
    Written cached key result engine engine'' where
  active id := (h'.active id).trans (h.active id)
  climbing id := (h'.climbing id).trans (h.climbing id)
  depth id := (h'.depth id).trans (h.depth id)
  nextTag := h'.nextTag.trans h.nextTag
  here := h'.here
  elsewhere other hother :=
    (h'.elsewhere other hother).trans (h.elsewhere other fun h => nomatch h)

/-- Nothing is written after the result is. -/
theorem before (h : Written cached key result engine engine')
    (h' : Written false key' result' engine' engine'') :
    Written cached key result engine engine'' where
  active id := (h'.active id).trans (h.active id)
  climbing id := (h'.climbing id).trans (h.climbing id)
  depth id := (h'.depth id).trans (h.depth id)
  nextTag := h'.nextTag.trans h.nextTag
  here hcached := (h'.elsewhere key fun h => nomatch h).trans (h.here hcached)
  elsewhere other hother :=
    (h'.elsewhere other fun h => nomatch h).trans (h.elsewhere other hother)

theorem kept {layout : Layout α} {source : Source} {offset threshold : Nat}
    (h : Written false key result engine engine') :
    Kept layout source offset threshold engine engine' where
  active := h.active
  climbing := h.climbing
  depth := h.depth
  nextTag := Nat.le_of_eq h.nextTag.symm
  bare _ other := h.elsewhere other fun h => nomatch h
  grows other result' hentry := (h.elsewhere other fun h => nomatch h).trans hentry
  fresh other result' hnone hsome := by
    rw [h.elsewhere other (fun h => nomatch h), hnone] at hsome
    cases hsome

end Written

namespace Ladder

open Engine

variable {ladder : Ladder α} {source : Source} {cursor : Cursor α} {rest : List Char}
  {engine : Engine α} {parser : Parser α} {fuel bound bytes i : Nat}

/-! ## The depth of calls -/

/-- How deep the calls of the alternatives from a given one on are nested at one offset. -/
def weight (ladder : Ladder α) (i : Nat) : Nat :=
  24 * Parser.sizeAll (ladder.rungs.drop i)

/-- How much deeper they are for each byte of the text. -/
def scale (ladder : Ladder α) : Nat := ladder.weight 0 + 32

/-- How deep the calls of the alternatives from `i` on are in front of `bytes` bytes. -/
def depth (ladder : Ladder α) (bytes i : Nat) : Nat := ladder.scale * bytes + ladder.weight i

/-- Each alternative adds more than its own size. -/
theorem depth_succ_le (bytes : Nat) (hrung : ladder.rungs[i]? = some parser) :
    ladder.depth bytes (i + 1) + 8 * parser.size + 16 ≤ ladder.depth bytes i := by
  obtain ⟨hlt, rfl⟩ := List.getElem?_eq_some_iff.mp hrung
  have hpos := ladder.rungs[i].size_pos
  rw [depth, depth, weight, weight, List.drop_eq_getElem_cons hlt, Parser.sizeAll]
  omega

theorem weight_le (ladder : Ladder α) (i : Nat) : ladder.weight i ≤ ladder.weight 0 := by
  rw [weight, weight, List.drop_zero]
  exact Nat.mul_le_mul_left _ (Parser.sizeAll_drop_le _ _)

/-- In front of less, calls are nested less deep, whatever the alternative is. -/
theorem depth_lt (ladder : Ladder α) {fewer : Nat} (h : fewer < bytes) (i : Nat) :
    ladder.depth fewer i + 32 ≤ ladder.scale * bytes := by
  have hweight := ladder.weight_le i
  have hscale : ladder.scale * (fewer + 1) ≤ ladder.scale * bytes := Nat.mul_le_mul_left _ h
  rw [Nat.mul_succ] at hscale
  simp only [depth]
  simp only [scale] at hscale ⊢
  omega

theorem le_scale_mul (ladder : Ladder α) (bytes : Nat) : bytes ≤ ladder.scale * bytes :=
  Nat.le_mul_of_pos_left bytes (Nat.succ_pos _)

/-! ## What runs yield -/

/-- A match of what was read, behind a run from an offset and a threshold on. -/
def Parses (ladder : Ladder α) (source : Source) (offset threshold : Nat) (engine : Engine α)
    (found : Option (α × List Char)) (output : Option (Output α)) (engine' : Engine α) : Prop :=
  Matches source .empty found output ∧
    Kept ladder.layout source offset threshold engine engine'

/-- The alternatives from `i` on match what they read in front of the given number of bytes. -/
def Climbs (ladder : Ladder α) (source : Source) (bytes i : Nat) : Prop :=
  ∀ {cursor : Cursor α} {rest : List Char} {engine : Engine α} {fuel : Nat},
    cursor.At source rest → byteLength rest = bytes → cursor.left = .empty →
    Ready ladder.layout source cursor.offset (i + 1) engine → ladder.depth bytes i ≤ fuel →
      Yields (attemptAll (run ladder.rules fuel) ladder.node i (ladder.rungs.drop i) cursor) engine
        (ladder.Parses source cursor.offset (i + 1) engine (ladder.reads i rest))

/-- The alternative at `i` matches what `own` reads in front of the given number of bytes. -/
def Rung (ladder : Ladder α) (source : Source) (bytes i : Nat) (parser : Parser α)
    (own : Reader α) : Prop :=
  ∀ {cursor : Cursor α} {rest : List Char} {engine : Engine α} {fuel : Nat},
    cursor.At source rest → byteLength rest = bytes → cursor.left = .empty →
    Ready ladder.layout source cursor.offset (i + 1) engine →
    (engine.climbing.get ladder.node).head? = some i →
    ladder.depth bytes (i + 1) + 8 * parser.size + 16 ≤ fuel →
      Yields (run ladder.rules fuel parser cursor) engine
        (ladder.Parses source cursor.offset (i + 1) engine (own rest))

theorem Parses.wider {offset threshold later rank : Nat} {found : Option (α × List Char)}
    {output : Option (Output α)} {engine' : Engine α}
    (h : ladder.Parses source later rank engine found output engine')
    (hahead : Ahead offset threshold later rank) :
    ladder.Parses source offset threshold engine found output engine' :=
  ⟨h.1, h.2.wider hahead⟩

theorem Parses.after {offset threshold : Nat} {found : Option (α × List Char)}
    {output : Option (Output α)} {engine' engine'' : Engine α}
    (hkept : Kept ladder.layout source offset threshold engine engine')
    (h : ladder.Parses source offset threshold engine' found output engine'') :
    ladder.Parses source offset threshold engine found output engine'' :=
  ⟨h.1, hkept.trans h.2⟩

/-- Behind the last alternative, nothing is read. -/
theorem climbs_end (hi : ladder.levels.length + ladder.primaries.length ≤ i) :
    ladder.Climbs source bytes i := by
  intro cursor rest engine fuel _ _ _ _ _
  rw [List.drop_eq_nil_of_le (by rwa [length_rungs]), reads_end hi]
  exact yields_attemptAll_nil ⟨trivial, .refl engine⟩

/-- An alternative that matches what it reads is tried before the tighter ones. -/
theorem climbs_of_rung {own : Reader α} (hrung : ladder.rungs[i]? = some parser)
    (hown : ladder.Rung source bytes i parser own) (hnext : ladder.Climbs source bytes (i + 1))
    (hreads : ∀ rest, ladder.reads i rest = (own rest).or (ladder.reads (i + 1) rest)) :
    ladder.Climbs source bytes i := by
  intro cursor rest engine fuel hat hbytes hleft hready hfuel
  obtain ⟨hlt, hparser⟩ := List.getElem?_eq_some_iff.mp hrung
  rw [List.drop_eq_getElem_cons hlt, hparser, hreads]
  have hdepth := depth_succ_le bytes hrung
  refine yields_attemptAll_cons (yields_attempt ((hown hat hbytes hleft (hready.pushed i) ?_
    (Nat.le_trans hdepth hfuel)).mono ?_))
  · simp [layout]
  · rintro output engine' ⟨hmatches, hkept⟩
    have hkept := hkept.popped
    cases hfound : own rest with
    | some found =>
        rw [hfound] at hmatches
        obtain ⟨next, rfl, -, -⟩ := Matches.some_iff.mp hmatches
        exact ⟨hmatches, hkept⟩
    | none =>
        rw [hfound] at hmatches
        obtain rfl := Matches.none_iff.mp hmatches
        have hahead : Ahead cursor.offset (i + 1) cursor.offset (i + 1 + 1) :=
          .of_le (Nat.le_succ _)
        refine (hnext hat hbytes hleft ((hready.kept hkept).ahead hahead) (by omega)).mono ?_
        intro output engine'' hparses
        exact Parses.after hkept (hparses.wider hahead)

/-! ## Rules -/

section Rules

variable {memo : Nat} {name : String} {post : Option (Output α) → Engine α → Prop}

theorem yields_traced (bound : Nat) (hfuel : bound + 1 ≤ fuel) (key : CacheKey)
    (result : Option (Output α))
    (h : ∀ {fuel : Nat} {begun : Engine α}, bound ≤ fuel →
      Written false key result engine begun →
        Yields (run ladder.rules fuel parser cursor) begun fun output engine' =>
          ∀ ended, Written false key result engine' ended → post output ended) :
    Yields (run ladder.rules fuel (if ladder.traced then .logged name parser else parser) cursor)
      engine post := by
  cases ladder.traced with
  | false =>
      refine (h (Nat.le_of_succ_le hfuel) (.refl engine)).mono fun output engine' hpost => ?_
      exact hpost engine' (.refl engine')
  | true =>
      obtain ⟨fuel, rfl⟩ := Nat.exists_eq_add_of_le' (Nat.le_of_add_left_le hfuel)
      refine yields_loggedMatch ((h (Nat.le_of_succ_le_succ hfuel) (.recorded engine _)).mono ?_)
      intro output engine' hpost
      exact hpost _ (.recorded engine' _)

/-- A rule that is not stored yet is run. -/
theorem yields_rule_missing (bound : Nat) (hfuel : bound + 2 ≤ fuel)
    (hmissing : ladder.cached = true →
      engine.entry ⟨memo, cursor.offset, cursor.left.key⟩ = none)
    (h : ∀ {fuel : Nat} {begun : Engine α}, bound ≤ fuel →
      Written ladder.cached ⟨memo, cursor.offset, cursor.left.key⟩ none engine begun →
        Yields (run ladder.rules fuel parser cursor) begun fun output engine' =>
          ∀ ended,
            Written ladder.cached ⟨memo, cursor.offset, cursor.left.key⟩ output engine' ended →
              post output ended) :
    Yields (run ladder.rules fuel (ladder.rule memo name parser) cursor) engine post := by
  generalize hkey : (⟨memo, cursor.offset, cursor.left.key⟩ : CacheKey) = key at hmissing h
  rw [rule]
  cases hcached : ladder.cached with
  | false =>
      rw [hcached] at h
      refine yields_traced bound (by omega) key none fun hfuel hbegun => ?_
      refine (h hfuel hbegun).mono fun output engine' hpost ended hended => hpost ended ?_
      exact ⟨hended.active, hended.climbing, hended.depth, hended.nextTag, fun h => (nomatch h),
        hended.elsewhere⟩
  | true =>
      rw [hcached] at h
      obtain ⟨fuel, rfl⟩ := Nat.exists_eq_add_of_le' (Nat.le_of_add_left_le hfuel)
      refine yields_memoMatch_miss hkey.symm (hmissing hcached) ?_
      refine yields_traced bound (by omega) key none fun hfuel hbegun => ?_
      have hstored := (Written.counted key none engine 0).after
        (.stored _ key none)
      refine (h hfuel (hstored.before hbegun)).mono fun output engine' hpost ended hended => ?_
      exact hpost _ (hended.after (.stored ended key output))

/-- A rule that is stored is not run. -/
theorem yields_rule_stored {result : Option (Output α)} (hfuel : 1 ≤ fuel)
    (hcached : ladder.cached = true)
    (hentry : engine.entry ⟨memo, cursor.offset, cursor.left.key⟩ = some result)
    (h : ∀ engine', (∀ {source : Source} {offset threshold : Nat},
      Kept ladder.layout source offset threshold engine engine') → post result engine') :
    Yields (run ladder.rules fuel (ladder.rule memo name parser) cursor) engine post := by
  obtain ⟨fuel, rfl⟩ := Nat.exists_eq_add_of_le' hfuel
  rw [rule, hcached]
  refine yields_memoMatch_hit hentry (h _ ?_)
  exact (Written.counted ⟨memo, cursor.offset, cursor.left.key⟩ none engine 0).kept

/-- A rule with nothing to its left is a match of its value, stored or run. -/
theorem yields_rule (bound : Nat) {slot : Slot α} (hslot : slot ∈ ladder.layout.slots)
    (hready : Ready ladder.layout source cursor.offset slot.rank engine)
    (hat : cursor.At source rest) (hleft : cursor.left = .empty) (hfuel : bound + 2 ≤ fuel)
    (h : ∀ {fuel : Nat} {begun : Engine α}, bound ≤ fuel →
      Ready ladder.layout source cursor.offset (slot.rank + 1) begun →
      Written ladder.cached ⟨slot.memo, cursor.offset, .empty⟩ none engine begun →
        Yields (run ladder.rules fuel parser cursor) begun
          (ladder.Parses source cursor.offset (slot.rank + 1) begun (slot.value rest))) :
    Yields (run ladder.rules fuel (ladder.rule slot.memo name parser) cursor) engine
      (ladder.Parses source cursor.offset slot.rank engine (slot.value rest)) := by
  have hkey : (⟨slot.memo, cursor.offset, cursor.left.key⟩ : CacheKey) =
      ⟨slot.memo, cursor.offset, .empty⟩ := by rw [hleft]; rfl
  by_cases hstored : ladder.cached = true ∧
      (engine.entry ⟨slot.memo, cursor.offset, .empty⟩).isSome = true
  · obtain ⟨hcached, hsome⟩ := hstored
    obtain ⟨result, hentry⟩ := Option.isSome_iff_exists.mp hsome
    have hmatches := hready.sound slot hslot cursor.offset result hentry (.refl _ _)
    rw [hat.dropBytes_eq] at hmatches
    exact yields_rule_stored (by omega) hcached (hkey ▸ hentry) fun engine' hkept =>
      ⟨hmatches, hkept⟩
  · have hmissing : ladder.cached = true →
        engine.entry ⟨slot.memo, cursor.offset, .empty⟩ = none := fun hcached =>
      Option.not_isSome_iff_eq_none.mp fun hsome => hstored ⟨hcached, hsome⟩
    refine yields_rule_missing bound hfuel (hkey ▸ hmissing) ?_
    rw [hkey]
    intro fuel begun hfuel hbegun
    have hahead : Ahead cursor.offset slot.rank cursor.offset (slot.rank + 1) :=
      .of_le (Nat.le_succ _)
    have hready' : Ready ladder.layout source cursor.offset (slot.rank + 1) begun := by
      refine hready.begun hbegun ?_ (fun tag htag => nomatch htag) hahead
      rintro slot' hslot' hmemo - hlater
      rw [ladder.layout.slot_unique hslot' hslot hmemo] at hlater
      simp only [Ahead] at hlater
      omega
    refine (h hfuel hready' hbegun).mono ?_
    rintro output engine' ⟨hmatches, hkept⟩ ended hended
    refine ⟨hmatches,
      (Kept.refl engine).written hbegun (hkept.wider hahead) hended hmissing fun _ => ?_⟩
    refine .value hslot (.refl _ _) ?_
    rwa [hat.dropBytes_eq]

end Rules

/-! ## Calls -/

theorem find_rules : ladder.rules.find 0 = .body (.climb ladder.node ladder.rungs) := by
  simp [rules, Rules.find_ofBodies]

theorem run_call (fuel : Nat) (cursor : Cursor α) :
    run ladder.rules (fuel + 1) (.call 0) cursor =
      run ladder.rules fuel (.climb ladder.node ladder.rungs) cursor := by
  rw [run, step, find_rules]

section Calls

variable {post : Option (Output α) → Engine α → Prop}

/-- A call reaches the precedence node. -/
theorem yields_call (bound : Nat) (hfuel : bound + 2 ≤ fuel)
    (h : ∀ {fuel : Nat}, bound ≤ fuel →
      Yields (climbMatch (run ladder.rules fuel) (restarts ladder.rules fuel) ladder.node
        ladder.rungs cursor) engine post) :
    Yields (run ladder.rules fuel (.call 0) cursor) engine post := by
  obtain ⟨fuel, rfl⟩ := Nat.exists_eq_add_of_le' (Nat.le_of_add_left_le hfuel)
  rw [run_call]
  exact h (Nat.le_of_add_le_add_right hfuel)

/-- A call inside an alternative goes on with this alternative. -/
theorem yields_call_inside (hrung : ladder.rungs[i]? = some parser)
    (hrestarts : ∀ {fuel : Nat}, 3 ≤ fuel → restarts ladder.rules fuel parser = .ok false)
    (htop : (engine.climbing.get ladder.node).head? = some i)
    (hclimbs : ladder.Climbs source bytes i) (hat : cursor.At source rest)
    (hbytes : byteLength rest = bytes) (hleft : cursor.left = .empty)
    (hready : Ready ladder.layout source cursor.offset (i + 1) engine)
    (hfuel : ladder.depth bytes i + 2 ≤ fuel) :
    Yields (run ladder.rules fuel (.call 0) cursor) engine
      (ladder.Parses source cursor.offset (i + 1) engine (ladder.reads i rest)) := by
  obtain ⟨hlt, hparser⟩ := List.getElem?_eq_some_iff.mp hrung
  have hdrop : ladder.rungs.drop i = parser :: ladder.rungs.drop (i + 1) := by
    rw [List.drop_eq_getElem_cons hlt, hparser]
  refine yields_call (ladder.depth bytes i) hfuel fun {fuel} hfuel => ?_
  have hdepth := depth_succ_le bytes hrung
  have hdeep : 3 ≤ fuel := by omega
  refine yields_climbMatch_same htop hdrop (hrestarts hdeep) hleft ?_
  rw [← hdrop]
  exact hclimbs hat hbytes hleft hready hfuel

/-- A call inside a group starts over. -/
theorem yields_call_nested (hrung : ladder.rungs[i]? = some parser)
    (hrestarts : ∀ {fuel : Nat}, 3 ≤ fuel → restarts ladder.rules fuel parser = .ok true)
    (htop : (engine.climbing.get ladder.node).head? = some i)
    (hclimbs : ladder.Climbs source bytes 0) (hat : cursor.At source rest)
    (hbytes : byteLength rest = bytes) (hleft : cursor.left = .empty)
    (hready : Ready ladder.layout source cursor.offset 1 engine)
    (hfuel : ladder.depth bytes 0 + 5 ≤ fuel) :
    Yields (run ladder.rules fuel (.call 0) cursor) engine
      (ladder.Parses source cursor.offset 1 engine (ladder.reads 0 rest)) := by
  obtain ⟨hlt, hparser⟩ := List.getElem?_eq_some_iff.mp hrung
  have hdrop : ladder.rungs.drop i = parser :: ladder.rungs.drop (i + 1) := by
    rw [List.drop_eq_getElem_cons hlt, hparser]
  refine yields_call (ladder.depth bytes 0 + 3) (by omega) fun {fuel} hfuel => ?_
  refine yields_climbMatch_restart htop hdrop (hrestarts (by omega)) (by rw [hleft]; rfl) ?_
  rw [Cursor.withoutLeft_eq hleft]
  rw [← ladder.rungs.drop_zero]
  exact hclimbs hat hbytes hleft hready (by omega)

end Calls

end Ladder

end Packrat
