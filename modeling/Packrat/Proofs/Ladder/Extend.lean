import Packrat.Proofs.Ladder.Rungs

/-!
# Chains of left-associative operators

A fold offers what it has folded so far to the operators of its level as an operand that is already
there.  Such an operand has a tag of its own, so that nothing is stored for it yet; right operands
are refused by the operators of the level and come from the tighter ones.
-/

namespace Packrat.Ladder

open Engine
open Text (byteLength)

variable {α : Type} {ladder : Ladder α} {source : Source} {cursor : Cursor α} {rest : List Char}
  {engine engine' : Engine α} {offset threshold rank fuel bound bytes i : Nat}
  {wrapped : Bool} {operators : List (Infix α)} {operator : Infix α}

theorem nodup_memos (hlevel : ladder.levels[i]? = some (.left wrapped operators)) :
    (operators.map (·.memo)).Nodup :=
  (List.nodup_flatMap.mp (List.nodup_append.mp ladder.memos_nodup).1).1 _
    (List.mem_of_getElem? hlevel)

theorem nodup_guards (hlevel : ladder.levels[i]? = some (.left wrapped operators)) :
    (operators.map (·.guard)).Nodup :=
  (List.nodup_flatMap.mp (List.nodup_append.mp ladder.guards_nodup).1).1 _
    (List.mem_of_getElem? hlevel)

/-! ## Right operands -/

/-- No operator of a left-associative level takes up a right operand. -/
theorem yields_refused (hleft : cursor.left = .rightOperand)
    (hready : Ready ladder.layout source offset threshold engine) (hfuel : 6 ≤ fuel) {at_ : Nat} :
    Yields (run ladder.rules fuel (ladder.levelRule (.left wrapped operators)) cursor) engine
      (ladder.Parses source at_ rank engine none) := by
  have hkey (operator : Infix α) : (⟨operator.memo, cursor.offset, cursor.left.key⟩ : CacheKey) =
      ⟨operator.memo, cursor.offset, .rightOperand⟩ := by rw [hleft]; rfl
  have hnone : Reader.first (operators.map fun _ => (fun _ => none : Reader α)) [] = none := by
    induction operators with
    | nil => rfl
    | cons operator operators ih => exact ih
  rw [← hnone]
  refine yields_anyOf 5 hfuel fun {fuel} hfuel => yields_firstMatch ?_
  rw [List.forall₂_map_left_iff, List.forall₂_map_right_iff]
  refine List.forall₂_same.mpr fun operator hmem engine' hkept => ?_
  have hready' := hready.kept hkept
  by_cases hstored : ladder.cached = true ∧
      (engine'.entry ⟨operator.memo, cursor.offset, .rightOperand⟩).isSome = true
  · obtain ⟨hcached, hsome⟩ := hstored
    obtain ⟨result, hentry⟩ := Option.isSome_iff_exists.mp hsome
    obtain rfl := hready'.refused _ _ _ hentry
    exact yields_rule_stored (by omega) hcached ((hkey operator) ▸ hentry)
      fun engine'' hkept' => ⟨Matches.none_iff.mpr rfl, hkept'⟩
  · have hmissing : ladder.cached = true →
        engine'.entry ⟨operator.memo, cursor.offset, .rightOperand⟩ = none := fun hcached =>
      Option.not_isSome_iff_eq_none.mp fun hsome => hstored ⟨hcached, hsome⟩
    refine yields_rule_missing 1 (by omega) ((hkey operator) ▸ hmissing) ?_
    rw [hkey]
    intro fuel begun hfuel hbegun
    obtain ⟨fuel, rfl⟩ := Nat.exists_eq_add_of_le' hfuel
    refine yields_foldStep ?_
    rw [leftOperand, hleft]
    exact Yields.pure fun ended hended => ⟨trivial,
      (Kept.refl engine').written hbegun (.refl begun) hended hmissing fun _ => .refused⟩

/-! ## Folds -/

/--
An operand that was just folded is taken up as far as the operators of the level go on from it.
The state is the one before the operand got its tag.
-/
def Extends (ladder : Ladder α) (source : Source) (i : Nat) (operators : List (Infix α))
    (bytes : Nat) : Prop :=
  ∀ {cursor : Cursor α} {rest : List Char} {engine : Engine α} {fuel : Nat} {x : α}
    {operator : Infix α}, operator ∈ operators → cursor.At source rest → byteLength rest = bytes →
    cursor.left = .operand engine.nextTag (some x) →
    Ready ladder.layout source cursor.offset 0 engine →
    (engine.climbing.get ladder.node).head? = some i → ladder.scale * bytes + 16 ≤ fuel →
      Yields (run ladder.rules fuel (.guarded operator.guard (.call 0)) cursor) engine.tagged
        (ladder.Parses source cursor.offset 0 engine
          ((Reader.joined (operators.map (·.binary)) (ladder.reads (i + 1)) x rest).map
            fun (y, rest) =>
              Reader.foldFrom (Reader.joined (operators.map (·.binary)) (ladder.reads (i + 1)))
                y rest))

/-- The match of a fold whose folded payload was taken up as far as the operators go on. -/
theorem matches_foldResult {folded : α} {next : Cursor α} {extended : Option (Output α)}
    {step : α → Reader α} (hat : next.At source rest) (hleft : next.left = .empty)
    (hstep : ∀ x rest y shorter, step x rest = some (y, shorter) →
      byteLength shorter < byteLength rest)
    (hextended : Matches source .empty
      ((step folded rest).map fun (y, rest) => Reader.foldFrom step y rest) extended) :
    Matches source .empty (some (Reader.foldFrom step folded rest))
      (some (foldResult folded next extended)) := by
  cases hfolded : step folded rest with
  | none =>
      rw [hfolded] at hextended
      obtain rfl := Matches.none_iff.mp hextended
      rw [Reader.foldFrom_of_none hfolded]
      exact ⟨rfl, hat, hleft⟩
  | some pair =>
      obtain ⟨y, shorter⟩ := pair
      rw [hfolded, Option.map_some] at hextended
      rw [Reader.foldFrom_of_some hfolded (hstep _ _ _ _ hfolded)]
      change Matches source .empty (some (Reader.foldFrom step y shorter)) extended at hextended
      generalize Reader.foldFrom step y shorter = last at hextended ⊢
      obtain ⟨next', rfl, hat', hleft'⟩ := Matches.some_iff.mp hextended
      rw [foldResult, if_pos (by rw [hleft']; rfl)]
      exact ⟨rfl, hat', hleft'⟩

/-- The symbol of a fold. -/
theorem yields_symbol (offset threshold : Nat) (operator : Infix α)
    (hfuel : byteLength rest + 6 < fuel) (hat : cursor.At source rest)
    (hleft : cursor.left = .empty) :
    Yields (inSequence (run ladder.rules fuel) [operator.symbol ladder.filler] cursor) engine
      (ladder.Parts source offset threshold engine
        ((Reader.behind operator.text rest).map ([operator.payload], ·))) := by
  have hparts : (Reader.behind operator.text rest).map ([operator.payload], ·) =
      ((Reader.behind operator.text rest).map (operator.payload, ·)).bind
        fun (payload, shorter) => (some ([], shorter)).map (Prod.map (payload :: ·) id) := by
    cases Reader.behind operator.text rest <;> rfl
  rw [hparts]
  exact yields_parts_cons (fun shorter => some ([], shorter))
    (yields_token hfuel hat hleft) fun _ hat hleft _ => yields_parts_nil hat hleft

/-- A right operand of a fold comes from the tighter levels. -/
theorem yields_right_operand (hlevel : ladder.levels[i]? = some (.left wrapped operators))
    (hnext : ladder.Climbs source bytes (i + 1)) (hat : cursor.At source rest)
    (hbytes : byteLength rest = bytes)
    (hready : Ready ladder.layout source cursor.offset (i + 1 + 1) engine)
    (htop : (engine.climbing.get ladder.node).head? = some i)
    (hfuel : ladder.depth bytes (i + 1) + 8 ≤ fuel) :
    Yields (rightOperand (run ladder.rules fuel) (.call 0) cursor) engine
      (ladder.Parses source cursor.offset (i + 1 + 1) engine (ladder.reads (i + 1) rest)) := by
  have hcall := yields_call_attempt none (ladder.depth bytes (i + 1) + 6)
    (rungs_level hlevel) (restarts_levelRule _) htop hnext (hat.withLeft .rightOperand) hbytes rfl
    hready (Nat.le_refl _) (Nat.le_add_right _ _) (by omega) (by omega) fun {fuel} hfuel =>
      yields_refused rfl (hready.pushed i) (by omega)
  refine yields_rightOperand (hcall.mono ?_)
  rintro output engine' ⟨hmatches, hkept⟩
  refine ⟨?_, hkept⟩
  rw [Option.none_or] at hmatches
  cases hread : ladder.reads (i + 1) rest with
  | none =>
      rw [hread] at hmatches
      obtain rfl := Matches.none_iff.mp hmatches
      trivial
  | some found =>
      rw [hread] at hmatches
      obtain ⟨next, rfl, hnextAt, -⟩ := Matches.some_iff.mp hmatches
      exact ⟨rfl, hnextAt.withoutLeft, rfl⟩

/-- Behind the symbol of a fold: the right operand, and what extends the folded expression. -/
theorem yields_folded_right (threshold : Nat)
    (hproper : ∀ primary ∈ ladder.primaries, primary.Proper)
    (hlevel : ladder.levels[i]? = some (.left wrapped operators))
    (hoperator : operator ∈ operators)
    (hclimbs : ∀ fewer, fewer < bytes → ladder.Climbs source fewer (i + 1))
    (hextends : ∀ fewer, fewer < bytes → ladder.Extends source i operators fewer)
    (hat : cursor.At source rest) (hbytes : byteLength rest = bytes)
    (hready : Ready ladder.layout source cursor.offset rank engine)
    (htop : (engine.climbing.get ladder.node).head? = some i)
    (hfuel : ladder.scale * bytes ≤ fuel) (x : α) {next : Cursor α} {shorter : List Char}
    (hnext : next.At source shorter) (hfewer : byteLength shorter < bytes)
    (hkept : Kept ladder.layout source cursor.offset threshold engine engine') :
    Yields (rightOperand (run ladder.rules fuel) (.call 0) next) engine' fun found engine' =>
      match found with
      | none => ladder.Parses source cursor.offset threshold engine
          (((ladder.reads (i + 1) shorter).map (Prod.map (operator.binary.join x) id)).map
            fun (y, rest) =>
              Reader.foldFrom (Reader.joined (operators.map (·.binary)) (ladder.reads (i + 1)))
                y rest) none engine'
      | some last =>
          let folded := operator.combine [x, operator.payload, last.payload]
          Yields (run ladder.rules fuel (.guarded operator.guard (.call 0))
              (last.next.withLeft (.operand engine'.nextTag (some folded)))) engine'.tagged
            fun extended engine' => ladder.Parses source cursor.offset threshold engine
              (((ladder.reads (i + 1) shorter).map (Prod.map (operator.binary.join x) id)).map
                fun (y, rest) =>
                  Reader.foldFrom (Reader.joined (operators.map (·.binary)) (ladder.reads (i + 1)))
                    y rest) (some (foldResult folded last.next extended)) engine' := by
  have hshrinks := reads_shrinks hproper (i + 1)
  have hahead := (hat.offset_lt_iff hnext).mpr (hbytes ▸ hfewer)
  have hdepth := ladder.depth_lt hfewer (i + 1)
  refine (yields_right_operand hlevel (hclimbs _ hfewer) hnext rfl
    ((hready.kept hkept).ahead (.of_lt hahead)) (by rw [hkept.climbing, htop]) (by omega)).mono ?_
  rintro output engine₁ ⟨hright, hkept₁⟩
  have hkept := hkept.trans (hkept₁.wider (.of_lt hahead))
  cases hread : ladder.reads (i + 1) shorter with
  | none =>
      rw [hread] at hright
      obtain rfl := Matches.none_iff.mp hright
      exact ⟨trivial, hkept⟩
  | some last =>
      obtain ⟨y, rest₁⟩ := last
      rw [hread] at hright
      obtain ⟨next₁, rfl, hat₁, hleft₁⟩ := Matches.some_iff.mp hright
      have hle₁ := hshrinks _ _ _ hread
      have hfewer₁ : byteLength rest₁ < bytes := by omega
      have hahead₁ := (hat.offset_lt_iff hat₁).mpr (hbytes ▸ hfewer₁)
      have hdepth₁ := ladder.depth_lt hfewer₁ 0
      refine (hextends _ hfewer₁ hoperator (hat₁.withLeft _) rfl rfl
        ((hready.kept hkept).ahead (.of_lt hahead₁)) (by rw [hkept.climbing, htop])
        (by rw [depth] at hdepth₁; omega)).mono ?_
      rintro extended engine₂ ⟨hextended, hkept₂⟩
      exact ⟨matches_foldResult hat₁ hleft₁ (Reader.joined_lt hshrinks) hextended,
        hkept.trans (hkept₂.wider (.of_lt hahead₁))⟩

/-- An operator with its left operand: the chain that begins with it. -/
theorem yields_folded (threshold bound : Nat)
    (hproper : ∀ primary ∈ ladder.primaries, primary.Proper)
    (hlevel : ladder.levels[i]? = some (.left wrapped operators))
    (hoperator : operator ∈ operators)
    (hclimbs : ∀ fewer, fewer < bytes → ladder.Climbs source fewer (i + 1))
    (hextends : ∀ fewer, fewer < bytes → ladder.Extends source i operators fewer)
    (hat : cursor.At source rest) (hbytes : byteLength rest = bytes)
    (hready : Ready ladder.layout source cursor.offset rank engine)
    (htop : (engine.climbing.get ladder.node).head? = some i)
    (found : Option (α × List Char))
    (hfound : ∀ x shorter, found = some (x, shorter) → byteLength shorter ≤ bytes)
    (hbound : ladder.scale * bytes + 8 ≤ bound) (hfuel : bound + 1 ≤ fuel)
    (hoperand : ∀ {fuel : Nat}, bound ≤ fuel →
      Yields (leftOperand (run ladder.rules fuel) (.guarded operator.guard (.call 0)) cursor) engine
        (ladder.Parses source cursor.offset threshold engine found)) :
    Yields (run ladder.rules fuel (operator.folded ladder.filler) cursor) engine
      (ladder.Parses source cursor.offset threshold engine
        (found.bind fun (x, rest) =>
          Reader.chain (operators.map (·.binary)) (ladder.reads (i + 1)) operator.binary x
            rest)) := by
  have hscale := ladder.le_scale_mul bytes
  obtain ⟨fuel, rfl⟩ := Nat.exists_eq_add_of_le' (Nat.le_of_add_left_le hfuel)
  refine yields_foldStep ((hoperand (Nat.le_of_succ_le_succ hfuel)).mono ?_)
  rintro output engine₁ ⟨hmatches, hkept₁⟩
  cases found with
  | none =>
      obtain rfl := Matches.none_iff.mp hmatches
      exact ⟨trivial, hkept₁⟩
  | some pair =>
      obtain ⟨x, rest₁⟩ := pair
      obtain ⟨next₁, rfl, hat₁, hleft₁⟩ := Matches.some_iff.mp hmatches
      have hle₁ := hfound x rest₁ rfl
      simp only [Option.bind_some, Reader.chain, Reader.Binary.after]
      refine (yields_symbol cursor.offset threshold operator (by omega)
        hat₁ hleft₁).mono ?_
      rintro result engine₂ ⟨hsymbol, hkept₂⟩
      rw [show operator.binary.symbol = operator.text from rfl]
      cases hbehind : Reader.behind operator.text rest₁ with
      | none =>
          rw [hbehind] at hsymbol
          obtain rfl := MatchesAll.none_iff.mp hsymbol
          exact ⟨trivial, hkept₁.trans hkept₂⟩
      | some rest₂ =>
          rw [hbehind] at hsymbol
          obtain ⟨next₂, rfl, hat₂, -⟩ := MatchesAll.some_iff.mp hsymbol
          have hlt₂ := Reader.behind_lt operator.nonempty hbehind
          simp only [Option.bind_some]
          exact yields_folded_right threshold hproper hlevel hoperator hclimbs hextends hat hbytes
            hready htop (by omega) x hat₂ (by omega) (hkept₁.trans hkept₂)

/-! ## Operands that are already there -/

theorem first_chain (operators all : List (Infix α)) (next : Reader α) (x : α)
    (rest : List Char) :
    Reader.first (operators.map fun operator =>
        Reader.chain (all.map (·.binary)) next operator.binary x) rest =
      (Reader.joined (operators.map (·.binary)) next x rest).map fun (y, rest) =>
        Reader.foldFrom (Reader.joined (all.map (·.binary)) next) y rest := by
  induction operators with
  | nil => rfl
  | cons operator operators ih =>
      simp only [Reader.joined, List.map_cons, Reader.first, Option.map_or] at ih ⊢
      rw [ih, Reader.chain]

/--
An operator that is tried on an operand that is already there.  Only its own result is stored for
the operand.
-/
theorem yields_extension (hproper : ∀ primary ∈ ladder.primaries, primary.Proper)
    (hlevel : ladder.levels[i]? = some (.left wrapped operators))
    (hoperator : operator ∈ operators)
    (hclimbs : ∀ fewer, fewer < bytes → ladder.Climbs source fewer (i + 1))
    (hextends : ∀ fewer, fewer < bytes → ladder.Extends source i operators fewer)
    (hat : cursor.At source rest) (hbytes : byteLength rest = bytes) {x : α} {tag : Nat}
    (hleft : cursor.left = .operand tag (some x))
    (hready : Ready ladder.layout source cursor.offset rank engine)
    (htop : (engine.climbing.get ladder.node).head? = some i)
    (hfuel : ladder.scale * bytes + 12 ≤ fuel)
    (hkept : Kept ladder.layout source cursor.offset 0 engine engine')
    (hle : engine.nextTag ≤ tag) (htag : tag < engine'.nextTag)
    (hmissing : ladder.cached = true →
      engine'.entry ⟨operator.memo, cursor.offset, .operand tag⟩ = none) :
    Yields (run ladder.rules fuel (ladder.infixRule operator) cursor) engine' fun output ended =>
      ladder.Parses source cursor.offset 0 engine
          (Reader.chain (operators.map (·.binary)) (ladder.reads (i + 1)) operator.binary x rest)
          output ended ∧
        tag < ended.nextTag ∧
        (ladder.cached = true → ∀ memo, memo ≠ operator.memo →
          engine'.entry ⟨memo, cursor.offset, .operand tag⟩ = none →
            ended.entry ⟨memo, cursor.offset, .operand tag⟩ = none) := by
  have hkey : (⟨operator.memo, cursor.offset, cursor.left.key⟩ : CacheKey) =
      ⟨operator.memo, cursor.offset, .operand tag⟩ := by rw [hleft]; rfl
  refine yields_rule_missing (ladder.scale * bytes + 9) (by omega) (hkey ▸ hmissing) ?_
  rw [hkey]
  intro fuel' begun hfuel' hbegun
  have hbegunReady : Ready ladder.layout source cursor.offset rank begun := by
    refine (hready.kept hkept).begun hbegun (fun _ _ _ hempty => nomatch hempty) ?_ (.refl _ _)
    rintro tag' ⟨rfl⟩
    exact htag
  refine (yields_folded 0 (ladder.scale * bytes + 8) hproper hlevel hoperator hclimbs hextends hat
    hbytes hbegunReady (by rw [hbegun.climbing, hkept.climbing, htop]) (some (x, rest))
    (by rintro y shorter ⟨rfl, rfl⟩; exact Nat.le_of_eq hbytes) (Nat.le_refl _) hfuel' ?_).mono ?_
  · intro fuel hfuel
    rw [leftOperand, hleft]
    exact Yields.pure ⟨⟨rfl, hat.withoutLeft, rfl⟩, .refl begun⟩
  · rintro output engine₁ ⟨hmatches, hkept₁⟩ ended hended
    have htag' : tag < ended.nextTag := by
      rw [hended.nextTag]
      exact Nat.lt_of_lt_of_le htag (hbegun.nextTag ▸ hkept₁.nextTag)
    refine ⟨⟨hmatches, hkept.written hbegun hkept₁ hended hmissing fun _ => .operand hle htag'⟩,
      htag', fun hcached memo hne hnone => ?_⟩
    have hkeys : ladder.cached = true → (⟨memo, cursor.offset, .operand tag⟩ : CacheKey) ≠
        ⟨operator.memo, cursor.offset, .operand tag⟩ := by
      rintro - heq
      injection heq with hmemo
      exact hne hmemo
    rw [hended.elsewhere _ hkeys]
    refine hkept₁.missing_operand (hbegun.nextTag ▸ htag) ?_
    rw [hbegun.elsewhere _ hkeys, hnone]

/-- The operators of a level, tried one after another on an operand that is already there. -/
theorem yields_extensions (hproper : ∀ primary ∈ ladder.primaries, primary.Proper)
    (hlevel : ladder.levels[i]? = some (.left wrapped operators))
    (hclimbs : ∀ fewer, fewer < bytes → ladder.Climbs source fewer (i + 1))
    (hextends : ∀ fewer, fewer < bytes → ladder.Extends source i operators fewer)
    (hat : cursor.At source rest) (hbytes : byteLength rest = bytes) {x : α} {tag : Nat}
    (hleft : cursor.left = .operand tag (some x))
    (hready : Ready ladder.layout source cursor.offset rank engine)
    (htop : (engine.climbing.get ladder.node).head? = some i)
    (hfuel : ladder.scale * bytes + 12 ≤ fuel) {later : List (Infix α)}
    (hsub : later.Sublist operators)
    (hkept : Kept ladder.layout source cursor.offset 0 engine engine')
    (hle : engine.nextTag ≤ tag) (htag : tag < engine'.nextTag)
    (hmissing : ladder.cached = true → ∀ operator ∈ later,
      engine'.entry ⟨operator.memo, cursor.offset, .operand tag⟩ = none) :
    Yields (firstMatch (run ladder.rules fuel) (later.map ladder.infixRule) cursor) engine'
      (ladder.Parses source cursor.offset 0 engine
        (Reader.first (later.map fun operator => Reader.chain (operators.map (·.binary))
          (ladder.reads (i + 1)) operator.binary x) rest)) := by
  induction later generalizing engine' with
  | nil => exact yields_firstMatch_nil ⟨trivial, hkept⟩
  | cons operator later ih =>
      refine yields_firstMatch_cons ((yields_extension hproper hlevel
        (hsub.subset List.mem_cons_self) hclimbs hextends hat hbytes hleft hready htop hfuel hkept
        hle htag fun hcached => hmissing hcached operator List.mem_cons_self).mono ?_)
      rintro output ended ⟨⟨hmatches, hkept'⟩, htag', hothers⟩
      rw [List.map_cons, Reader.first]
      cases hchain : Reader.chain (operators.map (·.binary)) (ladder.reads (i + 1))
          operator.binary x rest with
      | some found =>
          rw [hchain] at hmatches
          obtain ⟨next, rfl, -, -⟩ := Matches.some_iff.mp hmatches
          exact ⟨hmatches, hkept'⟩
      | none =>
          rw [hchain] at hmatches
          obtain rfl := Matches.none_iff.mp hmatches
          refine ih (List.sublist_of_cons_sublist hsub) hkept' htag' fun hcached other hother => ?_
          refine hothers hcached _ ?_ (hmissing hcached other (List.mem_cons_of_mem _ hother))
          have hnodup := (nodup_memos hlevel).sublist (hsub.map _)
          rw [List.map_cons, List.nodup_cons] at hnodup
          exact fun heq => hnodup.1 (heq ▸ List.mem_map_of_mem hother)

/-- A call on an operand that is already there is what the alternative under way makes of it. -/
theorem yields_call_operand (bound : Nat) {parser : Parser α}
    {post : Option (Output α) → Engine α → Prop}
    (hrung : ladder.rungs[i]? = some parser)
    (hrestarts : ∀ {fuel : Nat}, 3 ≤ fuel → restarts ladder.rules fuel parser = .ok false)
    (htop : (engine.climbing.get ladder.node).head? = some i)
    (hleft : cursor.left.isOperand = true) (hbound : 3 ≤ bound) (hfuel : bound + 2 ≤ fuel)
    (hattempt : ∀ {fuel : Nat}, bound ≤ fuel →
      Yields (run ladder.rules fuel parser cursor) (engine.pushed ladder.node i)
        fun output engine' => post output (engine'.popped ladder.node)) :
    Yields (run ladder.rules fuel (.call 0) cursor) engine post := by
  obtain ⟨hlt, hparser⟩ := List.getElem?_eq_some_iff.mp hrung
  have hdrop : ladder.rungs.drop i = parser :: ladder.rungs.drop (i + 1) := by
    rw [List.drop_eq_getElem_cons hlt, hparser]
  refine yields_call bound hfuel fun {fuel} hfuel => ?_
  refine yields_climbMatch_active htop hdrop (hrestarts (Nat.le_trans hbound hfuel))
    (yields_attempt ((hattempt hfuel).mono fun output engine' hpost => ?_))
  cases output with
  | some output => exact hpost
  | none =>
      simp only [hleft, if_true]
      exact hpost

/-- In front of any number of bytes, an operand is taken up as far as the operators go on. -/
theorem extends_all (hproper : ∀ primary ∈ ladder.primaries, primary.Proper)
    (hlevel : ladder.levels[i]? = some (.left wrapped operators))
    (hclimbs : ∀ fewer, fewer < bytes → ladder.Climbs source fewer (i + 1)) :
    ladder.Extends source i operators bytes := by
  induction bytes using Nat.strongRecOn with
  | ind bytes ih =>
      intro cursor rest engine fuel x operator hoperator hat hbytes hleft hready htop hfuel
      have hextends (fewer : Nat) (hfewer : fewer < bytes) :
          ladder.Extends source i operators fewer :=
        ih fewer hfewer fun fewer' hfewer' => hclimbs fewer' (Nat.lt_trans hfewer' hfewer)
      have hguard : (operator.guard, i + 1) ∈ ladder.layout.guards :=
        mem_guards hlevel (List.mem_map_of_mem hoperator)
      have hfree : cursor.offset ∉ engine.tagged.active.get operator.guard :=
        hready.free_of_le hguard (Nat.zero_le _)
      -- The state before the tag in which the operators are tried.
      let inner := (engine.entered operator.guard cursor.offset).pushed ladder.node i
      have hinnerReady : Ready ladder.layout source cursor.offset (i + 1 + 1) inner :=
        ((hready.ahead (.of_le (Nat.zero_le _))).entered hguard (Nat.lt_succ_self _)).pushed i
      have hinnerTop : (inner.climbing.get ladder.node).head? = some i := by
        simp [inner]
      obtain ⟨fuel, rfl⟩ := Nat.exists_eq_add_of_le' (Nat.le_of_add_left_le hfuel)
      refine yields_guardedMatch_free hfree (yields_call_operand
        (ladder.scale * bytes + 13) (rungs_level hlevel) (restarts_levelRule _) htop
        (by rw [hleft]; rfl) (by omega) (by omega) fun {fuel} hfuel => ?_)
      rw [← first_chain]
      refine yields_anyOf (ladder.scale * bytes + 12) hfuel fun {fuel} hfuel => ?_
      have htagged : Kept ladder.layout source cursor.offset 0 inner inner.tagged :=
        .of_untouched (.tagged inner)
      refine (yields_extensions hproper hlevel hclimbs hextends hat hbytes hleft hinnerReady
        hinnerTop hfuel (List.Sublist.refl _) htagged (Nat.le_refl _) (Nat.lt_succ_self _)
        fun _ operator _ => hready.unused _ _ _ (Nat.le_refl _)).mono ?_
      rintro output engine' ⟨hmatches, hkept⟩
      exact ⟨hmatches, hkept.popped.freed⟩

end Packrat.Ladder
