import Mathlib.Data.Nat.Init
import Packrat.Proofs.Answers
import Packrat.Proofs.Ladder.Groups
import Packrat.Proofs.Ladder.Left

/-!
# Ladders read what recursive descent reads

By induction on the number of bytes in front of a cursor, and for each number from the tightest
alternative to the loosest one, every alternative matches what it reads.
-/

namespace Packrat

open Engine
open Text (byteLength)

variable {α : Type}

/-- A rule above the operators matches what it reads, given what the expressions in it read. -/
def Primary.Runs (ladder : Ladder α) (primary : Primary α) : Prop :=
  ∀ ⦃source : Source⦄ ⦃cursor : Cursor α⦄ ⦃rest : List Char⦄ ⦃engine : Engine α⦄ ⦃fuel i : Nat⦄,
    cursor.At source rest → cursor.left = .empty →
    Ready ladder.layout source cursor.offset (i + 1 + 1) engine →
    (engine.climbing.get ladder.node).head? = some i →
    ((∀ fuel, restarts ladder.rules (fuel + 1) primary.parser = .ok true) →
      ladder.Inside source i (byteLength rest) 1 (.call 0) ladder.expression) →
    ladder.scale * byteLength rest + primary.parser.size < fuel →
      Yields (run ladder.rules fuel primary.parser cursor) engine
        (ladder.Parses source cursor.offset (i + 1 + 1) engine
          (primary.reading ladder.expression rest))

namespace Ladder

variable {ladder : Ladder α} {source : Source} {cursor : Cursor α} {rest : List Char}
  {engine : Engine α} {parser : Parser α} {primary : Primary α} {fuel bytes i k : Nat}

/-! ## Rules above the operators -/

/-- A plain parser is run as what it reads. -/
theorem runs_atomic (hatomic : ladder.Atomic primary.parser)
    (hreading : primary.reading ladder.expression = primary.parser.read) :
    primary.Runs ladder := by
  intro source cursor rest engine fuel i hat hleft hready htop _ hfuel
  have hscale := ladder.le_scale_mul (byteLength rest)
  rw [hreading]
  exact yields_atomic hatomic hat hleft hready (by omega)

/-- A group is run as what is in it. -/
theorem runs_nested {reader : Reader α} (hparser : primary.parser = .nested parser)
    (hleads : ladder.Leads parser reader)
    (hreading : primary.reading ladder.expression = reader) : primary.Runs ladder := by
  intro source cursor rest engine fuel i hat hleft hready htop hcall hfuel
  rw [hparser] at hcall hfuel ⊢
  rw [Parser.size] at hfuel
  obtain ⟨fuel, rfl⟩ := Nat.exists_eq_add_of_le' (show 1 ≤ fuel by omega)
  rw [hreading]
  exact hleads hat hleft hready htop (hcall fun _ => rfl) (by omega)

theorem size_le_rule (ladder : Ladder α) (memo : Nat) (name : String) (parser : Parser α) :
    parser.size ≤ (ladder.rule memo name parser).size := by
  rw [rule]
  cases ladder.cached <;> cases ladder.traced
  · exact Nat.le_refl _
  · exact Nat.le_succ _
  · exact Nat.le_succ _
  · exact Nat.le_succ_of_le (Nat.le_succ _)

theorem primary_rung (hproper : ∀ primary ∈ ladder.primaries, primary.Proper)
    (hprimary : ladder.primaries[k]? = some primary) (hruns : primary.Runs ladder)
    (hclimbs : ∀ fewer, fewer < bytes → ladder.Climbs source fewer 0) :
    ladder.Rung source bytes (ladder.levels.length + k) (ladder.primaryRule primary)
      (primary.reading ladder.expression) := by
  intro cursor rest engine fuel hat hbytes hleft hready htop hfuel
  subst hbytes
  have hsize := ladder.size_le_rule primary.memo primary.name primary.parser
  rw [depth] at hfuel
  change _ + 8 * (ladder.rule _ _ _).size + 16 ≤ fuel at hfuel
  refine yields_rule (ladder.scale * byteLength rest + primary.parser.size + 1)
    (mem_slots_primary hprimary) hready hat hleft (by omega) fun {fuel begun} hfuel hbegunReady
      hbegun => ?_
  refine hruns hat hleft hbegunReady (by rw [hbegun.climbing, htop]) (fun hrestarts => ?_) hfuel
  rw [← reads_zero hproper]
  refine inside_call (rungs_primary hprimary) (fun {fuel} hfuel => ?_) hclimbs
  refine restarts_rule hfuel fun {fuel} hfuel => ?_
  obtain ⟨fuel, rfl⟩ := Nat.exists_eq_add_of_le' hfuel
  exact hrestarts fuel

theorem primary_climbs (hproper : ∀ primary ∈ ladder.primaries, primary.Proper)
    (hprimary : ladder.primaries[k]? = some primary) (hruns : primary.Runs ladder)
    (hclimbs : ∀ fewer, fewer < bytes → ladder.Climbs source fewer 0)
    (hnext : ladder.Climbs source bytes (ladder.levels.length + k + 1)) :
    ladder.Climbs source bytes (ladder.levels.length + k) :=
  climbs_of_rung (rungs_primary hprimary) (primary_rung hproper hprimary hruns hclimbs) hnext
    (reads_primary hprimary)

/-! ## All alternatives -/

/-- An alternative matches what it reads if the tighter ones do, and all do further on. -/
theorem climbs_step (hproper : ∀ primary ∈ ladder.primaries, primary.Proper)
    (hruns : ∀ primary ∈ ladder.primaries, primary.Runs ladder)
    (hclimbs : ∀ fewer, fewer < bytes → ∀ i, ladder.Climbs source fewer i)
    (hnext : ladder.Climbs source bytes (i + 1)) : ladder.Climbs source bytes i := by
  cases hlevel : ladder.levels[i]? with
  | some level =>
      cases level with
      | left wrapped operators =>
          exact left_climbs hproper hlevel (fun fewer hfewer => hclimbs fewer hfewer _) hnext
      | right operator signs =>
          exact right_climbs hproper hlevel (fun fewer hfewer => hclimbs fewer hfewer _) hnext
      | prefixed wrapped operators =>
          exact prefixed_climbs hlevel (fun fewer hfewer => hclimbs fewer hfewer _) hnext
  | none =>
      obtain ⟨k, rfl⟩ := Nat.exists_eq_add_of_le (List.getElem?_eq_none_iff.mp hlevel)
      cases hprimary : ladder.primaries[k]? with
      | some primary =>
          exact primary_climbs hproper hprimary (hruns _ (List.mem_of_getElem? hprimary))
            (fun fewer hfewer => hclimbs fewer hfewer 0) hnext
      | none =>
          exact climbs_end (Nat.add_le_add_left (List.getElem?_eq_none_iff.mp hprimary) _)

/-- The alternatives from any one on match what recursive descent reads from there. -/
theorem climbs_all (hproper : ∀ primary ∈ ladder.primaries, primary.Proper)
    (hruns : ∀ primary ∈ ladder.primaries, primary.Runs ladder) (bytes i : Nat) :
    ladder.Climbs source bytes i := by
  induction bytes using Nat.strongRecOn generalizing i with
  | ind bytes ih =>
      rcases Nat.le_total (ladder.levels.length + ladder.primaries.length) i with hle | hle
      · exact climbs_end hle
      · induction hle using Nat.decreasingInduction with
        | self => exact climbs_end (Nat.le_refl _)
        | of_succ i _ hnext => exact climbs_step hproper hruns ih hnext

/-! ## Whole texts -/

/-- Calls are never nested as deep as the bound on their depth. -/
theorem depth_lt_depthBound (ladder : Ladder α) (entry : Parser α) {horizon : Nat}
    (hle : bytes ≤ horizon) :
    ladder.depth bytes 0 + 8 ≤ depthBound ladder.rules entry horizon := by
  have hweight : ladder.weight 0 = 24 * Parser.sizeAll ladder.rungs := by
    rw [weight, List.drop_zero]
  have hrules : ladder.rules.size = Parser.sizeAll ladder.rungs + 1 := by
    simp [rules, Rules.size, Rules.ofBodies, Definition.size, Parser.size]
  generalize Parser.sizeAll ladder.rungs = total at hweight hrules
  have hentry := entry.size_pos
  have hnodes : total + 5 ≤ ladder.rules.size + entry.size + 3 := by omega
  rw [depthBound]
  generalize ladder.rules.size + entry.size + 3 = nodes at hnodes ⊢
  have hfive : 5 ≤ nodes := by omega
  have hsquare : 25 ≤ nodes * nodes := Nat.mul_le_mul hfive hfive
  have hcube : 25 * (total + 5) ≤ nodes * nodes * nodes := Nat.mul_le_mul hsquare hnodes
  calc ladder.depth bytes 0 + 8
      ≤ ladder.scale * bytes + ladder.scale := by
        rw [depth, scale]
        omega
    _ = ladder.scale * (bytes + 1) := (Nat.mul_succ _ _).symm
    _ ≤ nodes * nodes * nodes * (horizon + 1) := by
        refine Nat.mul_le_mul ?_ (Nat.succ_le_succ hle)
        rw [scale]
        omega

/-- A call that nothing goes on around takes all alternatives. -/
theorem yields_outermost (hproper : ∀ primary ∈ ladder.primaries, primary.Proper)
    (hruns : ∀ primary ∈ ladder.primaries, primary.Runs ladder) (hat : cursor.At source rest)
    (hleft : cursor.left = .empty)
    (hready : Ready ladder.layout source cursor.offset 1 engine)
    (htop : engine.climbing.get ladder.node = [])
    (hfuel : ladder.depth (byteLength rest) 0 + 2 ≤ fuel) :
    Yields (run ladder.rules fuel (.call 0) cursor) engine
      (ladder.Parses source cursor.offset 1 engine (ladder.expression rest)) := by
  refine yields_call _ hfuel fun {fuel} hfuel => yields_climbMatch_idle htop ?_
  rw [if_neg (by rw [hleft]; exact Bool.false_ne_true), Cursor.withoutLeft_eq hleft,
    ← reads_zero hproper]
  exact climbs_all hproper hruns _ 0 hat rfl hleft hready hfuel

/-- A run from rest comes to rest again, since a cached grammar empties its cache. -/
theorem yields_entry (hproper : ∀ primary ∈ ladder.primaries, primary.Proper)
    (hruns : ∀ primary ∈ ladder.primaries, primary.Runs ladder) (hrested : engine.Rested)
    (hfuel : ladder.depth (byteLength source.chars) 0 + 3 ≤ fuel) :
    Yields (run ladder.rules fuel ladder.grammar.entry (.start source)) engine
      fun output engine' =>
        Matches source .empty (ladder.expression source.chars) output ∧ engine'.Rested := by
  rw [grammar]
  cases hcached : ladder.cached with
  | false =>
      refine (yields_outermost hproper hruns (.start source) rfl hrested.ready
        (hrested.climbing _) (Nat.le_of_succ_le hfuel)).mono ?_
      rintro output engine' ⟨hmatches, hkept⟩
      refine ⟨hmatches, fun id => ?_, fun id => ?_, fun id => ?_, fun key => ?_⟩
      · rw [hkept.active, hrested.active]
      · rw [hkept.climbing, hrested.climbing]
      · rw [hkept.depth, hrested.depth]
      · rw [hkept.bare hcached, hrested.empty]
  | true =>
      obtain ⟨fuel, rfl⟩ := Nat.exists_eq_add_of_le' (Nat.le_of_add_left_le hfuel)
      refine yields_clearingMatch ((yields_outermost hproper hruns (.start source) rfl
        (hrested.ready.descended 0) (hrested.climbing _) (Nat.le_of_succ_le_succ hfuel)).mono ?_)
      rintro output engine' ⟨hmatches, hkept⟩
      refine ⟨hmatches, ?_⟩
      have hdepth (id : Nat) : (engine'.ascended 0).depth.get id = 0 :=
        (Engine.depth_ascended hkept.depth id).trans (hrested.depth id)
      rw [if_pos (hdepth 0)]
      refine ⟨fun id => ?_, fun id => ?_, hdepth, fun key => ?_⟩
      · exact (hkept.active id).trans (hrested.active id)
      · exact (hkept.climbing id).trans (hrested.climbing id)
      · simp [Engine.entry, Engine.cleared, Cache.clear]

/-- A grammar of operators, cached or not, answers texts as recursive descent does. -/
theorem reads_grammar (hproper : ∀ primary ∈ ladder.primaries, primary.Proper)
    (hruns : ∀ primary ∈ ladder.primaries, primary.Runs ladder) :
    ladder.grammar.Reads ladder.expression := by
  intro source engine hrested
  have hbytes : byteLength source.chars ≤ max engine.horizon source.size := by
    rw [← source.size_eq]
    exact Nat.le_max_right _ _
  have hfuel := ladder.depth_lt_depthBound ladder.grammar.entry hbytes
  refine yields_parseText (yields_parse ?_)
  exact yields_entry hproper hruns (hrested.withHorizon _)
    (Nat.le_trans (Nat.add_le_add_left (by decide) _) hfuel)

end Ladder

end Packrat
