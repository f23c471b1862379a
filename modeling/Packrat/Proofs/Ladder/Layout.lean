import Packrat.Proofs.Ladder.Basic

/-!
# The layout of a ladder

The guards and rules of a level have the rank of the level; guards around whole expressions rank
below all levels.  A rule is stored with what it reads while all looser levels wait for it.
-/

namespace Packrat.Ladder

variable {α : Type} {ladder : Ladder α}

/-! ## What the rules read -/

/--
What an operator of a left-associative level reads in a cached grammar: a chain that begins with
it, unless a later operator of the level fits as well.
-/
def lastValue (operators : List (Infix α)) (next : Reader α) (operator : Infix α)
    (later : List (Infix α)) : Reader α := fun rest =>
  (next rest).bind fun (x, rest) =>
    if (Reader.fitting (later.map (·.binary)) next rest).isEmpty then
      Reader.chain (operators.map (·.binary)) next operator.binary x rest
    else none

/-- What the operator of a right-associative level reads. -/
def powerValue (operator : Infix α) (signs : List (Sign α)) (next same : Reader α) : Reader α :=
  fun rest => (next rest).bind fun (x, rest) =>
    operator.binary.after (Reader.signed (signs.map (·.unary)) same same) x rest

def leftSlots (rank : Nat) (operators : List (Infix α)) (next : Reader α) :
    List (Infix α) → List (Slot α)
  | [] => []
  | operator :: later =>
      ⟨operator.memo, rank, lastValue operators next operator later⟩ ::
        leftSlots rank operators next later

/-- The rules of the level at an index. -/
def levelSlots (ladder : Ladder α) (i : Nat) : Level α → List (Slot α)
  | .left _ operators => leftSlots (i + 1) operators (ladder.reads (i + 1)) operators
  | .right operator signs =>
      [⟨operator.memo, i + 1, powerValue operator signs (ladder.reads (i + 1)) (ladder.reads i)⟩]
  | .prefixed _ operators =>
      operators.map fun operator =>
        ⟨operator.memo, i + 1, operator.toSign.unary.before (ladder.reads i)⟩

/-- The rule above the operators at an index. -/
def primarySlot (ladder : Ladder α) (k : Nat) (primary : Primary α) : Slot α :=
  ⟨primary.memo, ladder.levels.length + k + 1, primary.reading ladder.expression⟩

def slots (ladder : Ladder α) : List (Slot α) :=
  ladder.levels.zipIdx.flatMap (fun (level, i) => ladder.levelSlots i level) ++
    ladder.primaries.zipIdx.map fun (primary, k) => ladder.primarySlot k primary

def guardRanks (ladder : Ladder α) : List (Nat × Nat) :=
  ladder.levels.zipIdx.flatMap (fun (level, i) => level.guards.map (·, i + 1)) ++
    ladder.around.map (·, 0)

theorem leftSlots_memo (rank : Nat) (operators : List (Infix α)) (next : Reader α)
    (later : List (Infix α)) :
    (leftSlots rank operators next later).map Slot.memo = later.map (·.memo) := by
  induction later with
  | nil => rfl
  | cons operator later ih => rw [leftSlots, List.map_cons, List.map_cons, ih]

theorem levelSlots_memo (i : Nat) (level : Level α) :
    (ladder.levelSlots i level).map Slot.memo = level.memos := by
  cases level with
  | left wrapped operators => exact leftSlots_memo _ _ _ _
  | right operator signs => rfl
  | prefixed wrapped operators => simp [levelSlots, Level.memos]

/-- Indices do not matter where they are dropped again. -/
theorem flatMap_zipIdx {ι κ : Type} (items : List ι) (f : ι → List κ) :
    items.zipIdx.flatMap (fun pair => f pair.1) = items.flatMap f := by
  rw [← List.flatMap_map, List.zipIdx_map_fst]

theorem slots_memo :
    ladder.slots.map Slot.memo =
      ladder.levels.flatMap Level.memos ++ ladder.primaries.map (·.memo) := by
  rw [slots, List.map_append, List.map_flatMap, List.map_map,
    ← flatMap_zipIdx ladder.levels Level.memos]
  congr 1
  · simp only [levelSlots_memo]
  · rw [← List.zipIdx_map_fst 0 ladder.primaries, List.map_map, List.zipIdx_map_fst]
    rfl

theorem guardRanks_fst :
    ladder.guardRanks.map Prod.fst = ladder.levels.flatMap Level.guards ++ ladder.around := by
  rw [guardRanks, List.map_append, List.map_flatMap, List.map_map,
    ← flatMap_zipIdx ladder.levels Level.guards]
  congr 1
  · simp only [List.map_map, Function.comp_def, List.map_id']
  · simp only [Function.comp_def, List.map_id']

def layout (ladder : Ladder α) : Layout α where
  node := ladder.node
  cached := ladder.cached
  guards := ladder.guardRanks
  slots := ladder.slots
  guards_nodup := by
    rw [guardRanks_fst]
    exact ladder.guards_nodup
  slots_nodup := by
    rw [slots_memo]
    exact ladder.memos_nodup

/-! ## Members of the layout -/

theorem mem_guards {i id : Nat} {level : Level α} (hlevel : ladder.levels[i]? = some level)
    (hid : id ∈ level.guards) : (id, i + 1) ∈ ladder.layout.guards := by
  refine List.mem_append_left _ (List.mem_flatMap.mpr ⟨(level, i), ?_, ?_⟩)
  · exact List.mem_zipIdx_iff_getElem?.mpr hlevel
  · exact List.mem_map_of_mem hid

theorem mem_guards_around {id : Nat} (hid : id ∈ ladder.around) :
    (id, 0) ∈ ladder.layout.guards :=
  List.mem_append_right _ (List.mem_map_of_mem hid)

theorem mem_slots {i : Nat} {level : Level α} {slot : Slot α}
    (hlevel : ladder.levels[i]? = some level) (hslot : slot ∈ ladder.levelSlots i level) :
    slot ∈ ladder.layout.slots :=
  List.mem_append_left _
    (List.mem_flatMap.mpr ⟨(level, i), List.mem_zipIdx_iff_getElem?.mpr hlevel, hslot⟩)

theorem mem_slots_primary {k : Nat} {primary : Primary α}
    (hprimary : ladder.primaries[k]? = some primary) :
    ladder.primarySlot k primary ∈ ladder.layout.slots :=
  List.mem_append_right _
    (List.mem_map.mpr ⟨(primary, k), List.mem_zipIdx_iff_getElem?.mpr hprimary, rfl⟩)

theorem mem_leftSlots (rank : Nat) (operators : List (Infix α)) (next : Reader α)
    (earlier : List (Infix α)) (operator : Infix α) (later : List (Infix α)) :
    (⟨operator.memo, rank, lastValue operators next operator later⟩ : Slot α) ∈
      leftSlots rank operators next (earlier ++ operator :: later) := by
  induction earlier with
  | nil => exact List.mem_cons_self
  | cons other earlier ih => exact List.mem_cons_of_mem _ ih

end Packrat.Ladder
