import Packrat.Engine.Run
import Packrat.NodeId
import Packrat.Workbench.Description

/-!
# Assembling parsers

The workbench keeps rules, shared parsers and caches under names, and makes parsers from
descriptions.  Rules, shared parsers and parts that are made at their first use all live in
numbered slots, which are the rules that the engine sees.

A slot lasts as long as something holds it: a name, or a parser in another slot.  A part that is
made at its first use gets its names looked up then; the run that comes to it stops, the part is
made, and the run starts over from the state in which it began.
-/

namespace Packrat.Workbench

/-! ## State -/

/-- What a slot contains. -/
inductive Content where
  | undefined
  | parser (parser : Parser Value)
  /-- A part that is made at its first use. -/
  | deferred (counter : String) (description : Description)
  /-- Nothing holds the slot any more. -/
  | released

/-- A numbered place for a parser, with the slots that the parser keeps alive. -/
structure Slot where
  content : Content
  holds : List Nat

/-- Numbers by name, the latest first. -/
abbrev Names := List (String × Nat)

/-- All that outlives a single step on the workbench. -/
structure Bench where
  slots : Array Slot
  rules : Names
  shared : Names
  caches : Names
  /-- How many parts were made at their first use, by counter. -/
  made : Names
  nodes : NodeSupply
  engine : Engine Value

namespace Bench

def empty : Bench := ⟨#[], [], [], [], [], .start, .fresh⟩

instance : Inhabited Bench := ⟨empty⟩

/-- The rules that the engine sees. -/
def table (bench : Bench) : Rules Value :=
  ⟨bench.slots.map fun slot =>
    match slot.content with
    | .parser parser => .body parser
    | .deferred _ _ => .pending
    | .undefined | .released => .missing⟩

/-- How many parts can still be made at their first use. -/
def deferrals (bench : Bench) : Nat :=
  bench.slots.toList.foldr (fun slot parts => count slot.content + parts) 0
where
  count : Content → Nat
    | .deferred _ description => description.deferrals + 1
    | _ => 0

end Bench

/-! ## Making parsers -/

/-- A step of making a parser; it collects the slots that the parser will hold. -/
abbrev AssemblyM := StateT (List Nat) (StateM Bench)

namespace Assembly

def freshNode : AssemblyM Nat := do
  let bench ← getThe Bench
  let (node, nodes) := bench.nodes.fresh
  set { bench with nodes }
  return node

/-- A tag that no operand has had. -/
def freshTag : AssemblyM Nat := do
  let bench ← getThe Bench
  let tag := bench.engine.nextTag
  set { bench with engine := { bench.engine with nextTag := tag + 1 } }
  return tag

def freshSlot (content : Content) : AssemblyM Nat := do
  let bench ← getThe Bench
  set { bench with slots := bench.slots.push ⟨content, []⟩ }
  return bench.slots.size

def hold (slot : Nat) : AssemblyM Unit := modifyThe (List Nat) (slot :: ·)

/-- The slot of a rule, which is declared if there is none of that name. -/
def declare (rule : String) : AssemblyM Nat := do
  match (← getThe Bench).rules.lookup rule with
  | some slot => return slot
  | none =>
      let slot ← freshSlot .undefined
      modifyThe Bench fun bench => { bench with rules := (rule, slot) :: bench.rules }
      return slot

/-- The number of a cache, which is opened if there is none of that name. -/
def openCache (cache : String) : AssemblyM Nat := do
  let bench ← getThe Bench
  match bench.caches.lookup cache with
  | some number => return number
  | none =>
      let number := bench.caches.length
      set { bench with caches := (cache, number) :: bench.caches }
      return number

/-- The items of a list, as the tail of a joined list has them. -/
def listItems : Value → List Value
  | .list items => items
  | _ => []

def optionalValue : Option Value → Value
  | some value => .just value
  | none => .nothing

mutual

/-- Makes a parser; every mention of a description makes a new instance. -/
def build : Description → AssemblyM (Parser Value)
  | .char chars => return .satisfy chars.accepts .char
  | .literal text => return .literal text.toList (.text text)
  | .token text => return .token .unit text (.text text)
  | .endOfInput => return .endOfInput .unit
  | .except description excluded => do
      let excluded ← buildAll excluded
      return .except (← build description) excluded
  | .firstOf alternatives => return .firstOf (← buildAll alternatives)
  | .longest alternatives => do
      let parsers ← buildAll alternatives
      return .longest (← freshNode) parsers
  | .precedence alternatives => do
      let parsers ← buildAll alternatives
      return .climb (← freshNode) parsers
  | .sequence kept parts => do
      match ← buildAll parts with
      | [] => return .never
      | first :: rest => return .inOrder (← freshNode) first rest kept.combine
  | .fold transform parts => do
      match ← buildAll parts with
      | [] => return .never
      | first :: rest =>
          return .foldedLeft (← freshNode) first rest.dropLast (rest.getLastD .never)
            fun payloads => transform.apply (.tuple payloads)
  | .repeated description atLeast atMost =>
      return .repeated (← build description) atLeast atMost .list
  | .joined item separator => do
      let item ← build item
      let separator ← build separator
      let tailNode ← freshNode
      let itemsNode ← freshNode
      return .joined tailNode itemsNode .list listItems item separator
  | .optional description => return .optional (← build description) optionalValue
  | .characters description atLeast atMost =>
      return .repeated (← build description) atLeast atMost fun payloads =>
        .text (Value.list payloads).flatten
  | .transformed transform description => return (← build description).map transform.apply
  | .nested description => return .nested (← build description)
  | .guarded description => do
      let parser ← build description
      return .guarded (← freshNode) parser
  | .deferred counter description => do
      let slot ← freshSlot (.deferred counter description)
      hold slot
      return .call slot
  | .reference rule => return .call (← declare rule)
  | .rule rule => do
      let slot ← declare rule
      hold slot
      return .call slot
  | .shared name => do
      match (← getThe Bench).shared.lookup name with
      | some slot =>
          hold slot
          return .call slot
      | none => return .never
  | .cached cache description => do
      let parser ← build description
      return .memo (← freshNode) (← openCache cache) parser
  | .clearing cache description => do
      let parser ← build description
      return .clearing (← freshNode) (← openCache cache) parser
  | .logged name description => return .logged name (← build description)
  | .skipBytes bytes => return .skipBytes bytes .unit
  | .withLeft left description => do
      let tag ← freshTag
      return .withLeft (left.tagged tag) (← build description)

def buildAll : List Description → AssemblyM (List (Parser Value))
  | [] => return []
  | description :: descriptions => do
      let parser ← build description
      return parser :: (← buildAll descriptions)

end

end Assembly

namespace Bench

/-- Makes a parser that is not kept. -/
def assemble (description : Description) (bench : Bench) : Parser Value × Bench :=
  let ((parser, _), bench) := ((Assembly.build description).run []).run bench
  (parser, bench)

/-- Makes a parser for a slot. -/
def assembleSlot (description : Description) (bench : Bench) : Slot × Bench :=
  let ((parser, holds), bench) := ((Assembly.build description).run []).run bench
  (⟨.parser parser, holds⟩, bench)

/-- Counts one more part that was made, under its counter. -/
def countMade (counter : String) : Names → Names
  | [] => [(counter, 1)]
  | (other, count) :: made =>
      if other = counter then (other, count + 1) :: made
      else (other, count) :: countMade counter made

/-- Makes the part that a slot has put off. -/
def force (number : Nat) (bench : Bench) : Bench :=
  match bench.slots[number]? with
  | some ⟨.deferred counter description, _⟩ =>
      let (slot, bench) := bench.assembleSlot description
      { bench with
        slots := bench.slots.setIfInBounds number slot
        made := countMade counter bench.made }
  | _ => bench

/-! ## Rules and shared parsers -/

/-- The slots that names hold. -/
def named (bench : Bench) : List Nat := (bench.rules ++ bench.shared).map Prod.snd

/-- Of the given slots, those that a name or one of the given slots holds. -/
def held (bench : Bench) (alive : List Nat) : List Nat :=
  let holders := alive.filterMap fun number => bench.slots[number]?
  let kept := bench.named ++ holders.flatMap Slot.holds
  alive.filter fun number => kept.contains number

/-- The slots that are left when releasing slots has come to an end. -/
def settled (bench : Bench) : Nat → List Nat → List Nat
  | 0, alive => alive
  | fuel + 1, alive => bench.settled fuel (bench.held alive)

/-- Releases every slot that nothing holds any more. -/
def prune (bench : Bench) : Bench :=
  let alive := bench.settled bench.slots.size (List.range bench.slots.size)
  { bench with
    slots := bench.slots.mapIdx fun number slot =>
      if alive.contains number then slot else ⟨.released, []⟩ }

/-- Declares a rule, unless there is one of that name. -/
def declare (rule : String) (bench : Bench) : Bench :=
  (((Assembly.declare rule).run []).run bench).2

/-- Gives a rule its body; it is a fault to do so twice. -/
def define (rule : String) (description : Description) (bench : Bench) : Except Fault Bench :=
  let ((number, _), bench) := ((Assembly.declare rule).run []).run bench
  let (slot, bench) := bench.assembleSlot description
  match bench.slots[number]? with
  | some ⟨.undefined, _⟩ => .ok { bench with slots := bench.slots.setIfInBounds number slot }
  | _ => .error .redefined

def isDefined (rule : String) (bench : Bench) : Bool :=
  match bench.rules.lookup rule with
  | some number =>
      match bench.slots[number]? with
      | some ⟨.parser _, _⟩ => true
      | _ => false
  | none => false

/-- Makes a parser and shares it under a name, in place of any other of that name. -/
def share (name : String) (description : Description) (bench : Bench) : Bench :=
  let (slot, bench) := bench.assembleSlot description
  let number := bench.slots.size
  prune { bench with
    slots := bench.slots.push slot
    shared := (name, number) :: bench.shared.filter fun entry => entry.1 != name }

/-- Forgets a rule; its slot lasts while parsers hold it. -/
def drop (rule : String) (bench : Bench) : Bool × Bench :=
  match bench.rules.lookup rule with
  | some _ =>
      (true, prune { bench with rules := bench.rules.filter fun entry => entry.1 != rule })
  | none => (false, bench)

/-! ## Running -/

/--
Runs an action of the engine.  Whenever it comes to a part that is not made yet, the part is made
and the action starts over.
-/
def execute {β : Type} (action : Rules Value → EngineM Value β) :
    Nat → Bench → Except Stop (β × Bench)
  | 0, _ => .error .tooDeep
  | fuel + 1, bench =>
      match (action bench.table).run bench.engine with
      | .ok (result, engine) => .ok (result, { bench with engine })
      | .error (.pending number) => execute action fuel (bench.force number)
      | .error stop => .error stop

/-- Runs an action of the engine, making parts as they are needed. -/
def run {β : Type} (action : Rules Value → EngineM Value β) (bench : Bench) :
    Except Stop (β × Bench) :=
  execute action (bench.deferrals + 1) bench

end Bench

end Packrat.Workbench
