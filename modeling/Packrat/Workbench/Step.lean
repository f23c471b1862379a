import Packrat.Workbench.Assembly

/-!
# Steps on the workbench

A session sets up shared parsers and rules, and then takes one step after another.  A fault among
the steps ends it; a fault in setting up leaves nothing to take steps on.
-/

namespace Packrat.Workbench

/-- What a step asks for. -/
inductive Step where
  /-- Parse a whole text. -/
  | parseText (parser : Description) (text : String)
  /-- Parse from an offset with a left context. -/
  | parseAt (parser : Description) (text : String) (offset : Nat) (left : LeftContent Value)
  /-- Ask whether precedence starts over inside a parser. -/
  | restarts (parser : Description)
  | define (rule : String) (description : Description)
  | share (name : String) (description : Description)
  | drop (rule : String)
  | isDefined (rule : String)
  | statistics
  | clearCache (cache : String)
  | resetCounts (cache : String)
  /-- Ask how many parts were made at their first use. -/
  | made
  | callTree (palette : Palette)
  | events
  | invocations
  | clearTrace

/-- The state of a cache as a report shows it. -/
structure CacheRow where
  cache : String
  hits : Nat
  misses : Nat
  size : Nat

/-- What a step answers. -/
inductive Answer where
  | parsed (text : String) (result : Except (Failure Value) Value)
  | matched (result : Option (Output Value))
  | restarts (restarts : Bool)
  | defined
  | shared
  | flag (flag : Bool)
  | statistics (rows : List CacheRow)
  | made (counts : List (String × Nat))
  | callTree (tree : String)
  | events (trace : Trace)
  | invocations (rows : List Trace.Row)

namespace Bench

/-- The caches in the order of their names. -/
def statistics (bench : Bench) : List CacheRow :=
  (bench.caches.mergeSort fun entry other => entry.1 ≤ other.1).map fun (cache, number) =>
    let contents := bench.engine.caches.get number
    ⟨cache, contents.hits, contents.misses, contents.size⟩

/-- Changes one cache, opening it if there is none of that name. -/
def updateCache (cache : String) (f : Cache Value → Cache Value) (bench : Bench) : Bench :=
  let ((number, _), bench) := ((Assembly.openCache cache).run []).run bench
  { bench with engine := { bench.engine with caches := bench.engine.caches.update number f } }

/-- Runs a parser made for this step from an offset of a text. -/
def parseAt (description : Description) (text : String) (offset : Nat) (left : LeftContent Value)
    (bench : Bench) : Except Stop (Option (Output Value) × Bench) := do
  let (parser, bench) := bench.assemble description
  bench.run fun rules => parser.parseAt rules (.ofString text) offset left

/-- Takes one step. -/
def perform (step : Step) (bench : Bench) : Except Stop (Answer × Bench) :=
  match step with
  | .parseText description text => do
      let (parser, bench) := bench.assemble description
      let (result, bench) ← bench.run fun rules => parser.parseText rules (.ofString text)
      return (.parsed text result, bench)
  | .parseAt description text offset left => do
      let (result, bench) ← bench.parseAt description text offset left
      return (.matched result, bench)
  | .restarts description => do
      let (parser, bench) := bench.assemble description
      let (restarts, bench) ← bench.run fun rules =>
        StateT.lift (Engine.restarts rules (rules.size + parser.size + 1) parser)
      return (.restarts restarts, bench)
  | .define rule description =>
      match bench.define rule description with
      | .ok bench => .ok (.defined, bench)
      | .error fault => .error (.fault fault)
  | .share name description => .ok (.shared, bench.share name description)
  | .drop rule =>
      let (existed, bench) := bench.drop rule
      .ok (.flag existed, bench)
  | .isDefined rule => .ok (.flag (bench.isDefined rule), bench)
  | .statistics => .ok (.statistics bench.statistics, bench)
  | .clearCache cache =>
      let bench := bench.updateCache cache .clear
      .ok (.statistics bench.statistics, bench)
  | .resetCounts cache =>
      let bench := bench.updateCache cache .resetCounts
      .ok (.statistics bench.statistics, bench)
  | .made => .ok (.made bench.made, bench)
  | .callTree palette => .ok (.callTree (bench.engine.trace.callTree palette), bench)
  | .events => .ok (.events bench.engine.trace, bench)
  | .invocations => .ok (.invocations bench.engine.trace.rows, bench)
  | .clearTrace =>
      .ok (.flag true, { bench with engine := { bench.engine with trace := #[] } })

/-- Takes steps in order; a fault ends the list of answers. -/
def performAll : List Step → Bench → List Answer × Option Stop
  | [], _ => ([], none)
  | step :: steps, bench =>
      match bench.perform step with
      | .error stop => ([], some stop)
      | .ok (answer, bench) =>
          let (answers, stop?) := performAll steps bench
          (answer :: answers, stop?)

/-- Declares all rules, makes the shared parsers in order, and gives each rule its body. -/
def setUp (shared rules : List (String × Description)) : Except Fault Bench :=
  let declared := rules.foldl (fun bench (rule, _) => bench.declare rule) empty
  let stocked := shared.foldl (fun bench (name, description) => bench.share name description)
    declared
  rules.foldlM (fun bench (rule, description) => bench.define rule description) stocked

end Bench

/-- Sets up a workbench and takes steps on it. -/
def session (shared rules : List (String × Description)) (steps : List Step) :
    Except Fault (List Answer × Option Stop) :=
  (Bench.setUp shared rules).map (Bench.performAll steps)

/-- The text that shows whether precedence starts over inside a parser. -/
def describeRestarts (restarts : Bool) : String :=
  "BoxedParser \x7b resets_precedence: " ++ toString restarts ++ ", .. \x7d"

end Packrat.Workbench
