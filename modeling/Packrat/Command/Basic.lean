import Packrat.Command.Signature
import Packrat.Language

/-!
# Commands

The commands of the program, and how they are read from its arguments.
-/

namespace Packrat

/-- When to color the output. -/
inductive ColorChoice where
  /-- Only on a terminal. -/
  | auto
  | always
  | never
  deriving DecidableEq, Repr

def ColorChoice.isColored (choice : ColorChoice) (onTerminal : Bool) : Bool :=
  match choice with
  | .auto => onTerminal
  | .always => true
  | .never => false

/-- What the program is asked to do. -/
inductive Command where
  /-- Show the result of a formula. -/
  | evaluate (language : Language) (text : String) (statistics : Bool) (color : ColorChoice)
  /-- Write a document as JSON; without a path and a text it is read from standard input. -/
  | reprint (document : Document) (path? text? : Option String) (compact : Bool)
      (color : ColorChoice)
  /-- Show all rules that are run while a formula is parsed. -/
  | trace (language : Language) (text : String) (color : ColorChoice)
  deriving DecidableEq, Repr

namespace Command

/-! ## Signatures -/

def helpArgument : Named := ⟨"help", some 'h', .help⟩

def colorArgument : Named := ⟨"color", none, .option ["auto", "always", "never"].contains⟩

/-- The formula, which may begin with a minus. -/
def formulaWord : Word := ⟨"formula", fun _ => true, true, true⟩

def evaluateSignature : Signature where
  named := [helpArgument, ⟨"stats", none, .switch⟩, colorArgument]
  word? := some formulaWord
  exclusive := []

def reprintSignature : Signature where
  named :=
    [ helpArgument,
      ⟨"text", some 't', .option fun _ => true⟩,
      ⟨"compact", none, .switch⟩,
      colorArgument ]
  word? := some ⟨"path", (· != ""), false, false⟩
  exclusive := [("path", "text")]

def traceSignature : Signature where
  named := [helpArgument, ⟨"grammar", none, .option ["calc", "expr"].contains⟩, colorArgument]
  word? := some formulaWord
  exclusive := []

/-- What stands in front of the name of a command. -/
def outerSignature : Signature := ⟨[helpArgument], none, []⟩

/-! ## Reading -/

def color (arguments : Arguments) : ColorChoice :=
  match arguments.value? "color" with
  | some "always" => .always
  | some "never" => .never
  | _ => .auto

def formula (arguments : Arguments) : String := (arguments.value? "formula").getD ""

def readEvaluate (language : Language) (texts : List String) : Except UsageError Command := do
  let arguments ← evaluateSignature.read texts
  return .evaluate language (formula arguments) (arguments.has "stats") (color arguments)

def readReprint (document : Document) (texts : List String) : Except UsageError Command := do
  let arguments ← reprintSignature.read texts
  return .reprint document (arguments.value? "path") (arguments.value? "text")
    (arguments.has "compact") (color arguments)

def readTrace (texts : List String) : Except UsageError Command := do
  let arguments ← traceSignature.read texts
  let language :=
    match arguments.value? "grammar" with
    | some "expr" => .expressions
    | _ => .arithmetic
  return .trace language (formula arguments) (color arguments)

/-- The commands by name, each with what reads its arguments. -/
def readers : List (String × (List String → Except UsageError Command)) :=
  [ ("calc", readEvaluate .arithmetic),
    ("expr", readEvaluate .expressions),
    ("json", readReprint .json),
    ("csv", readReprint .csv),
    ("trace", readTrace) ]

/-- The names that can stand in the place of a command. -/
def names : List String := "help" :: readers.map Prod.fst

/-- Why help is shown or refused; no command has commands of its own. -/
def helpOn : List String → UsageError
  | [] => .helpRequested
  | [name] => if names.contains name then .helpRequested else .unknownCommand
  | _ => .unknownCommand

/-- Whether a text is the name of an argument rather than a word. -/
def looksNamed (text : String) : Bool :=
  match text.toList with
  | '-' :: _ :: _ => true
  | _ => false

/-- Reads arguments up to the name of a command, and the rest as that command asks. -/
def readFrom (reading : Reading) : List String → Except UsageError Command
  | [] => .error .nothingGiven
  | text :: texts =>
      if reading.wordsOnly then
        .error (if names.contains text then .unknownArgument else .unknownCommand)
      else if text = "help" then .error (helpOn texts)
      else
        match readers.lookup text with
        | some reader => reader texts
        | none =>
            if looksNamed text then do
              readFrom (← outerSignature.take reading text) texts
            else .error .unknownCommand

/-- The command that the arguments of the program ask for. -/
def ofArguments (texts : List String) : Except UsageError Command := readFrom .start texts

end Command

end Packrat
