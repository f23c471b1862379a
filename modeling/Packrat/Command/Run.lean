import Packrat.Command.Basic
import Packrat.Command.Folder
import Packrat.Diagram

/-!
# Running commands

A run of the program is a function of its arguments and of the bytes that it reads.
-/

namespace Packrat

/-- Where the bytes of a document come from. -/
inductive Origin where
  | file (path : String)
  | standardInput
  deriving DecidableEq, Repr

/-- The origin that a path names; a bare minus is standard input. -/
def Origin.ofPath : Option String → Origin
  | none | some "-" => .standardInput
  | some path => .file path

/-- The name of an origin in messages. -/
def Origin.name : Origin → String
  | .file path => "'" ++ path ++ "'"
  | .standardInput => "stdin"

/-- The name of an origin in diagrams. -/
def Origin.label : Origin → String
  | .file path => path
  | .standardInput => "<stdin>"

/-- What a run writes, and the code that it ends with. -/
structure Outcome where
  exit : Nat
  output : String
  errors : String
  deriving DecidableEq, Repr

namespace Outcome

/-- A run that succeeds. -/
def success (output : String) : Outcome := ⟨0, output, ""⟩

/-- A run that ends with a message, after some output. -/
def failure (output message : String) : Outcome := ⟨1, output, message ++ "\n"⟩

/-- A run that ends with the diagram of a failed parse, after some output. -/
def unparsed (output text : String) (path? : Option String) (colored : Bool)
    (cause : Failure String) : Outcome :=
  failure output ((Report.mk text cause).render path? colored)

/-- A run that was broken off. -/
def broken (stop : Stop) : Outcome := ⟨101, "", stop.message ++ "\n"⟩

end Outcome

namespace Command

/-- What is to be read before a command can run. -/
def origin? : Command → Option Origin
  | .reprint _ path? none _ _ => some (.ofPath path?)
  | _ => none

/-- The text of a document, with the name that diagrams give it. -/
def load (fetch : Origin → Except ReadError ByteArray) (origin : Origin) :
    Except String (String × Option String) :=
  let text : Except ReadError String := do
    let bytes ← fetch origin
    match String.fromUTF8? bytes with
    | some text => return text
    | none => throw .notUtf8
  match text with
  | .ok text => .ok (text, some origin.label)
  | .error cause => .error ("error: failed to read " ++ origin.name ++ ": " ++ cause.message)

def runEvaluate (language : Language) (text : String) (statistics colored : Bool) : Outcome :=
  match language.observe false text with
  | .error stop => .broken stop
  | .ok observation =>
      match observation.result with
      | .error cause => .unparsed "" text none colored cause
      | .ok shown =>
          let counts := if statistics then observation.statistics (.ofBool colored) ++ "\n" else ""
          .success (shown ++ "\n" ++ counts)

def runReprint (document : Document) (text : String) (path? : Option String)
    (compact colored : Bool) : Outcome :=
  match document.reprint (if compact then .compact else .pretty) text with
  | .error stop => .broken stop
  | .ok (.error cause) => .unparsed "" text path? colored cause
  | .ok (.ok written) => .success (written ++ "\n")

def runTrace (language : Language) (text : String) (colored : Bool) : Outcome :=
  match language.observe true text with
  | .error stop => .broken stop
  | .ok observation =>
      let palette := Palette.ofBool colored
      let seen := observation.trace.callTree palette ++ observation.statistics palette ++ "\n"
      match observation.result with
      | .error cause => .unparsed seen text none colored cause
      | .ok shown => .success (seen ++ shown ++ "\n")

/-- Carries out a command; `fetch` reads what it asks for. -/
def run (command : Command) (onTerminal : Bool) (fetch : Origin → Except ReadError ByteArray) :
    Outcome :=
  match command with
  | .evaluate language text statistics color =>
      runEvaluate language text statistics (color.isColored onTerminal)
  | .trace language text color => runTrace language text (color.isColored onTerminal)
  | .reprint document path? text? compact color =>
      let loaded : Except String (String × Option String) :=
        match text? with
        | some text => .ok (text, none)
        | none => load fetch (.ofPath path?)
      match loaded with
      | .ok (text, path?) => runReprint document text path? compact (color.isColored onTerminal)
      | .error message => .failure "" message

/-! ## Whole runs -/

/-- The text that explains the arguments. -/
def usage : String :=
  String.join
    [ "Usage: packrat <command>\n\n",
      "  calc <formula> [--stats] [--color auto|always|never]\n",
      "  expr <formula> [--stats] [--color auto|always|never]\n",
      "  json [<path> | --text <text>] [--compact] [--color auto|always|never]\n",
      "  csv [<path> | --text <text>] [--compact] [--color auto|always|never]\n",
      "  trace <formula> [--grammar calc|expr] [--color auto|always|never]\n",
      "  help [<command>]\n" ]

/-- The text that reports why arguments are refused. -/
def UsageError.message : UsageError → String
  | .helpRequested | .nothingGiven => usage
  | .unknownCommand => "error: there is no such command\n\n" ++ usage
  | .unknownArgument => "error: an argument is not known here\n\n" ++ usage
  | .missingArgument => "error: an argument is missing\n\n" ++ usage
  | .invalidValue => "error: the value of an argument is missing or not allowed\n\n" ++ usage
  | .unexpectedValue => "error: a switch has a value\n\n" ++ usage
  | .conflict => "error: arguments exclude each other\n\n" ++ usage

/-- The code that a run ends with when its arguments are not carried out. -/
def UsageError.exit : UsageError → Nat
  | .helpRequested => 0
  | _ => 2

/-- A run whose arguments are not carried out. -/
def UsageError.outcome (cause : UsageError) : Outcome :=
  if cause = .helpRequested then ⟨cause.exit, cause.message, ""⟩
  else ⟨cause.exit, "", cause.message⟩

/-- A whole run of the program. -/
def execute (arguments : List String) (onTerminal : Bool)
    (fetch : Origin → Except ReadError ByteArray) : Outcome :=
  match ofArguments arguments with
  | .ok command => command.run onTerminal fetch
  | .error cause => cause.outcome

end Command

end Packrat
