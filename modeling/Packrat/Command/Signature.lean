/-!
# Signatures of commands

A command takes switches, options with a value, and at most one word without a name.  Its
signature lists them, and `Signature.read` reads a list of arguments by it: `--name value`,
`--name=value`, `-n value`, `-nvalue`, `-n=value`, or a bare word.  Behind a bare `--` all
arguments are words.

Values are checked late: an option is settled when the next argument turns out to be something
else than its value.  So of two faults the one that is noticed first is reported, which need not
be the one that stands first.
-/

namespace Packrat.Command

/-- Why arguments are not carried out. -/
inductive UsageError where
  | helpRequested
  /-- There are no arguments, so help is shown instead. -/
  | nothingGiven
  | unknownCommand
  | unknownArgument
  | missingArgument
  /-- A value is absent or not among those allowed. -/
  | invalidValue
  /-- A value stands at a switch. -/
  | unexpectedValue
  /-- An argument is given twice, or two exclude each other. -/
  | conflict
  deriving DecidableEq, Repr

/-- What a named argument does. -/
inductive Role where
  | help
  | switch
  | option (accepts : String → Bool)

/-- An argument that is given by its name or its letter. -/
structure Named where
  name : String
  letter? : Option Char
  role : Role

/-- The argument that is given without a name. -/
structure Word where
  name : String
  accepts : String → Bool
  required : Bool
  /-- Whether the word may look like a name. -/
  hyphens : Bool

structure Signature where
  named : List Named
  word? : Option Word
  /-- Arguments that exclude each other. -/
  exclusive : List (String × String)

/-- The arguments that were given, by name; a switch has the empty value. -/
abbrev Arguments := List (String × String)

namespace Arguments

def value? (arguments : Arguments) (name : String) : Option String := arguments.lookup name

def has (arguments : Arguments) (name : String) : Bool := (arguments.value? name).isSome

end Arguments

/-- An argument that is not settled yet; an option may still wait for its value. -/
structure Pending where
  name : String
  accepts : String → Bool
  value? : Option String

/-- What is known when some of the arguments are read. -/
structure Reading where
  given : Arguments
  pending? : Option Pending
  wordTaken : Bool
  /-- Whether a bare `--` was met. -/
  wordsOnly : Bool

namespace Reading

def start : Reading := ⟨[], none, false, false⟩

/-- Adds an argument, which must not be there yet. -/
def add (reading : Reading) (name value : String) (accepts : String → Bool) :
    Except UsageError Reading :=
  if reading.given.has name then .error .conflict
  else if accepts value then .ok { reading with given := (name, value) :: reading.given }
  else .error .invalidValue

/-- Checks and adds the argument that is not settled yet. -/
def settle (reading : Reading) : Except UsageError Reading :=
  match reading.pending? with
  | none => .ok reading
  | some ⟨_, _, none⟩ => .error .invalidValue
  | some ⟨name, accepts, some value⟩ => { reading with pending? := none }.add name value accepts

/-- Takes a named argument, with the value that is attached to it. -/
def takeNamed (reading : Reading) (argument : Named) (attached? : Option String) :
    Except UsageError Reading := do
  match argument.role, attached? with
  | .help, none =>
      let _ ← reading.settle
      throw .helpRequested
  | .switch, none => (← reading.settle).add argument.name "" fun _ => true
  | .option accepts, some value => (← reading.settle).add argument.name value accepts
  | .option accepts, none =>
      return { ← reading.settle with pending? := some ⟨argument.name, accepts, none⟩ }
  | _, some _ => throw .unexpectedValue

end Reading

namespace Signature

/-- The argument of a given name. -/
def find? (signature : Signature) (name : String) : Option Named :=
  signature.named.find? fun argument => argument.name == name

/-- The argument of a given letter. -/
def findLetter? (signature : Signature) (letter : Char) : Option Named :=
  signature.named.find? fun argument => argument.letter? == some letter

/-- Takes a word as the argument without a name. -/
def takeWord (signature : Signature) (reading : Reading) (text : String) :
    Except UsageError Reading := do
  match signature.word? with
  | some word =>
      if reading.wordTaken then throw .unknownArgument
      return { ← reading.settle with
        pending? := some ⟨word.name, word.accepts, some text⟩
        wordTaken := true }
  | none => throw .unknownArgument

/-- Takes a text as the value of an option that waits for one, or else as a word. -/
def takeValue (signature : Signature) (reading : Reading) (text : String) :
    Except UsageError Reading :=
  match reading.pending? with
  | some ⟨name, accepts, none⟩ =>
      .ok { reading with pending? := some ⟨name, accepts, some text⟩ }
  | _ => signature.takeWord reading text

/-- Whether a word that looks like a name can come now. -/
def admitsHyphens (signature : Signature) (reading : Reading) : Bool :=
  match signature.word? with
  | some word => word.hyphens && !reading.wordTaken
  | none => false

/-- Takes letters that stand together; what follows the letter of an option is its value. -/
def takeLetters (signature : Signature) (reading : Reading) :
    List Char → Except UsageError Reading
  | [] => .ok reading
  | letter :: letters =>
      match signature.findLetter? letter with
      | none => .error .unknownArgument
      | some argument =>
          match argument.role with
          | .option _ =>
              let attached? :=
                match letters with
                | [] => none
                | '=' :: value => some (String.ofList value)
                | value => some (String.ofList value)
              reading.takeNamed argument attached?
          | _ => do takeLetters signature (← reading.takeNamed argument none) letters

/-- Takes the next argument. -/
def take (signature : Signature) (reading : Reading) (text : String) :
    Except UsageError Reading :=
  if reading.wordsOnly then signature.takeWord reading text
  else
    match text.toList with
    | ['-', '-'] => .ok { reading with wordsOnly := true }
    | '-' :: '-' :: long =>
        let (name, value) := long.span (· != '=')
        match signature.find? (String.ofList name) with
        | some argument =>
            reading.takeNamed argument (value.tail?.map String.ofList)
        | none =>
            if signature.admitsHyphens reading then signature.takeValue reading text
            else .error .unknownArgument
    | '-' :: letter :: letters =>
        let letters := letter :: letters
        if signature.admitsHyphens reading
            && letters.any fun letter => (signature.findLetter? letter).isNone then
          signature.takeValue reading text
        else
          signature.takeLetters reading letters
    | _ => signature.takeValue reading text

/-- Reads a whole list of arguments. -/
def read (signature : Signature) (texts : List String) : Except UsageError Arguments := do
  let reading ← texts.foldlM signature.take .start
  let arguments := (← reading.settle).given
  if signature.exclusive.any fun (name, other) => arguments.has name && arguments.has other then
    throw .conflict
  if signature.word?.any fun word => word.required && !arguments.has word.name then
    throw .missingArgument
  return arguments

end Signature

end Packrat.Command
