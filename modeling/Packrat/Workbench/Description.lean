import Packrat.Cursor
import Packrat.Text.Classes
import Packrat.Workbench.Value

/-!
# Descriptions of parsers

A description says how to make a parser out of characters, other descriptions, and the names of
rules, shared parsers and caches.  Making a parser from it twice gives two instances.
-/

namespace Packrat.Workbench

/-- A set of characters. -/
inductive CharClass where
  | one (c : Char)
  | range (first last : Char)
  | among (chars : List Char)
  | notAmong (chars : List Char)
  | any
  | blank
  deriving Repr

def CharClass.accepts : CharClass → Char → Bool
  | one c, d => d == c
  | range first last, d => first ≤ d && d ≤ last
  | among chars, d => chars.contains d
  | notAmong chars, d => !chars.contains d
  | any, _ => true
  | blank, d => Text.isBlank d

/-- Which payloads of a sequence are kept. -/
inductive Kept where
  | all
  | transformed (transform : Transform)
  | butFirst
  | butLast
  | middle
  deriving Repr

/-- The payload of a sequence from those of its parts; a single one stands for itself. -/
def Kept.combine : Kept → List Value → Value
  | all, payloads => .tuple payloads
  | transformed transform, payloads => transform.apply (.tuple payloads)
  | butFirst, payloads => alone payloads.tail
  | butLast, payloads => alone payloads.dropLast
  | middle, payloads => payloads.getD 1 .unit
where
  alone : List Value → Value
    | [payload] => payload
    | payloads => .tuple payloads

/-- How to make a parser. -/
inductive Description where
  | char (chars : CharClass)
  | literal (text : String)
  | token (text : String)
  | endOfInput
  | except (description : Description) (excluded : List Description)
  | firstOf (alternatives : List Description)
  | longest (alternatives : List Description)
  | precedence (alternatives : List Description)
  | sequence (kept : Kept) (parts : List Description)
  | fold (transform : Transform) (parts : List Description)
  | repeated (description : Description) (atLeast : Nat) (atMost : Option Nat)
  | joined (item separator : Description)
  | optional (description : Description)
  /-- A repetition whose payload is one text. -/
  | characters (description : Description) (atLeast : Nat) (atMost : Option Nat)
  | transformed (transform : Transform) (description : Description)
  | nested (description : Description)
  | guarded (description : Description)
  /-- Made at the first use; making it is counted under a name. -/
  | deferred (counter : String) (description : Description)
  /-- A rule by name, which the parser does not keep alive. -/
  | reference (rule : String)
  /-- A rule by name, which the parser keeps alive. -/
  | rule (rule : String)
  /-- A parser that was shared under a name. -/
  | shared (name : String)
  | cached (cache : String) (description : Description)
  | clearing (cache : String) (description : Description)
  | logged (name : String) (description : Description)
  | skipBytes (bytes : Nat)
  | withLeft (left : LeftContent Value) (description : Description)
  deriving Inhabited

namespace Description

mutual

/-- The number of parts that are made at their first use. -/
def deferrals : Description → Nat
  | .char _ | .literal _ | .token _ | .endOfInput | .reference _ | .rule _ | .shared _
  | .skipBytes _ => 0
  | .except description excluded => description.deferrals + deferralsAll excluded
  | .firstOf alternatives | .longest alternatives | .precedence alternatives =>
      deferralsAll alternatives
  | .sequence _ parts | .fold _ parts => deferralsAll parts
  | .joined item separator => item.deferrals + separator.deferrals
  | .deferred _ description => description.deferrals + 1
  | .repeated description _ _ | .optional description | .characters description _ _
  | .transformed _ description | .nested description | .guarded description
  | .cached _ description | .clearing _ description | .logged _ description
  | .withLeft _ description => description.deferrals

def deferralsAll : List Description → Nat
  | [] => 0
  | description :: descriptions => description.deferrals + deferralsAll descriptions

end

end Description

end Packrat.Workbench
