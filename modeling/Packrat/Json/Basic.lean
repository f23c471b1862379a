/-!
# JSON values
-/

namespace Packrat.Json

/-- A JSON value.  Objects list their members in order, and no key twice. -/
inductive Value where
  | null
  | bool (b : Bool)
  | number (x : Float)
  | string (chars : List Char)
  | array (items : List Value)
  | object (members : List (List Char × Value))
  deriving Inhabited

/-- A list of members with distinct keys. -/
abbrev Members := List (List Char × Value)

/-- Sets a member.  A key that is there keeps its place and gets the new value. -/
def Members.insert (members : Members) (key : List Char) (value : Value) : Members :=
  match members with
  | [] => [(key, value)]
  | (other, old) :: members =>
      if other = key then (other, value) :: members
      else (other, old) :: Members.insert members key value

/-- The object that lists of members make: keys in order of their first occurrence, each with its
last value. -/
def Members.ofList (members : List (List Char × Value)) : Members :=
  members.foldl (fun object member => object.insert member.1 member.2) []

end Packrat.Json
