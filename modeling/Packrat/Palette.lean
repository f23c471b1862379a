/-!
# Terminal colors

A palette gives the escape codes of the roles that colored output distinguishes.
-/

namespace Packrat

/-- The codes that switch to the color of a role, and the code that switches back. -/
structure Palette where
  /-- Names of rules. -/
  rule : String
  /-- Matches and the ranges they cover. -/
  matched : String
  /-- Results without a match. -/
  failed : String
  /-- Marks and statistics. -/
  dim : String
  reset : String
  deriving DecidableEq, Repr

namespace Palette

/-- Standard terminal colors. -/
def colored : Palette where
  rule := "\x1b[34m"
  matched := "\x1b[32m"
  failed := "\x1b[31m"
  dim := "\x1b[2m"
  reset := "\x1b[0m"

/-- No colors at all. -/
def plain : Palette := ⟨"", "", "", "", ""⟩

instance : Inhabited Palette := ⟨plain⟩

def ofBool (enabled : Bool) : Palette := if enabled then colored else plain

def isEnabled (palette : Palette) : Bool := !palette.reset.isEmpty

/-- Writes a text between a code and the code that undoes it. -/
def paint (palette : Palette) (code text : String) : String := code ++ text ++ palette.reset

end Palette

end Packrat
