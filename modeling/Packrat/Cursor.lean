import Packrat.Text.Encoding

/-!
# Cursors

A cursor is a place in a source text, together with what a left-recursive rule above it has
left there: nothing, an operand that is already folded, or the mark of a right operand.
Cursors never change; moving one makes another.

The characters from the place on are kept beside the offset, with the proof that they agree,
so that reading is fast and the offset alone decides what is read.

A fault is a misuse of the library, as opposed to a text that does not match.
-/

namespace Packrat

/-! ## Faults -/

/-- The ways in which a caller can break the rules of the library. -/
inductive Fault where
  /-- A cursor was sent to an offset past the end of its text. -/
  | pastEnd (offset size : Nat)
  /-- A rule was given a second body. -/
  | redefined
  deriving DecidableEq, Repr

/-- The text that reports a fault. -/
def Fault.message : Fault → String
  | .pastEnd offset size =>
      "Input: offset " ++ toString offset ++ " is past the end of a " ++ toString size ++
        "-byte text (combinators must only advance over matched text)"
  | .redefined => "Rule: define() called on an already defined rule"

/-! ## Source texts -/

/-- A text to parse, with its size in bytes. -/
structure Source where
  chars : List Char
  size : Nat
  size_eq : size = Text.byteLength chars

namespace Source

/-- The source whose characters are given. -/
def ofList (chars : List Char) : Source := ⟨chars, Text.byteLength chars, rfl⟩

/-- The source that a string holds. -/
def ofString (text : String) : Source := ofList text.toList

/-- The whole text as a string. -/
def toString (source : Source) : String := String.ofList source.chars

instance : Inhabited Source := ⟨ofList []⟩

/-- A source is known by its characters. -/
@[ext] theorem ext {source other : Source} (h : source.chars = other.chars) : source = other := by
  cases source with
  | mk chars size size_eq =>
      cases other with
      | mk chars' size' size_eq' =>
          cases h
          cases size_eq
          cases size_eq'
          rfl

end Source

/-! ## The left context of a cursor -/

/--
What a left-recursive rule has left at a cursor.  A carried operand has a tag of its own, which
is all that tells it from other operands; `none` stands for an operand of another payload type,
which no rule can take up.
-/
inductive Left (α : Type) where
  | empty
  | operand (tag : Nat) (value : Option α)
  | rightOperand
  deriving Inhabited

/-- The identity of a left context: operands are told apart by their tags alone. -/
inductive LeftKey where
  | empty
  | operand (tag : Nat)
  | rightOperand
  deriving DecidableEq, Hashable, Repr, Inhabited

namespace Left

variable {α : Type}

def key : Left α → LeftKey
  | empty => .empty
  | operand tag _ => .operand tag
  | rightOperand => .rightOperand

def isEmpty : Left α → Bool
  | empty => true
  | _ => false

def isOperand : Left α → Bool
  | operand _ _ => true
  | _ => false

def isRightOperand : Left α → Bool
  | rightOperand => true
  | _ => false

/-- The carried operand, where it has the payload type. -/
def value? : Left α → Option α
  | operand _ value => value
  | _ => none

/-- A left context is empty exactly if its identity is. -/
theorem key_eq_empty_iff {left : Left α} : left.key = .empty ↔ left = .empty := by
  cases left <;> simp [key]

/-- The mark of a right operand is known by its identity. -/
theorem key_eq_rightOperand_iff {left : Left α} :
    left.key = .rightOperand ↔ left = .rightOperand := by
  cases left <;> simp [key]

theorem isEmpty_iff {left : Left α} : left.isEmpty = true ↔ left = .empty := by
  cases left <;> simp [isEmpty]

theorem isOperand_iff {left : Left α} :
    left.isOperand = true ↔ ∃ tag value, left = .operand tag value := by
  cases left <;> simp [isOperand]

end Left

/-- What to put to the left of a cursor, before it gets a tag. -/
inductive LeftContent (α : Type) where
  | empty
  | rightOperand
  /-- An operand; `none` stands for one of another payload type. -/
  | operand (value : Option α)
  deriving Inhabited

/-- The left context with the given content; only an operand has a use for the tag. -/
def LeftContent.tagged {α : Type} (tag : Nat) : LeftContent α → Left α
  | .empty => .empty
  | .rightOperand => .rightOperand
  | .operand value => .operand tag value

/-- The words that name the three kinds of left context. -/
def LeftKey.kind : LeftKey → String
  | .empty => "empty"
  | .operand _ => "value"
  | .rightOperand => "right"

/-! ## Cursors -/

/-- A place in a source text: a byte offset, the characters after it, and the left context. -/
structure Cursor (α : Type) where
  source : Source
  offset : Nat
  rest : List Char
  left : Left α
  rest_eq : rest = Text.dropBytes offset source.chars
  offset_le : offset ≤ source.size

namespace Cursor

variable {α : Type}

/-- The start of a text, with nothing to its left. -/
def start (source : Source) : Cursor α where
  source := source
  offset := 0
  rest := source.chars
  left := .empty
  rest_eq := by simp
  offset_le := Nat.zero_le _

instance : Inhabited (Cursor α) := ⟨start default⟩

/-- The same place with another left context. -/
def withLeft (cursor : Cursor α) (left : Left α) : Cursor α := { cursor with left }

/-- The same place with nothing to its left. -/
def withoutLeft (cursor : Cursor α) : Cursor α := cursor.withLeft .empty

/-- The cursor behind the characters `taken`, which are the next ones. -/
def consume (cursor : Cursor α) (taken rest : List Char) (h : cursor.rest = taken ++ rest) :
    Cursor α where
  source := cursor.source
  offset := cursor.offset + Text.byteLength taken
  rest := rest
  left := cursor.left
  rest_eq := (Text.dropBytes_add (cursor.rest_eq ▸ h)).symm
  offset_le := by
    have hle : cursor.offset ≤ Text.byteLength cursor.source.chars :=
      cursor.source.size_eq ▸ cursor.offset_le
    have := Text.add_byteLength_le hle (cursor.rest_eq ▸ h)
    rw [cursor.source.size_eq]
    exact this

/-- The cursor at another offset of the same text; an offset past the end is a fault. -/
def seek (cursor : Cursor α) (offset : Nat) : Except Fault (Cursor α) :=
  if h : offset ≤ cursor.source.size then
    .ok { cursor with
      offset
      rest := Text.dropBytes offset cursor.source.chars
      rest_eq := rfl
      offset_le := h }
  else
    .error (.pastEnd offset cursor.source.size)

/-- The cursor that is `bytes` bytes further on. -/
def advance (cursor : Cursor α) (bytes : Nat) : Except Fault (Cursor α) :=
  cursor.seek (cursor.offset + bytes)

/-- Whether no byte is left. -/
def atEnd (cursor : Cursor α) : Bool := cursor.source.size ≤ cursor.offset

/-- The next character; there is none at the end or inside a character. -/
def peek? (cursor : Cursor α) : Option Char := cursor.rest.head?

/-- Whether the given characters come next. -/
def startsWith (cursor : Cursor α) (chars : List Char) : Bool := chars.isPrefixOf cursor.rest

/-- Two cursors are equal if they are at one place of equal texts with the same left context. -/
instance : BEq (Cursor α) where
  beq cursor other :=
    cursor.source.chars == other.source.chars && cursor.offset == other.offset &&
      cursor.left.key == other.left.key

/-- The hash of a cursor, which depends on no more than equality does. -/
instance : Hashable (Cursor α) where
  hash cursor :=
    mixHash (hash (cursor.source.chars.map Char.toNat))
      (mixHash (hash cursor.offset) (hash cursor.left.key))

/-- A cursor is known by its text, its offset and its left context. -/
@[ext] theorem ext {cursor other : Cursor α} (hsource : cursor.source = other.source)
    (hoffset : cursor.offset = other.offset) (hleft : cursor.left = other.left) :
    cursor = other := by
  cases cursor with
  | mk source offset rest left rest_eq offset_le =>
      cases other with
      | mk source' offset' rest' left' rest_eq' offset_le' =>
          cases hsource
          cases hoffset
          cases hleft
          cases rest_eq
          cases rest_eq'
          rfl

@[simp] theorem left_withLeft (cursor : Cursor α) (left : Left α) :
    (cursor.withLeft left).left = left := rfl

@[simp] theorem offset_withLeft (cursor : Cursor α) (left : Left α) :
    (cursor.withLeft left).offset = cursor.offset := rfl

@[simp] theorem offset_consume (cursor : Cursor α) (taken rest : List Char)
    (h : cursor.rest = taken ++ rest) :
    (cursor.consume taken rest h).offset = cursor.offset + Text.byteLength taken := rfl

end Cursor

/-! ## Outputs -/

/-- What a match produces: a payload, and the cursor to go on from. -/
structure Output (α : Type) where
  payload : α
  next : Cursor α

/-- Changes the payload and keeps the place. -/
def Output.map {α : Type} (f : α → α) (output : Output α) : Output α :=
  { output with payload := f output.payload }

end Packrat
