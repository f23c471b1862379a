import Std.Data.HashMap

/-!
# Total tables

A table gives a value for every number; all but finitely many of them are the default.
-/

namespace Packrat

/-- A value for every number, the default wherever none was written. -/
structure Table (β : Type) where
  entries : Std.HashMap Nat β

namespace Table

variable {β : Type}

def empty : Table β := ⟨∅⟩

instance : Inhabited (Table β) := ⟨empty⟩

variable [Inhabited β]

/-- The value at a number. -/
def get (table : Table β) (i : Nat) : β := table.entries.getD i default

/-- Changes the value at one number. -/
def update (table : Table β) (i : Nat) (f : β → β) : Table β :=
  ⟨table.entries.alter i fun value => some (f (value.getD default))⟩

@[simp] theorem get_empty (i : Nat) : (empty : Table β).get i = default := by
  simp [empty, get]

/-- An update changes the value at its own number and no other. -/
theorem get_update (table : Table β) (i j : Nat) (f : β → β) :
    (table.update i f).get j = if i = j then f (table.get i) else table.get j := by
  by_cases h : i = j
  · subst h
    simp [update, get, Std.HashMap.getD_eq_getD_getElem?]
  · simp [update, get, Std.HashMap.getD_alter, h]

@[simp] theorem get_update_self (table : Table β) (i : Nat) (f : β → β) :
    (table.update i f).get i = f (table.get i) := by
  simp [get_update]

@[simp] theorem get_update_of_ne (table : Table β) {i j : Nat} (h : i ≠ j) (f : β → β) :
    (table.update i f).get j = table.get j := by
  simp [get_update, h]

end Table

end Packrat
