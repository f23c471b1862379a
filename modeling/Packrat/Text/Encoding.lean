/-!
# Texts in bytes and in 16-bit units

Offsets count the bytes of the UTF-8 form, while the text itself is kept as characters.
`dropBytes` goes from an offset to the characters after it, and `dropBytes_add` says that
walking over characters adds their sizes to the offset.

In the UTF-16 form a character above U+FFFF takes two surrogates.  Decoding accepts any sequence of
units: a surrogate that is not part of a pair is replaced by U+FFFD.
-/

namespace Packrat.Text

/-! ## Byte offsets -/

/-- The number of bytes that the characters take in UTF-8. -/
def byteLength : List Char → Nat
  | [] => 0
  | c :: cs => c.utf8Size + byteLength cs

/--
The characters from a byte offset on.  There are none past the end, and none at an offset that
falls inside a character.
-/
def dropBytes : Nat → List Char → List Char
  | 0, cs => cs
  | _ + 1, [] => []
  | n + 1, c :: cs => if c.utf8Size ≤ n + 1 then dropBytes (n + 1 - c.utf8Size) cs else []

@[simp] theorem byteLength_nil : byteLength [] = 0 := rfl

@[simp] theorem byteLength_cons (c : Char) (cs : List Char) :
    byteLength (c :: cs) = c.utf8Size + byteLength cs := rfl

@[simp] theorem byteLength_append (cs ds : List Char) :
    byteLength (cs ++ ds) = byteLength cs + byteLength ds := by
  induction cs with
  | nil => simp
  | cons c cs ih => simp [ih, Nat.add_assoc]

/-- Only the empty text takes no bytes. -/
theorem byteLength_eq_zero_iff {cs : List Char} : byteLength cs = 0 ↔ cs = [] := by
  cases cs with
  | nil => simp
  | cons c cs => simp [Nat.ne_of_gt c.utf8Size_pos]

@[simp] theorem dropBytes_zero (cs : List Char) : dropBytes 0 cs = cs := by
  cases cs <;> rfl

@[simp] theorem dropBytes_nil (n : Nat) : dropBytes n [] = [] := by
  cases n <;> rfl

/-- Dropping at least the size of the first character drops that character. -/
theorem dropBytes_cons_of_le {n : Nat} {c : Char} (cs : List Char) (h : c.utf8Size ≤ n) :
    dropBytes n (c :: cs) = dropBytes (n - c.utf8Size) cs := by
  cases n with
  | zero => exact absurd c.utf8Size_pos (by omega)
  | succ n => simp [dropBytes, h]

/-- An offset strictly inside the first character leads nowhere. -/
theorem dropBytes_cons_of_lt {n : Nat} {c : Char} (cs : List Char)
    (hpos : 0 < n) (h : n < c.utf8Size) : dropBytes n (c :: cs) = [] := by
  cases n with
  | zero => omega
  | succ n => simp [dropBytes, Nat.not_le.2 h]

/-- The offset after `cs` leads to what follows `cs`. -/
@[simp] theorem dropBytes_append (cs ds : List Char) :
    dropBytes (byteLength cs) (cs ++ ds) = ds := by
  induction cs with
  | nil => simp
  | cons c cs ih => simp [dropBytes_cons_of_le, ih]

/-- Characters found at an offset end where their sizes say. -/
theorem add_byteLength_dropBytes {n : Nat} {cs : List Char} (h : dropBytes n cs ≠ []) :
    n + byteLength (dropBytes n cs) = byteLength cs := by
  induction cs generalizing n with
  | nil => simp at h
  | cons c cs ih =>
      by_cases hn : n = 0
      · simp [hn]
      · by_cases hc : c.utf8Size ≤ n
        · rw [dropBytes_cons_of_le cs hc] at h ⊢
          have := ih h
          simp only [byteLength_cons]
          omega
        · exact absurd (dropBytes_cons_of_lt cs (by omega) (by omega)) h

/-- Walking over the characters `ds` found at an offset adds their sizes to it. -/
theorem dropBytes_add {n : Nat} {cs ds es : List Char} (h : dropBytes n cs = ds ++ es) :
    dropBytes (n + byteLength ds) cs = es := by
  induction cs generalizing n ds with
  | nil =>
      have hnil : ds = [] ∧ es = [] := by simpa using h
      simp [hnil]
  | cons c cs ih =>
      by_cases hn : n = 0
      · subst hn
        have hcs : c :: cs = ds ++ es := by simpa using h
        rw [hcs, Nat.zero_add, dropBytes_append]
      · by_cases hc : c.utf8Size ≤ n
        · rw [dropBytes_cons_of_le cs hc] at h
          rw [dropBytes_cons_of_le cs (by omega), ← ih h]
          congr 1
          omega
        · rw [dropBytes_cons_of_lt cs (by omega) (by omega)] at h
          have hnil : ds = [] ∧ es = [] := by simpa using h
          rw [hnil.1, hnil.2]
          exact dropBytes_cons_of_lt cs (by simpa using Nat.pos_of_ne_zero hn)
            (by simpa using Nat.lt_of_not_le hc)

/-- Walking over characters found at an offset inside the text stays inside it. -/
theorem add_byteLength_le {n : Nat} {cs ds es : List Char} (hle : n ≤ byteLength cs)
    (h : dropBytes n cs = ds ++ es) : n + byteLength ds ≤ byteLength cs := by
  by_cases hnil : dropBytes n cs = []
  · have hds : ds = [] := (List.append_eq_nil_iff.1 (h ▸ hnil)).1
    simpa [hds] using hle
  · have hsum := add_byteLength_dropBytes hnil
    rw [h, byteLength_append] at hsum
    omega

/-! ## UTF-16 units -/

namespace Units

def isHigh (unit : UInt16) : Bool := 0xd800 ≤ unit && unit < 0xdc00

def isLow (unit : UInt16) : Bool := 0xdc00 ≤ unit && unit < 0xe000

/-- The character of a unit that is not part of a pair. -/
def single (unit : UInt16) : Char :=
  if isHigh unit || isLow unit then '\ufffd' else Char.ofNat unit.toNat

/-- The character of a high surrogate and a low one. -/
def pair (high low : UInt16) : Char :=
  Char.ofNat (0x10000 + (high.toNat - 0xd800) * 0x400 + (low.toNat - 0xdc00))

/-- The characters of a sequence of units. -/
def decode : List UInt16 → List Char
  | [] => []
  | [unit] => [single unit]
  | unit :: next :: units =>
      if isHigh unit && isLow next then pair unit next :: decode units
      else single unit :: decode (next :: units)

/-- The units of a character. -/
def encodeChar (c : Char) : List UInt16 :=
  if c.toNat < 0x10000 then [.ofNat c.toNat]
  else
    let n := c.toNat - 0x10000
    [.ofNat (0xd800 + n / 0x400), .ofNat (0xdc00 + n % 0x400)]

/-- The units of a sequence of characters. -/
def encode (chars : List Char) : List UInt16 := chars.flatMap encodeChar

end Units

end Packrat.Text
