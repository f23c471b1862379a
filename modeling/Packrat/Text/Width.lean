import Packrat.Text.Classes

/-!
# Display width

How many columns of a terminal a character takes: two for the wide characters of East Asian
scripts and most pictographs, none for what is drawn on a neighbour or not at all, and one for
nearly all others.
-/

namespace Packrat.Text

/-- The characters that take two columns, in ascending ranges. -/
def wideRanges : CharRanges := [
    (0x1100, 0x115f), (0x17a4, 0x17a4), (0x231a, 0x231b), (0x2329, 0x232a), (0x23e9, 0x23ec),
    (0x23f0, 0x23f0), (0x23f3, 0x23f3), (0x25fd, 0x25fe), (0x2614, 0x2615), (0x2630, 0x2637),
    (0x2648, 0x2653), (0x267f, 0x267f), (0x268a, 0x268f), (0x2693, 0x2693), (0x26a1, 0x26a1),
    (0x26aa, 0x26ab), (0x26bd, 0x26be), (0x26c4, 0x26c5), (0x26ce, 0x26ce), (0x26d4, 0x26d4),
    (0x26ea, 0x26ea), (0x26f2, 0x26f3), (0x26f5, 0x26f5), (0x26fa, 0x26fa), (0x26fd, 0x26fd),
    (0x2705, 0x2705), (0x270a, 0x270b), (0x2728, 0x2728), (0x274c, 0x274c), (0x274e, 0x274e),
    (0x2753, 0x2755), (0x2757, 0x2757), (0x2795, 0x2797), (0x27b0, 0x27b0), (0x27bf, 0x27bf),
    (0x2b1b, 0x2b1c), (0x2b50, 0x2b50), (0x2b55, 0x2b55), (0x2e80, 0x2e99), (0x2e9b, 0x2ef3),
    (0x2f00, 0x2fd5), (0x2ff0, 0x303e), (0x3041, 0x3096), (0x3099, 0x30ff), (0x3105, 0x312f),
    (0x3131, 0x318e), (0x3190, 0x31e5), (0x31ef, 0x321e), (0x3220, 0x3247), (0x3250, 0xa48c),
    (0xa490, 0xa4c6), (0xa960, 0xa97c), (0xac00, 0xd7a3), (0xf900, 0xfaff), (0xfe10, 0xfe19),
    (0xfe30, 0xfe52), (0xfe54, 0xfe66), (0xfe68, 0xfe6b), (0xff01, 0xff60), (0xffe0, 0xffe6),
    (0x16fe0, 0x16fe4), (0x16ff0, 0x16ff6), (0x17000, 0x18cda), (0x18cff, 0x18d20),
    (0x18d80, 0x18df2), (0x18e00, 0x191dc), (0x1aff0, 0x1aff3), (0x1aff5, 0x1affb),
    (0x1affd, 0x1affe), (0x1b000, 0x1b128), (0x1b132, 0x1b132), (0x1b150, 0x1b152),
    (0x1b155, 0x1b155), (0x1b164, 0x1b168), (0x1b170, 0x1b2fb), (0x1d300, 0x1d356),
    (0x1d360, 0x1d376), (0x1f004, 0x1f004), (0x1f0cf, 0x1f0cf), (0x1f18e, 0x1f18e),
    (0x1f191, 0x1f19a), (0x1f200, 0x1f202), (0x1f210, 0x1f23b), (0x1f240, 0x1f248),
    (0x1f250, 0x1f251), (0x1f260, 0x1f265), (0x1f300, 0x1f320), (0x1f32d, 0x1f335),
    (0x1f337, 0x1f37c), (0x1f37e, 0x1f393), (0x1f3a0, 0x1f3ca), (0x1f3cf, 0x1f3d3),
    (0x1f3e0, 0x1f3f0), (0x1f3f4, 0x1f3f4), (0x1f3f8, 0x1f43e), (0x1f440, 0x1f440),
    (0x1f442, 0x1f4fc), (0x1f4ff, 0x1f53d), (0x1f54b, 0x1f54e), (0x1f550, 0x1f567),
    (0x1f57a, 0x1f57a), (0x1f595, 0x1f596), (0x1f5a4, 0x1f5a4), (0x1f5fb, 0x1f64f),
    (0x1f680, 0x1f6c5), (0x1f6cc, 0x1f6cc), (0x1f6d0, 0x1f6d2), (0x1f6d5, 0x1f6d9),
    (0x1f6dc, 0x1f6df), (0x1f6eb, 0x1f6ec), (0x1f6f4, 0x1f6fc), (0x1f7e0, 0x1f7eb),
    (0x1f7f0, 0x1f7f0), (0x1f90c, 0x1f93a), (0x1f93c, 0x1f945), (0x1f947, 0x1f9ff),
    (0x1fa70, 0x1fa7c), (0x1fa80, 0x1fac6), (0x1fac8, 0x1fac8), (0x1facc, 0x1fadd),
    (0x1fadf, 0x1faeb), (0x1faef, 0x1fafa), (0x20000, 0x2fffd), (0x30000, 0x3fffd)]

/--
Characters that take no column, apart from those that extend another one: fillers and formats that
are not drawn, signs that are drawn over or under what follows, and the later parts of Hangul
syllables.
-/
def invisibleRanges : CharRanges := [
    (0xad, 0xad), (0x5c8, 0x5c9), (0x605, 0x605), (0x61c, 0x61c), (0x70f, 0x70f), (0x890, 0x891),
    (0x8e2, 0x8e2), (0xb53, 0xb54), (0xd4e, 0xd4e), (0x1160, 0x11ff), (0x180e, 0x180e),
    (0x1aec, 0x1aec), (0x1aee, 0x1af0), (0x200b, 0x200f), (0x202a, 0x202e), (0x2060, 0x206f),
    (0x3164, 0x3164), (0xa8fa, 0xa8fa), (0xd7b0, 0xd7c6), (0xd7cb, 0xd7fb), (0xfeff, 0xfeff),
    (0xffa0, 0xffa0), (0xfff0, 0xfff8), (0x10ecb, 0x10ecc), (0x10ef5, 0x10ef9), (0x111c2, 0x111c3),
    (0x113d1, 0x113d1), (0x1193f, 0x1193f), (0x11941, 0x11941), (0x11a84, 0x11a89),
    (0x11d46, 0x11d46), (0x11df0, 0x11df0), (0x11f02, 0x11f02), (0x1bca0, 0x1bca3),
    (0x1d127, 0x1d128), (0x1d173, 0x1d17a), (0x1d250, 0x1d252), (0x1d25b, 0x1d25c),
    (0x1d25f, 0x1d25f), (0x1d280, 0x1d281), (0xe0000, 0xe0fff)]

/--
The columns that a character takes.  A tab is shown as four spaces, and each control of the
direction of writing as a sign of its own.
-/
def charWidth (c : Char) : Nat :=
  if c = '\t' then 4
  else if c.toNat < 0xad then 1
  else if (0x202a ≤ c.toNat && c.toNat ≤ 0x202e) || (0x2066 ≤ c.toNat && c.toNat ≤ 0x2069) then 1
  else if c = '\u17d8' then 3
  else if c = '\u2d7f' then 1
  else if isExtending c || invisibleRanges.contains c then 0
  else if wideRanges.contains c then 2
  else 1

/-- The columns that characters take together. -/
def width : List Char → Nat
  | [] => 0
  | c :: cs => charWidth c + width cs

/-- The characters up to a number of columns. -/
def takeWidth : Nat → List Char → List Char
  | _, [] => []
  | columns, c :: cs =>
      if charWidth c ≤ columns then c :: takeWidth (columns - charWidth c) cs else []

/-- What is left when characters are dropped until a number of columns is reached. -/
def dropWidth : Nat → List Char → List Char
  | _, [] => []
  | 0, cs => cs
  | columns + 1, c :: cs => dropWidth (columns + 1 - charWidth c) cs

end Packrat.Text
