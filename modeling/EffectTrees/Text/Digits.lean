/-!
# Decimal digits and blanks of all scripts

Version 15 of the Unicode standard knows decimal digits of many scripts. The digits of a script are
ten code points in a row, from zero to nine, so it is enough to list the zeros.

* `Text.digitValue?` is the value of a decimal digit.
* `Text.isForeignBlank` tells the blanks beyond the ASCII characters.
* `Text.plainDigits?` writes the digits and blanks of a text in ASCII characters.
-/

namespace EffectTrees.Text

/-- The digits zero of all scripts. -/
def zeros : List Nat :=
  [0x30, 0x660, 0x6f0, 0x7c0, 0x966, 0x9e6, 0xa66, 0xae6, 0xb66, 0xbe6, 0xc66, 0xce6, 0xd66, 0xde6,
   0xe50, 0xed0, 0xf20, 0x1040, 0x1090, 0x17e0, 0x1810, 0x1946, 0x19d0, 0x1a80, 0x1a90, 0x1b50,
   0x1bb0, 0x1c40, 0x1c50, 0xa620, 0xa8d0, 0xa900, 0xa9d0, 0xa9f0, 0xaa50, 0xabf0, 0xff10, 0x104a0,
   0x10d30, 0x11066, 0x110f0, 0x11136, 0x111d0, 0x112f0, 0x11450, 0x114d0, 0x11650, 0x116c0,
   0x11730, 0x118e0, 0x11950, 0x11c50, 0x11d50, 0x11da0, 0x11f50, 0x16a60, 0x16ac0, 0x16b50,
   0x1d7ce, 0x1d7d8, 0x1d7e2, 0x1d7ec, 0x1d7f6, 0x1e140, 0x1e2f0, 0x1e4f0, 0x1e950, 0x1fbf0]

/-- The value of a decimal digit. -/
def digitValue? (c : Char) : Option Nat :=
  (zeros.find? fun z => z ≤ c.toNat && c.toNat < z + 10).map fun z => c.toNat - z

/-- A digit has a value below ten. -/
theorem digitValue?_lt {c : Char} {n : Nat} (h : digitValue? c = some n) : n < 10 := by
  obtain ⟨z, hz, rfl⟩ := Option.map_eq_some_iff.mp h
  have := List.find?_some hz
  simp only [Bool.and_eq_true, decide_eq_true_eq] at this
  omega

/-- The code points of blanks beyond the ASCII characters. -/
def foreignBlanks : List Nat :=
  [0x85, 0xa0, 0x1680, 0x2000, 0x2001, 0x2002, 0x2003, 0x2004, 0x2005, 0x2006, 0x2007, 0x2008,
   0x2009, 0x200a, 0x2028, 0x2029, 0x202f, 0x205f, 0x3000]

/-- The character is a blank beyond the ASCII characters. -/
def isForeignBlank (c : Char) : Bool := foreignBlanks.contains c.toNat

/-- An ASCII character with the meaning of a digit or blank of any script. -/
def plainDigit? (c : Char) : Option Char :=
  if c.toNat < 0x80 then some c
  else if isForeignBlank c then some ' '
  else (digitValue? c).map Nat.digitChar

/-- A text with its digits and blanks in ASCII characters, if it has no other characters beyond
these. -/
def plainDigits? (cs : List Char) : Option (List Char) := cs.mapM plainDigit?

end EffectTrees.Text
