import EffectTrees.Text.Digits

/-!
# Numerals

Integers are read from texts and written to texts. A numeral may have blanks around it, a sign, a
mark for its base, and single underscores between its digits.

* `Numeral.read?` reads an integer in a base from two to thirty-six. The base zero stands for the
  one that the numeral marks, or else ten.
* A numeral has a greatest length: longer ones are neither read (`Numeral.isReadable`) nor written
  (`Numeral.isWritable`), except for bases that are powers of two.
-/

namespace EffectTrees.Numeral

/-- The greatest number of digits of a numeral. -/
def digitLimit : Nat := 4300

/-- The integer has a numeral that is not too long. -/
def isWritable (i : Int) : Bool := i.natAbs < Nat.pow 10 digitLimit

/-- The value of a digit, or of a letter that continues the digits. -/
def digit? (c : Char) : Option Nat :=
  if '0' ≤ c ∧ c ≤ '9' then some (c.toNat - '0'.toNat)
  else if 'a' ≤ c ∧ c ≤ 'z' then some (c.toNat - 'a'.toNat + 10)
  else if 'A' ≤ c ∧ c ≤ 'Z' then some (c.toNat - 'A'.toNat + 10)
  else none

/-- The character is a digit of the base. -/
def isDigit (base : Nat) (c : Char) : Bool := (digit? c).any fun n => n < base

/-- The mark between digits. -/
def underscore : Char := '_'

/-- A blank that may surround a numeral. -/
def isBlank (c : Char) : Bool := c = ' ' || (0x9 ≤ c.toNat && c.toNat ≤ 0xd)

/-- Each underscore stands between two digits, and there is a digit. The flag tells if the character
before is a digit. -/
def wellSeparated (afterDigit : Bool) : List Char → Bool
  | [] => afterDigit
  | c :: cs =>
    if c = underscore then afterDigit && wellSeparated false cs else wellSeparated true cs

/-- The bases that are powers of two. -/
def binaryBases : List Nat := [2, 4, 8, 16, 32]

/-- A numeral of so many digits is read. -/
def isReadable (base digits : Nat) : Bool := digits ≤ digitLimit || binaryBases.contains base

/-- The number that digits stand for. -/
def value (base : Nat) (digits : List Char) : Nat :=
  digits.foldl (fun n c => n * base + (digit? c).getD 0) 0

/-- The letters that mark a base behind a zero. -/
def baseOf? (c : Char) : Option Nat :=
  if c = 'x' ∨ c = 'X' then some 16
  else if c = 'o' ∨ c = 'O' then some 8
  else if c = 'b' ∨ c = 'B' then some 2
  else none

/-- The base of a numeral without blanks and sign, whether it must be zero, and its digits. A marked
base may be followed by an underscore. -/
def splitBase (base : Nat) (cs : List Char) : Nat × Bool × List Char :=
  let unmarked : Nat × Bool × List Char :=
    if base = 0 then (10, cs.head? = some '0', cs) else (base, false, cs)
  match cs with
  | '0' :: c :: rest =>
    match baseOf? c with
    | some b =>
      if base = 0 ∨ base = b then
        (b, false, if rest.head? = some underscore then rest.tail else rest)
      else unmarked
    | none => unmarked
  | _ => unmarked

/-- Reads the digits of a numeral and the blanks behind them. -/
def readDigits? (base : Nat) (cs : List Char) : Option Nat :=
  let (base, mustBeZero, cs) := splitBase base cs
  let body := cs.takeWhile fun c => isDigit base c || c = underscore
  let rest := cs.dropWhile fun c => isDigit base c || c = underscore
  let digits := body.filter fun c => c ≠ underscore
  let n := value base digits
  if wellSeparated false body && rest.all isBlank && isReadable base digits.length &&
      !(mustBeZero && n ≠ 0)
  then some n
  else none

/-- Reads an integer. -/
def read? (base : Nat) (s : String) : Option Int := do
  let cs ← Text.plainDigits? s.toList
  match cs.dropWhile isBlank with
  | '-' :: rest => (readDigits? base rest).map fun n => -(n : Int)
  | '+' :: rest => (readDigits? base rest).map Int.ofNat
  | rest => (readDigits? base rest).map Int.ofNat

end EffectTrees.Numeral
