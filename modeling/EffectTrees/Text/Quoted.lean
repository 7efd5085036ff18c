import EffectTrees.Text.Printable

/-!
# Quoted text

The written form of a text inside the written form of a larger value: between quotes, with escapes.

* A text stands between single quotes, unless it holds a single quote and no double one: then it
  stands between double quotes (`Text.quoteFor`).
* The escape mark, the quote in use, and line feed, carriage return and tab are written with a
  leading escape mark; a character that is not printable is written by its number, with two, four
  or eight hexadecimal digits (`Text.escape`).
-/

namespace EffectTrees.Text

/-- The mark that starts an escape. -/
def escapeMark : Char := '\x5c'

/-- The quote that is used unless it would need escaping. -/
def singleQuote : Char := '\x27'

/-- The quote that is used for a text with single quotes and no double ones. -/
def doubleQuote : Char := '\x22'

/-- The quote that surrounds the given characters. -/
def quoteFor (cs : List Char) : Char :=
  if cs.contains singleQuote && !cs.contains doubleQuote then doubleQuote else singleQuote

/-- The last `width` hexadecimal digits of `n`, most significant first. -/
def hexDigits (width n : Nat) : List Char :=
  match width with
  | 0 => []
  | w + 1 => hexDigits w (n / 16) ++ [Nat.digitChar (n % 16)]

/-- The numeric escape of a character, in the shortest of the three widths that holds it. -/
def numericEscape (c : Char) : List Char :=
  let n := c.toNat
  if n < 0x100 then escapeMark :: 'x' :: hexDigits 2 n
  else if n < 0x10000 then escapeMark :: 'u' :: hexDigits 4 n
  else escapeMark :: 'U' :: hexDigits 8 n

/-- One character as it is written between quotes `q`. -/
def escape (q c : Char) : List Char :=
  if c = q ∨ c = escapeMark then [escapeMark, c]
  else if c = '\n' then [escapeMark, 'n']
  else if c = '\r' then [escapeMark, 'r']
  else if c = '\t' then [escapeMark, 't']
  else if isPrintable c then [c]
  else numericEscape c

/-- The quoted form of a text. -/
def quoted (s : String) : String :=
  let cs := s.toList
  let q := quoteFor cs
  String.ofList (q :: cs.flatMap (escape q) ++ [q])

/-- The given texts, a comma and a blank between each two. -/
def commaSeparated (parts : List String) : String :=
  String.intercalate ", " parts

/-- The given texts as the items of a tuple. A single item is followed by a comma. -/
def tuple (parts : List String) : String :=
  match parts with
  | [s] => "(" ++ s ++ ",)"
  | ss => "(" ++ commaSeparated ss ++ ")"

end EffectTrees.Text
