import EffectTrees.Descriptor.Basic
import EffectTrees.Member
import EffectTrees.Text.Directive

/-!
# Operations on plain values

Arithmetic, comparison, text and containers. An operation accepts certain operands and refuses
others; but if an operand is the unknown argument itself, most operations abort without looking any
further.

* Division rounds down, and the remainder has the sign of the divisor.
* Bit operations work on two's complement of unlimited width.
* Shifts and powers take a right operand between zero and `Operator.exponentLimit`.
-/

namespace EffectTrees

namespace Value

/-- Whether a condition holds of a value. Nothing is known of the unknown argument. -/
def truth : Value → Act Bool
  | scalar .null => pure false
  | scalar (.bool b) => pure b
  | scalar (.int i) => pure (i ≠ 0)
  | scalar (.str s) => pure (s ≠ "")
  | list xs => pure (!xs.isEmpty)
  | tuple xs => pure (!xs.isEmpty)
  | aborted => pure false
  | poison => Act.abort
  | _ => pure true

/-- The items of a list or a tuple. -/
def sequence? : Value → Option (List Value)
  | list xs => some xs
  | tuple xs => some xs
  | _ => none

/-- The items of a list, a tuple or a text. -/
def indexed? : Value → Option (List Value)
  | scalar (.str s) => some (s.toList.map fun c => str c.toString)
  | v => v.sequence?

end Value

namespace Bits

/-- The bits that two numbers share. -/
def both : Int → Int → Int
  | .ofNat m, .ofNat n => .ofNat (m &&& n)
  | .ofNat m, .negSucc n => .ofNat (m ^^^ (m &&& n))
  | .negSucc m, .ofNat n => .ofNat (n ^^^ (n &&& m))
  | .negSucc m, .negSucc n => .negSucc (m ||| n)

/-- The number with every bit turned. -/
def turned (i : Int) : Int := -i - 1

/-- The bits that either of two numbers has. -/
def either (i j : Int) : Int := turned (both (turned i) (turned j))

/-- The bits in which two numbers differ. -/
def differing (i j : Int) : Int := both (either i j) (turned (both i j))

end Bits

namespace Operator

/-- The greatest right operand of shifts and powers. -/
def exponentLimit : Int := 512

/-- An exponent within its limits. -/
def exponent? (i : Int) : Option Nat :=
  if 0 ≤ i ∧ i ≤ exponentLimit then some i.toNat else none

/-- The answer to an operation: a value, a fault, or that it does not accept its operands. -/
abbrev Answer := Option (Except Fault Value)

/-- The answer with a value. -/
def ok (v : Value) : Answer := some (.ok v)

/-- An integer that is divided by another one. -/
def divided (j : Int) (v : Value) : Answer :=
  some (if j = 0 then .error .divisionByZero else .ok v)

/-- Operations on two integers. -/
def onIntegers (name : String) (i j : Int) : Answer :=
  match name with
  | "add" => ok (.int (i + j))
  | "sub" => ok (.int (i - j))
  | "mul" => ok (.int (i * j))
  | "floordiv" => divided j (.int (i.fdiv j))
  | "mod" => divided j (.int (i.fmod j))
  | "divmod" => divided j (.tuple [.int (i.fdiv j), .int (i.fmod j)])
  | "pow" => (exponent? j).map fun n => .ok (.int (Int.pow i n))
  | "lshift" => (exponent? j).map fun n => .ok (.int (Int.shiftLeft i n))
  | "rshift" => (exponent? j).map fun n => .ok (.int (Int.shiftRight i n))
  | "and" => ok (.int (Bits.both i j))
  | "or" => ok (.int (Bits.either i j))
  | "xor" => ok (.int (Bits.differing i j))
  | "lt" => ok (.bool (i < j))
  | "le" => ok (.bool (i ≤ j))
  | "gt" => ok (.bool (j < i))
  | "ge" => ok (.bool (j ≤ i))
  | _ => none

/-- Operations on two texts. Texts are ordered by code points. -/
def onTexts (name s t : String) : Answer :=
  match name with
  | "add" => ok (.str (s ++ t))
  | "lt" => ok (.bool (s < t))
  | "le" => ok (.bool (s < t || s = t))
  | "gt" => ok (.bool (t < s))
  | "ge" => ok (.bool (t < s || s = t))
  | _ => none

/-- The item at an index. A negative index counts from the end. -/
def itemAt (items : List Value) (i : Int) : Except Fault Value :=
  let position := if i < 0 then i + items.length else i
  if position < 0 then .error .outOfRange
  else match items[position.toNat]? with
    | some v => .ok v
    | none => .error .outOfRange

/-- Operations on two values that compute with them. -/
def binary (name : String) (v w : Value) : Answer :=
  match v, w with
  | .scalar (.int i), .scalar (.int j) => onIntegers name i j
  | .scalar (.str s), .scalar (.str t) => onTexts name s t
  | .list xs, .list ys => if name = "add" then ok (.list (xs ++ ys)) else none
  | _, _ => none

/-- The text of a value that has one without quotes around it. -/
def plainText? : Value → Option (Except Fault String)
  | .scalar (.str s) => some (.ok s)
  | .scalar s => some s.write
  | _ => none

/-- A text in capital letters. -/
def upper? (s : String) : Option String :=
  if s.toList.all fun c => c.toNat < 128 then some (String.ofList (s.toList.map Char.toUpper))
  else none

/-- Operations on one value that compute with it. -/
def unary (name : String) (v : Value) : Answer :=
  match name, v with
  | "neg", .scalar (.int i) => ok (.int (-i))
  | "abs", .scalar (.int i) => ok (.int i.natAbs)
  | "invert", .scalar (.int i) => ok (.int (Bits.turned i))
  | "pos", .scalar (.int i) | "int", .scalar (.int i) | "index", .scalar (.int i)
  | "round", .scalar (.int i) | "trunc", .scalar (.int i) | "floor", .scalar (.int i)
  | "ceil", .scalar (.int i) => ok (.int i)
  | "len", _ => v.indexed?.map fun xs => .ok (.int xs.length)
  | "iter", _ => v.indexed?.map fun xs => .ok (.list xs)
  | "str", _ | "format", _ => (plainText? v).map fun s => s.map .str
  | "upper", .scalar (.str s) => (upper? s).map fun s => .ok (.str s)
  | _, _ => none

/-- The operations on two values that refuse the unknown argument by aborting. -/
def binaryNames : List String :=
  ["add", "sub", "mul", "floordiv", "mod", "divmod", "pow", "lshift", "rshift", "and", "or", "xor",
   "lt", "le", "gt", "ge", "matmul", "truediv"]

/-- The operations on one value that refuse the unknown argument by aborting. -/
def unaryNames : List String :=
  ["neg", "pos", "abs", "invert", "int", "index", "round", "trunc", "floor", "ceil", "len", "iter",
   "str", "format", "upper", "float", "complex", "bytes", "hash", "with"]

/-- Whether a sequence has an item equal to the given one, tested from the left. -/
def containsItem (items : List Value) (v : Value) : Act Bool :=
  match items with
  | [] => pure false
  | x :: xs => do if ← Act.equal x v then pure true else containsItem xs v

/-- Whether a text occurs in another one. -/
def occursIn (part : List Char) : List Char → Bool
  | [] => part.isEmpty
  | c :: cs => part.isPrefixOf (c :: cs) || occursIn part cs

/-! ### Patterns

The remainder of a text by a value puts the value into the directives of the text. Only the unknown
argument is accepted as that value: a text without directives stays what it is, and nearly all
directives abort. -/

/-- The conversions that look at a value. -/
def lookingConversions : List Char :=
  ['s', 'c', 'd', 'i', 'u', 'o', 'x', 'X', 'e', 'E', 'f', 'F', 'g', 'G']

/-- The conversions that show the written form of a value. -/
def writingConversions : List Char := ['r', 'a']

/-- Puts the unknown argument into the parts of a pattern. It can be put into one directive only;
`used` tells if it has been. -/
def fillUnknown (used : Bool) : List Directive.Piece → Act (List Char)
  | [] => return []
  | .char c :: ps => return c :: (← fillUnknown used ps)
  | .key :: _ => Act.abort
  | .flaw .starred :: _ => Act.fail .misuse
  | .flaw .malformed :: _ => Act.fail .badValue
  | .directive d :: ps => do
    if used then Act.fail .misuse
    else if writingConversions.contains d.conversion then
      let text ← Act.ofFault (Value.poison.write (← Act.classes) true)
      match d.layOut (text.getD "") with
      | some cs => return cs ++ (← fillUnknown true ps)
      | none => Act.fail .tooLong
    else if lookingConversions.contains d.conversion then Act.abort
    else Act.fail .badValue

/-- Runs an operation on values. -/
def run (name : String) (args : List Value) : Act Value :=
  let refuse : Act Value := Act.wrong (.operator name)
  let answer (a : Answer) : Act Value :=
    match a with
    | some (.ok v) => pure v
    | some (.error f) => Act.fail f
    | none => refuse
  match name, args with
  | "eq", [v, w] =>
    if v.isPoison || w.isPoison then Act.abort else return .bool (← Act.equal v w)
  | "ne", [v, w] =>
    if v.isPoison || w.isPoison then Act.abort else return .bool (!(← Act.equal v w))
  | "contains", [v, w] =>
    match v, w with
    | .poison, _ => Act.abort
    | .scalar (.str s), .scalar (.str part) => return .bool (occursIn part.toList s.toList)
    | _, _ =>
      match v.sequence? with
      | some xs => return .bool (← containsItem xs w)
      | none => refuse
  | "getitem", [v, i] =>
    match v, v.indexed?, i with
    | .poison, _, _ => Act.abort
    | _, some _, .poison => Act.abort
    | _, some xs, .scalar (.int i) => answer (some (itemAt xs i))
    | _, _, _ => refuse
  | "mod", [.scalar (.str s), .poison] =>
    return .str (String.ofList (← fillUnknown false (Directive.pieces s.toList)))
  | "not", [v] => return .bool (!(← v.truth))
  | "bool", [v] => return .bool (← v.truth)
  | "hasattr_private", [.poison] | "hasattr_bases", [.poison] => return .bool false
  | "type", [v] => return .str v.typeName
  | "repr", [v] => do
    match ← Act.ofFault (v.write (← Act.classes) false) with
    | some s => return .str s
    | none => refuse
  | _, [v] =>
    if !unaryNames.contains name then refuse
    else if v.isPoison then Act.abort
    else answer (unary name v)
  | _, [v, w] =>
    -- The name is checked first, then the unknown argument, then what the operation accepts.
    if !binaryNames.contains name then refuse
    else if v.isPoison || w.isPoison then Act.abort
    else answer (binary name v w)
  | _, _ => refuse

end Operator

end EffectTrees
