import EffectTrees.Act

/-!
# Conversions

The fixed classes of integers and texts make an integer or a text of other values. Without a value
they make zero and the empty text.

* `Value.toInteger` takes truth values and numerals. A numeral may come with a base.
* `Value.toText` gives a text as it is, and the written form of any other value.
-/

namespace EffectTrees.Value

/-- The integer that a text shows in a base. -/
def readInteger (base : Nat) (s : String) : Act Value :=
  match Numeral.read? base s with
  | some i => return int i
  | none => Act.fail .badValue

/-- A base for numerals: zero, or from two to thirty-six. -/
def asBase (v : Value) : Act Nat := do
  let i ← match v with
    | scalar (.int i) => pure i
    | scalar (.bool b) => pure b.toNat
    | poison => Act.abort
    | _ => Act.fail .misuse
  if i = 0 ∨ (2 ≤ i ∧ i ≤ 36) then return i.toNat else Act.fail .badValue

/-- Makes an integer of values. -/
def toInteger : List Value → Act Value
  | [] => return int 0
  | [scalar (.int i)] => return int i
  | [scalar (.bool b)] => return int b.toNat
  | [scalar (.str s)] => readInteger 10 s
  | [poison] => Act.abort
  | [v, base] => do
    let b ← base.asBase
    match v with
    | scalar (.str s) => readInteger b s
    | _ => Act.fail .misuse
  | _ => Act.fail .misuse

/-- A name for how a text is coded. It has no null character in it. -/
def requireCoding : Value → Act Unit
  | scalar (.str s) => if s.toList.contains '\x00' then Act.fail .badValue else return ()
  | _ => Act.fail .misuse

/-- Makes a text of values. Codings are for other values than there are. -/
def toText : List Value → Act Value
  | [] => return str ""
  | [scalar (.str s)] => return str s
  | [poison] => Act.abort
  | [v] => do
    match ← Act.ofFault (v.write (← Act.classes) true) with
    | some s => return str s
    | none => Act.fail .misuse
  | [_, coding] => do
    requireCoding coding
    Act.fail .misuse
  | [_, coding, errors] => do
    requireCoding coding
    requireCoding errors
    Act.fail .misuse
  | _ => Act.fail .misuse

/-- What a fixed class makes of values. -/
def convert (name : String) (args : List Value) : Act Value :=
  match name with
  | "int" => toInteger args
  | "str" => toText args
  | _ => Act.fail .misuse

end EffectTrees.Value
