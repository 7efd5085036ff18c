import EffectTrees.Fault
import EffectTrees.Text.Numeral
import EffectTrees.Value

/-!
# The text of a value

* `Value.typeName` names the type of a value.
* `Value.write` is the written form of a value. An instance shows the fields that its class settles,
  with the values that it has under these names now.

There are two ways to have no written form. A function has none that could be told, and neither has
an instance of a class that settles nothing to show, nor a value with one of these in it: the form
is absent then. But if an instance lacks a field that it should show, or an integer has too many
digits, it is a fault to ask. Whether a deferred payload may be shown is for the caller to say; if
it is shown, it shows its computation.
-/

namespace EffectTrees

/-- A written form, if there is one. -/
abbrev Written := Except Fault (Option String)

/-- The written form of a literal. -/
def Scalar.write : Scalar → Except Fault String
  | int i => if Numeral.isWritable i then .ok (toString i) else .error .badValue
  | s => .ok s.text

/-- Puts texts between a head and a closing mark, if there are such texts. -/
def enclosed (head closing : String) (parts : Option (List String)) : Option String :=
  parts.map fun ps => head ++ Text.commaSeparated ps ++ closing

/-- The written form of a value with named parts, if all parts have one. -/
def namedParts (head : String) (parts : List (String × Option String)) : Option String :=
  enclosed (head ++ "(") ")" (parts.mapM fun p => p.2.map fun s => p.1 ++ "=" ++ s)

namespace Value

/-- The name of the type of a value. -/
def typeName : Value → String
  | scalar .null => "NoneType"
  | scalar (.bool _) => "bool"
  | scalar (.int _) => "int"
  | scalar (.str _) => "str"
  | list _ => "list"
  | tuple _ => "tuple"
  | poison => "Poisoned"
  | aborted => "Aborted"
  | payload (.resolved _) => "Resolved"
  | payload (.deferred _) => "Deferred"
  | tree (.done _) => "Done"
  | tree (.suspended _) => "Suspended"
  | tree .failed => "Failed"
  | plain (.pure _) => "Pure"
  | plain (.free _) => "Free"
  | descriptor c _ => c.name
  | function (.delayed _ _) => "partial"
  | function _ => "function"
  | builder _ => "Builder"
  | analysis _ _ => "Analysis"
  | slot _ _ _ => "Slot"
  | locator _ => "Locator"
  | cls _ => "type"
  | builtinClass _ => "type"
  | target .list => "ListTarget"
  | target .tree => "TreeTarget"
  | target (.custom _) => "Target"
  | snoc _ _ => "Snoc"
  | cons _ _ => "Cons"

end Value

section

variable (t : ClassTable) (showDeferred : Bool)

mutual

/-- The written form of a value. -/
def Value.write : Value → Written
  | .scalar s => return some (← s.write)
  | .list items => return enclosed "[" "]" (← Value.writeAll items)
  | .tuple items => return (← Value.writeAll items).map Text.tuple
  | .poison => return some "POISON"
  | .aborted => return some "ABORTED"
  | .payload p => p.write
  | .tree u => u.write
  | .plain u => u.write
  | .descriptor c fields => do
    match t.shown? c.id with
    | none => return none
    | some names =>
      let own := Value.writeFields fields
      let parts ← names.mapM fun name => do
        match t.memberOf? c.id own (fun s => return some (← s.write)) name with
        | some part => return (name, ← part)
        | none => throw .missingMember
      return namedParts c.name parts
  | .function _ => return none
  | .builder b => b.write
  | .analysis result trace => do
    let r ← Value.writeResult result
    let parts ← Value.writeAll trace
    return namedParts "Analysis" [("result", r), ("trace", enclosed "[" "]" parts)]
  | .slot name kind arity => do
    let n ← name.write
    let k ← kind.write
    return namedParts "Slot" [("name", n), ("kind", k), ("arity", ← arity.write)]
  | .locator c => return some ("Locator(" ++ c.name ++ ")")
  | .cls c => return some c.text
  | .builtinClass name => return some (TypeName.builtin name).text
  | .target .list => return some "LIST"
  | .target .tree => return some "TREE"
  | .target (.custom _) => return none
  | .snoc init last => do
    let i ← init.write
    return namedParts "Snoc" [("init", i), ("last", ← last.write)]
  | .cons head tail => do
    let h ← head.write
    return namedParts "Cons" [("head", h), ("tail", ← tail.write)]

/-- The written forms of several values, if all of them have one. -/
def Value.writeAll : List Value → Except Fault (Option (List String))
  | [] => return some []
  | v :: vs => do
    let s ← v.write
    let ss ← Value.writeAll vs
    return (· :: ·) <$> s <*> ss

/-- The written forms of named values. -/
def Value.writeFields : List (String × Value) → List (String × Written)
  | [] => []
  | (name, v) :: fields => (name, v.write) :: Value.writeFields fields

/-- The written form of the result of an analysis. -/
def Value.writeResult : Option Value → Written
  | none => return some Scalar.null.text
  | some v => return namedParts "Resolved" [("value", ← v.write)]

/-- The written form of a payload. -/
def Payload.write : Payload → Written
  | .resolved v => return namedParts "Resolved" [("value", ← v.write)]
  | .deferred f => do
    let s ← f.write
    return if showDeferred then namedParts "Deferred" [("thunk", s)] else none

/-- The written form of a tree. -/
def Tree.write : Tree → Written
  | .done p => return namedParts "Done" [("value", ← p.write)]
  | .suspended d => return namedParts "Suspended" [("descriptor", ← d.write)]
  | .failed => return namedParts "Failed" []

/-- The written form of a tree that cannot fail. -/
def PlainTree.write : PlainTree → Written
  | .pure v => return namedParts "Pure" [("value", ← v.write)]
  | .free d => return namedParts "Free" [("descriptor", ← d.write)]

/-- The written form of a builder, which shows the tree that it started from. -/
def Builder.write : Builder → Written
  | .mk u _ => return enclosed "Builder(" ")" ((← u.write).map ([·]))

end

end

end EffectTrees
