import EffectTrees.Family.Record

/-!
# Deriving slots

The slot of an effect constructor is read off the types of its fields: exactly one of the fields
that are given must refer to the continuation variable, either by holding it or by being a function
that returns it.

* `ClassTable.deriveSlot` derives the slot of a class, with the name of the field if the declaration
  gives one.
* `DerivationFault` lists the reasons why there is none, in the order in which they are looked for.
* `DerivationError.message` is their wording.
-/

namespace EffectTrees

/-- Why a class has no slot, or no locator. -/
inductive DerivationFault where
  /-- The class passes no variable on as the continuation variable. -/
  | noParameter
  /-- A name in the text of a field type is unknown. -/
  | unresolved (name : String)
  /-- A field refers to the continuation variable in a way that is not supported. -/
  | unsupported (field type param : String)
  /-- No field refers to the continuation variable. -/
  | missing (param : String)
  /-- Several fields hold the continuation. -/
  | ambiguous (fields : List String) (param : String)
  /-- The declared continuation is no field that is given. -/
  | unknownField (declared : String)
  /-- The declared continuation is not the field that holds it. -/
  | otherField (declared param slot : String)
  /-- The field that holds the continuation is not the last one, and was not declared. -/
  | notLast (slot : String)
  /-- The class is no record of an effect. -/
  | notConstructor
  /-- The family has no constructors. -/
  | noConstructors
  deriving DecidableEq, Repr, Inhabited

/-- The failure to derive a slot or a locator for a class. -/
structure DerivationError where
  className : String
  fault : DerivationFault
  deriving DecidableEq, Repr, Inhabited

namespace DerivationError

/-- A name between single quotes. -/
def inQuotes (s : String) : String := "'" ++ s ++ "'"

/-- The wording of a derivation error. -/
def message (e : DerivationError) : String :=
  let cls := inQuotes e.className
  match e.fault with
  | .noParameter =>
    "Cannot derive a locator for " ++ cls ++ ": no continuation parameter. " ++
      "Effect constructors must subclass Effect[K] with K a type variable."
  | .unresolved name =>
    "Cannot resolve the field annotations of " ++ cls ++ ": name " ++ inQuotes name ++
      " is not defined"
  | .unsupported field type param =>
    "Unsupported continuation shape in " ++ cls ++ ": field " ++ inQuotes field ++ " has type " ++
      type ++ "; expected " ++ param ++ " or Callable[[...], " ++ param ++ "]."
  | .missing param =>
    "Missing continuation parameter when deriving a locator for " ++ cls ++
      ": the constructor has no continuation slot of type " ++ param ++ "."
  | .ambiguous fields param =>
    "Ambiguous continuation slot in " ++ cls ++ ": fields " ++
      Text.commaSeparated (fields.map inQuotes) ++ " all hold " ++ param ++
      "; exactly one is allowed."
  | .unknownField declared => cls ++ " has no field named " ++ inQuotes declared ++ "."
  | .otherField declared param slot =>
    cls ++ " declares " ++ inQuotes declared ++ " as its continuation, but the " ++
      "continuation slot of type " ++ param ++ " is " ++ inQuotes slot ++ "."
  | .notLast slot =>
    "Continuation slot " ++ inQuotes slot ++ " of " ++ cls ++ " must be its last field; " ++
      "declare it explicitly with @effect(continuation=...) otherwise."
  | .notConstructor => cls ++ " is not an effect constructor."
  | .noConstructors => cls ++ " declares no effect constructors."

end DerivationError

/-! ### From field types to the slot -/

/-- A field that is given, with its type. -/
abbrev TypedField := String × Annotation

namespace Slot

/-- The slot that a field is a candidate for. -/
def ofField (v : TypeVar) (f : TypedField) : Option Slot :=
  match f.2.classify v with
  | some .direct => some ⟨f.1, .direct⟩
  | some (.function n) => some ⟨f.1, .function n⟩
  | _ => none

/-- The field refers to the continuation variable in a way that is not supported. -/
def isUnsupported (v : TypeVar) (f : TypedField) : Bool :=
  f.2.classify v = some .unsupported

/-- A slot is the one the declaration names or, if it names none, that of the last field. -/
def checkDeclared (v : TypeVar) (fields : List TypedField) (declared : Option String)
    (slot : Slot) : Except DerivationFault Slot :=
  match declared with
  | some name =>
    if !fields.any fun f => f.1 = name then .error (.unknownField name)
    else if name ≠ slot.name then .error (.otherField name v.name slot.name)
    else .ok slot
  | none =>
    if (fields.getLast?.map Prod.fst) ≠ some slot.name then .error (.notLast slot.name)
    else .ok slot

/-- The slot of a constructor with the given fields, or the first reason why there is none. -/
def ofFields (v : TypeVar) (fields : List TypedField) (declared : Option String) :
    Except DerivationFault Slot :=
  -- A use that is not supported wins over a missing or an ambiguous slot.
  match fields.find? (isUnsupported v) with
  | some f => .error (.unsupported f.1 f.2.format v.name)
  | none =>
    match fields.filterMap (ofField v) with
    | [] => .error (.missing v.name)
    | [slot] => checkDeclared v fields declared slot
    | slots => .error (.ambiguous (slots.map Slot.name) v.name)

end Slot

/-- Why no slot can be derived. -/
inductive SlotFault where
  | derivation (f : DerivationFault)
  /-- The type of a field cannot be formed. -/
  | type (f : TypeFault)
  /-- The search for the continuation variable runs out of the types that a parent is applied to. -/
  | outOfRange
  deriving DecidableEq, Repr, Inhabited

/-- An unknown name in the text of a field type is a failure of the derivation. -/
def SlotFault.ofType : TypeFault → SlotFault
  | .unknown name => derivation (.unresolved name)
  | f => type f

namespace ClassTable

variable (t : ClassTable)

/-- The types of the fields that a class and its ancestors annotate, farthest ancestor first, each
with its texts read. -/
def hints (id : Nat) : Formed (List TypedField) :=
  let written := (t.lineage id).reverse.flatMap fun k =>
    ((t.info? k).map ClassInfo.annotations).getD []
  written.mapM fun a => return (a.1, ← a.2.hint (t.textScope id))

/-- The types of the fields of a class, of which the nearest annotation counts. -/
def fieldTypes (id : Nat) : Formed (List TypedField) := do
  let nearest := (← t.hints id).reverse
  let names := (nearest.map Prod.fst).eraseDups
  (names.filterMap fun n => nearest.find? fun a => a.1 = n).mapM fun a =>
    return (a.1, ← a.2.strip)

/-- The fields of a record that are given, with their types. -/
def typedFields (id : Nat) : Formed (List TypedField) := do
  let types ← t.fieldTypes id
  let given := ((t.fields? id).getD []).filter Field.isGiven
  return given.map fun f => (f.name, (types.lookup f.name).getD .any)

/-- Derives the slot of a class. -/
def deriveSlot (id : Nat) (declared : Option String) : Except SlotFault Slot :=
  match t.search id with
  | .absent => .error (.derivation .noParameter)
  | .outOfRange => .error .outOfRange
  | .found v =>
    match t.typedFields id with
    | .error f => .error (.ofType f)
    | .ok fields => (Slot.ofFields v fields declared).mapError .derivation

/-- The slot of a class: the registered one or, for a record of an effect, the derived one. -/
def slotOf (id : Nat) : Except SlotFault Slot :=
  match (t.info? id).bind ClassInfo.slot with
  | some slot => .ok slot
  | none =>
    if (t.ref id).isEffect && t.isRecord id then t.deriveSlot id none
    else .error (.derivation .notConstructor)

end ClassTable

end EffectTrees
