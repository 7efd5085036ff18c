import EffectTrees.Descriptor.Basic

/-!
# Slots of descriptors

Every effect constructor has one slot, and a list has a slot for each item. The operations of this
module work on what the slots hold and leave all other fields alone.

* `Slot.follow` gives the content of a slot. A function slot is called with the unknown argument in
  every position.
* `fmap` applies a function to the content of each slot. A function slot is not called: its function
  is composed with the given one.
* `erase` puts the unit into every slot.
* `locate` follows the slot of a descriptor that belongs to a family.
-/

namespace EffectTrees

namespace Act

/-- The slot of a class. It is noted that the class has been asked for. -/
def slotOf (c : ClassRef) : Act Slot := do
  match (← classes).slotOf c.id with
  | .error f => fail (.ofRegistration (.ofSlot c.name f))
  | .ok slot =>
    modify fun w => { w with asked := w.asked.add c.id }
    pure slot

end Act

namespace Slot

/-- The slot as a value. -/
def toValue (s : Slot) : Value :=
  .slot (.str s.name) (.str s.kind.word) (.int s.kind.arity)

/-- The content of the slot. A function slot is called with the unknown argument in every
position. -/
def follow (call : Caller) (s : Slot) (d : Value) : Act Value := do
  let v ← d.lookup s.name
  match s.kind with
  | .direct => pure v
  | .function n => call v (List.replicate n .poison)

/-- Applies a function to the content of the slot. A function slot is composed with it, and stays
uncalled. -/
def map (call : Caller) (s : Slot) (d f : Value) : Act Value := do
  let v ← d.lookup s.name
  match s.kind with
  | .direct => do d.replaceMember s.name (← call f [v])
  | .function _ => d.replaceMember s.name (.function (.after f v))

end Slot

/-- Applies a function to the content of every slot of a descriptor. -/
def fmap (call : Caller) (d f : Value) : Act Value :=
  match d with
  | .list items => return .list (← items.mapM fun v => call f [v])
  | .descriptor c _ =>
    if c.isEffect then do (← Act.slotOf c).map call d f else Act.fail (.noSlots c.name)
  | _ => Act.fail (.noSlots d.typeName)

/-- Puts the unit into every slot of a descriptor. -/
def erase (call : Caller) (d : Value) : Act Value :=
  match d with
  | .descriptor c _ =>
    if c.isEffect then do d.replaceMember (← Act.slotOf c).name .unit
    else fmap call d (.frame .unit)
  | _ => fmap call d (.frame .unit)

/-- Follows the slot of a descriptor that belongs to the family of a class. -/
def locate (call : Caller) (family : ClassRef) (d : Value) : Act Value :=
  match d with
  | .descriptor c _ =>
    if c.isA family.id then do (← Act.slotOf c).follow call d
    else Act.fail (.foreignEffect d.typeName family.name)
  | _ => Act.fail (.foreignEffect d.typeName family.name)

/-- The locator of a family, once every constructor of the family has a slot. -/
def deriveLocator (family : ClassRef) : Act Value := do
  if !family.isEffect then Act.fail (.refused .effectClass (some family.text))
  else
    let t ← Act.classes
    match t.constructorsOf family.id with
    | [] => Act.fail (.derivation ⟨family.name, .noConstructors⟩)
    | ks =>
      ks.forM fun k => discard (Act.slotOf (t.ref k))
      pure (.locator family)

/-- Registers a class while the program runs. The slots that have been derived so far stay what
they are. -/
def registerClass (c : ClassRef) : Act Value := do
  let w ← get
  -- What has been derived so far is written down before anything changes.
  let (t, _, r) := (w.classes.settle w.asked).register c.id none
  set { w with classes := t }
  match r with
  | .ok () => pure (.cls c)
  | .error f => Act.fail (.ofRegistration f)

end EffectTrees
