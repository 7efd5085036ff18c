import EffectTrees.Family.Closure

/-!
# Registering constructors

Registering a class turns it into a frozen record, unless it is a record already, and derives its
slot. A failed registration leaves a slot that was registered before in place.

A constructor that was never registered has its slot derived when it is first asked for, and keeps
it from then on. Since only a registration changes what derivation looks at, it is enough to note
which classes have been asked for (`Consultations`), and to write their slots down before the next
registration (`ClassTable.settle`).
-/

namespace EffectTrees

/-- Why a class cannot be registered. -/
inductive RegistrationFault where
  /-- The class is no effect class. -/
  | notEffect (cls : ClassRef)
  /-- The class cannot become a record. -/
  | notRecord
  /-- The class, or the slot, has a type that cannot be formed. -/
  | type (f : TypeFault)
  | derivation (e : DerivationError)
  /-- The search for the continuation variable runs out of the types that a parent is applied to. -/
  | outOfRange
  deriving DecidableEq, Repr, Inhabited

/-- The fault that the failure to derive the slot of a class is. -/
def RegistrationFault.ofSlot (className : String) : SlotFault → RegistrationFault
  | .derivation f => .derivation ⟨className, f⟩
  | .type f => .type f
  | .outOfRange => .outOfRange

/-- A remark that a registration makes. -/
inductive Warning where
  /-- The registered record can be changed. -/
  | mutableRecord (className : String)
  deriving DecidableEq, Repr, Inhabited

/-- The wording of a warning. -/
def Warning.message : Warning → String
  | .mutableRecord name =>
    "RuntimeWarning: Effect " ++ name ++ " is a mutable dataclass; descriptors embedded in " ++
      "effect trees should be frozen."

/-- The classes whose derived slots have been asked for. -/
abbrev Consultations := Nat → Bool

namespace Consultations

/-- No class has been asked for. -/
def none : Consultations := fun _ => false

/-- Notes that a class has been asked for. -/
def add (c : Consultations) (id : Nat) : Consultations :=
  if c id then c else fun k => k = id || c k

theorem add_apply (c : Consultations) (id k : Nat) : c.add id k = (k = id || c k) := by
  by_cases h : c id = true
  · by_cases hk : k = id <;> simp [add, h, hk]
  · simp [add, h]

end Consultations

namespace ClassTable

variable (t : ClassTable)

/-- Writes down the slots of the classes that have been asked for. -/
def settle (asked : Consultations) : ClassTable :=
  { t with
    classes := t.classes.mapIdx fun id c =>
      if asked id && c.slot.isNone then { c with slot := (t.slotOf id).toOption } else c }

/-- Makes a class a frozen record unless it is a record already. The answer has the remarks made on
the way and says whether the class is a record now. -/
def ensureRecord (id : Nat) : ClassTable × List Warning × Bool :=
  match (t.info? id).bind (·.layout.entries) with
  | none =>
    let (t', ok) := t.makeRecord id true
    (t', [], ok)
  | some _ => (t, if t.isFrozen id then [] else [.mutableRecord (t.ref id).name], true)

/-- Registers a class, with the name of its continuation if the registration gives one. -/
def register (id : Nat) (declared : Option String) :
    ClassTable × List Warning × Except RegistrationFault Unit :=
  let c := t.ref id
  if !c.isEffect then (t, [], .error (.notEffect c))
  else
    let (t', warnings, ok) := t.ensureRecord id
    if !ok then (t', warnings, .error .notRecord)
    else
      match t'.deriveSlot id declared with
      | .error f => (t', warnings, .error (.ofSlot c.name f))
      | .ok slot => (t'.update id fun c => { c with slot := some slot }, warnings, .ok ())

end ClassTable

end EffectTrees
