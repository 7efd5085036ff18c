/-!
# Slots

Where the continuation of an effect descriptor lives: in a field that holds it, or in a field that
holds a function returning it.
-/

namespace EffectTrees

/-- How a field holds the continuation. -/
inductive SlotKind where
  /-- The field is the continuation. -/
  | direct
  /-- The field is a function of so many arguments, and its result is the continuation. -/
  | function (arity : Nat)
  deriving DecidableEq, Repr, Inhabited

namespace SlotKind

/-- The word for a kind of slot. -/
def word : SlotKind → String
  | direct => "direct"
  | function _ => "function"

/-- The number of arguments that a function slot takes; a direct slot takes none. -/
def arity : SlotKind → Nat
  | direct => 0
  | function n => n

end SlotKind

/-- The continuation slot of an effect constructor. -/
structure Slot where
  name : String
  kind : SlotKind
  deriving DecidableEq, Repr, Inhabited

end EffectTrees
