import EffectTrees.Family.Registration

/-!
# Faults and signals

A computation ends in a value or in a signal. One signal is the *abort*: something looked at the
argument that is not known. The others are *faults*, each with its cause; a fault passes through
every operation on trees unchanged. Faults are of three sorts: an expression is wrong, an operation
on trees refuses a value, or a value lacks what is asked of it.
-/

namespace EffectTrees

/-- What is wrong with an expression. -/
inductive ExprFault where
  /-- The variable is not bound. -/
  | unbound (name : String)
  /-- A function is called with another number of arguments. -/
  | arity
  /-- The value that is called is no function. -/
  | notFunction
  /-- The operation is unknown, or does not accept its operands. -/
  | operator (name : String)
  /-- The operation on trees is unknown, or takes another number of arguments. -/
  | library (name : String)
  /-- The value has no such field. -/
  | field (name : String)
  /-- The class is unknown. -/
  | cls (name : String)
  /-- It is no expression at all. -/
  | malformed
  deriving DecidableEq, Repr, Inhabited

/-- The wording of what is wrong with an expression. -/
def ExprFault.message : ExprFault → String
  | unbound name => "var " ++ name
  | arity => "arity"
  | notFunction => "call"
  | operator name => "op " ++ name
  | library name => "fp " ++ name
  | field name => "get " ++ name
  | cls name => "class " ++ name
  | malformed => "expression"

/-- What an operation on trees requires of a value that it was given. -/
inductive Requirement where
  | tree
  | plainTree
  | payload
  | effectClass
  /-- A function bound to a builder returns a builder or a tree. -/
  | builderOrTree
  /-- What is registered is an effect class. -/
  | registrable
  deriving DecidableEq, Repr, Inhabited

/-- The first words of the message about a value that does not meet a requirement. -/
def Requirement.message : Requirement → String
  | tree => "Expected an EffectTree"
  | plainTree => "Expected a Pure or Free tree"
  | payload => "Expected Resolved or Deferred payload"
  | effectClass => "Expected an Effect subclass"
  | builderOrTree => "Continuation must return a Builder or EffectTree"
  | registrable => "@effect must decorate an Effect subclass"

/-- Why a computation failed. -/
inductive Fault where
  | expression (f : ExprFault)
  /-- A fault that the program raises itself. -/
  | raised (kind message : String)
  | derivation (e : DerivationError)
  /-- The values of the type have no continuation slots. -/
  | noSlots (typeName : String)
  /-- A value does not meet a requirement. Its text is missing if it has none. -/
  | refused (requirement : Requirement) (text : Option String)
  /-- A descriptor does not belong to the family of a locator. -/
  | foreignEffect (typeName family : String)
  /-- A value has no such member. -/
  | missingMember
  /-- A value is used as what it is not. -/
  | misuse
  | divisionByZero
  | outOfRange
  /-- A value of the right type is not acceptable. -/
  | badValue
  /-- A field that is guarded is assigned to. -/
  | guarded
  /-- A number is too large for what it counts. -/
  | tooLarge
  /-- A text or a list would be too long to be held. -/
  | tooLong
  /-- A type cannot be formed. -/
  | type (f : TypeFault)
  deriving DecidableEq, Repr, Inhabited

namespace Fault

/-- The fault that the failure to register a class is. -/
def ofRegistration : RegistrationFault → Fault
  | .notEffect c => refused .registrable (some c.text)
  | .notRecord => misuse
  | .type f => type f
  | .derivation e => derivation e
  | .outOfRange => outOfRange

/-- The wording of a fault, if it has one. -/
def message : Fault → Option String
  | expression f => some f.message
  | raised _ message => some message
  | derivation e => some e.message
  | noSlots typeName =>
    some ("No functor instance for " ++ DerivationError.inQuotes typeName ++ ".")
  | refused requirement text =>
    text.map fun s => requirement.message ++ ", got " ++ s ++ "."
  | foreignEffect typeName family =>
    some (DerivationError.inQuotes typeName ++ " is not an effect of type " ++
      DerivationError.inQuotes family ++ ".")
  | missingMember | misuse | divisionByZero | outOfRange | badValue | guarded | tooLarge | tooLong
  | type _ => none

end Fault

/-- How a computation ends without a value. -/
inductive Signal where
  /-- Something looked at the argument that is not known. -/
  | abort
  | fault (f : Fault)
  deriving DecidableEq, Repr, Inhabited

end EffectTrees
