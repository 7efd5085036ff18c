import EffectTrees.Value.Display
import EffectTrees.Value.Equality
import EffectTrees.Value.Text

/-!
# Computations

A computation `Act α` runs in a world, which has the classes of the program, the log, and the
remarks that analyses make. It ends in a value or a signal and leaves a world behind, also when it
ends in a signal; or it does not end at all within the depth of calls that it was granted, and then
it leaves nothing.

Operations that call functions take the meaning of calls as an argument, a `Caller`. They are
written without recursion: what remains to be done with the content of a slot is called like any
other function. Module `Machine` ties the knot.

* `probe` turns an abort into the absence of a value, and nothing else.
-/

namespace EffectTrees

/-- A remark that an analysis makes. -/
inductive Remark where
  /-- The walk ended at a failed tree. -/
  | reachedFailure (effects : Nat)
  /-- The final value aborted. -/
  | abortedValue (effects : Nat)
  /-- The continuation of an effect looked at the argument that is not known. -/
  | dependsOnInput (typeName : String)
  deriving DecidableEq, Repr, Inhabited

/-- The wording of a remark. -/
def Remark.message : Remark → String
  | reachedFailure n => "Analysis reached a failed node after " ++ toString n ++ " effects"
  | abortedValue n => "Final value aborted after " ++ toString n ++ " effects"
  | dependsOnInput name => "Continuation of " ++ name ++ " depends on its input"

/-- What computations share. -/
structure World where
  classes : ClassTable
  /-- The classes whose derived slots have been asked for. -/
  asked : Consultations
  /-- What has been logged, latest first. -/
  log : List Value
  /-- The remarks that have been made, latest first. -/
  remarks : List Remark

/-- A computation. -/
abbrev Act := ExceptT Signal (StateT World Option)

/-- What it means to call a value with arguments. -/
abbrev Caller := Value → List Value → Act Value

namespace Act

/-- The computation that exceeds the depth it was granted. -/
def tooDeep {α : Type} : Act α := ExceptT.mk fun _ => none

/-- Ends with an abort. -/
def abort {α : Type} : Act α := throw .abort

/-- Ends with a fault. -/
def fail {α : Type} (f : Fault) : Act α := throw (.fault f)

/-- Ends with a fault of an expression. -/
def wrong {α : Type} (f : ExprFault) : Act α := fail (.expression f)

/-- Makes a remark. -/
def remark (r : Remark) : Act Unit := modify fun w => { w with remarks := r :: w.remarks }

/-- The classes as they are now. -/
def classes : Act ClassTable := do return (← get).classes

/-- The value or the fault that something comes to. -/
def ofFault {α : Type} (r : Except Fault α) : Act α :=
  match r with
  | .ok x => pure x
  | .error f => fail f

/-- The value or the signal that something comes to. -/
def ofSignal {α : Type} (r : Except Signal α) : Act α :=
  match r with
  | .ok x => pure x
  | .error s => throw s

/-- Writes a value to the log, as it is displayed now. -/
def log (v : Value) : Act Unit := do
  let shown ← ofFault (v.display (← classes))
  modify fun w => { w with log := shown :: w.log }

/-- Refuses a value that does not meet a requirement. -/
def refuse {α : Type} (requirement : Requirement) (v : Value) : Act α := do
  let text ← ofFault (v.write (← classes) true)
  fail (.refused requirement text)

/-- Compares two values. -/
def equal (v w : Value) : Act Bool := do ofSignal (v.equal? (← classes) w)

end Act

/-- Runs a computation whose value is wanted as far as it is known: an abort, and the unknown
argument itself, give nothing. Faults pass. -/
def probe (act : Act Value) : Act (Option Value) :=
  tryCatch
    (do
      let v ← act
      if v.isPoison then Act.abort else pure (some v))
    fun s =>
      match s with
      | .abort => pure none
      | .fault f => Act.fail f

/-- A value that is known is the outcome. -/
theorem probe_pure {v : Value} (known : v.isPoison = false) :
    probe (pure v) = pure (some v) := by
  simp only [probe, pure_bind, known, Bool.false_eq_true, if_false]
  rfl

/-- The unknown argument counts as an abort. -/
@[simp] theorem probe_poison : probe (pure .poison) = pure none := rfl

/-- An abort is no outcome. -/
@[simp] theorem probe_abort : probe Act.abort = pure none := rfl

/-- A fault passes. -/
@[simp] theorem probe_fail (f : Fault) : probe (Act.fail f) = Act.fail f := rfl

end EffectTrees
