import EffectTrees.Tree.Basic

/-!
# Analysis

An analysis walks a tree from its root without running effects, and records each effect that it
comes by, with the unit in its slot. A stepper says how to get from a descriptor to what follows;
it runs on probation. The walk ends

* at a finished tree, with the content of its payload for a result if that can be computed;
* at a failed tree, or at an effect whose continuation depends on the unknown argument, without a
  result.

Each way to end without a result is remarked upon.
-/

namespace EffectTrees

variable (call : Caller)

namespace Analysis

/-- One step of the walk: `trace` has the effects so far, latest first. -/
def walk (stepper : Value) (trace : List Value) (node : Value) : Act Value :=
  match node with
  | .tree .failed => do
    Act.remark (.reachedFailure trace.length)
    pure (.analysis none trace.reverse)
  | .tree (.done p) => do
    match ← p.resolve call with
    | some v => pure (.analysis (some v) trace.reverse)
    | none =>
      Act.remark (.abortedValue trace.length)
      pure (.analysis none trace.reverse)
  | .tree (.suspended d) => do
    -- The effect is recorded before the stepper runs, so it is in the trace even if the walk ends.
    let trace := (← erase call d) :: trace
    match ← probe (call stepper [d]) with
    | some next => call (.frame (.analyze stepper trace)) [next]
    | none =>
      Act.remark (.dependsOnInput d.typeName)
      pure (.analysis none trace.reverse)
  | _ => Act.refuse .tree node

/-- Analyses a tree. -/
def analyze (stepper tree : Value) : Act Value := walk call stepper [] tree

/-- The locator of all effect classes. -/
def anyLocator : Value := .locator .effect

end Analysis

end EffectTrees
