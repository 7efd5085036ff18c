import EffectTrees.Descriptor.Slots

/-!
# Effect trees

Trees are combined without running effects. Whatever a combination needs to know of a finished tree
is computed on probation: a payload that turns out to look at the unknown argument makes the result
a failed tree, and so does a function that aborts.

* `Payload.resolve` computes a payload on probation.
* `Tree.map`, `Tree.bind` and `Tree.ap` work on the results of a tree. On a suspended tree they give
  the work to what the descriptor holds, so a function slot is not called.
* `Tree.alt` takes another tree in the place of a failed one.
-/

namespace EffectTrees

variable (call : Caller)

/-- The content of a payload. -/
def Payload.force : Payload → Act Value
  | resolved v => pure v
  | deferred f => call f []

/-- The content of a payload, if computing it does not abort. -/
def Payload.resolve (p : Payload) : Act (Option Value) := probe (p.force call)

/-- The content of a value that must be a payload. -/
def forcePayload (v : Value) : Act Value :=
  match v with
  | .payload p => p.force call
  | _ => Act.refuse .payload v

/-- The tree that a computation gives, or the failed tree if it aborts. -/
def guarded (act : Act Value) : Act Value := do
  return (← probe act).getD (.tree .failed)

namespace Tree

/-- Applies a function to the results of a tree. -/
def map (t : Tree) (f : Value) : Act Value :=
  match t with
  | done p => do
    match ← p.resolve call with
    | some v => guarded do return .tree (pure (← call f [v]))
    | none => return .tree failed
  | suspended d => return .tree (suspended (← fmap call d (.frame (.map f))))
  | failed => return .tree failed

/-- Goes on from the results of a tree with the tree that a function makes of them. -/
def bind (t : Tree) (f : Value) : Act Value :=
  match t with
  | done p => do
    match ← p.resolve call with
    | some v => guarded (call f [v])
    | none => return .tree failed
  | suspended d => return .tree (suspended (← fmap call d (.frame (.bind f))))
  | failed => return .tree failed

/-- Applies the functions that one tree results in to the results of another. -/
def ap (t : Tree) (u : Value) : Act Value :=
  match t, u with
  | failed, _ => return .tree failed
  | done p, .tree (done q) => do
    -- Both payloads are computed, also when the first one aborts.
    let f ← p.resolve call
    let v ← q.resolve call
    match f, v with
    | some f, some v => guarded do return .tree (pure (← call f [v]))
    | _, _ => return .tree failed
  | done p, .tree (suspended d) => do
    match ← p.resolve call with
    | some f => return .tree (suspended (← fmap call d (.frame (.map f))))
    | none => return .tree failed
  | suspended d, _ => return .tree (suspended (← fmap call d (.frame (.ap u))))
  | done _, _ => return .tree failed

/-- The tree itself or, if it is the failed tree, the other one. -/
def alt (t : Tree) (other : Value) : Value :=
  match t with
  | failed => other
  | _ => .tree t

/-- The suspended tree that performs a single effect and finishes with what fills its slot. -/
def lift (d : Value) : Act Value :=
  return .tree (suspended (← fmap call d (.frame .pure)))

end Tree

end EffectTrees
