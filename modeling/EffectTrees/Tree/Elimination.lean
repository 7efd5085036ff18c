import EffectTrees.Member

/-!
# Eliminating trees

A tree is turned into something else by an algebra, which consumes descriptors whose slots hold the
outcomes of what follows, or by a transformation of descriptors into a target that can sequence.
A target says what a value is, what absence is, and, if it can sequence, how to go on.

* `Tree.iterate` and `Tree.iterateIn` tear a tree down with an algebra, innermost effects first.
* `Tree.iterateLater` hands the algebra what follows without having evaluated it.
* `Tree.fold` interprets a tree in a target that sequences.
* `Tree.hoist` transforms every descriptor and keeps the rest.
-/

namespace EffectTrees

variable (call : Caller)

namespace Tree

/-- Tears a tree down with an algebra. The null value stands for absence. -/
def iterate (algebra node : Value) : Act Value :=
  match node with
  | .tree (.done p) => return (← p.resolve call).getD .null
  | .tree (.suspended d) => do call algebra [← fmap call d (.frame (.iterate algebra))]
  | _ => return .null

/-- What a target makes of the payload of a finished tree. -/
def leafIn (target : Value) (p : Payload) : Act Value := do
  match ← p.resolve call with
  | some v => target.invoke call .pure [v]
  | none => target.invoke call .empty []

/-- Tears a tree down with an algebra of values of a target. -/
def iterateIn (algebra target node : Value) : Act Value :=
  match node with
  | .tree (.done p) => leafIn call target p
  | .tree (.suspended d) => do
    call algebra [← fmap call d (.frame (.iterateIn algebra target))]
  | _ => target.invoke call .empty []

/-- The descriptor with each slot holding a function that goes on with the iteration. A function
slot keeps its arguments; the other slots take none. -/
def postponeSlots (algebra target d : Value) : Act Value := do
  let postponed := fmap call d (.frame (.postpone algebra target))
  match d with
  | .descriptor c _ =>
    if c.isEffect then
      match (← Act.slotOf c).kind with
      | .function _ => fmap call d (.frame (.iterateLater algebra target))
      | .direct => postponed
    else postponed
  | _ => postponed

/-- Tears a tree down with an algebra that asks for what follows when it needs it. -/
def iterateLater (algebra target node : Value) : Act Value :=
  match node with
  | .tree (.done p) => leafIn call target p
  | .tree (.suspended d) => do call algebra [← postponeSlots call algebra target d]
  | _ => target.invoke call .empty []

/-- Interprets a tree in a target. The transformation turns a descriptor into a computation of the
target that produces the content of its slot. -/
def fold (transform target node : Value) : Act Value :=
  match node with
  | .tree (.done p) => leafIn call target p
  | .tree (.suspended d) => do
    -- A target that cannot sequence is found out before the transformation runs.
    target.requireMember .bind
    let m ← call transform [d]
    target.invoke call .bind [m, .frame (.fold transform target)]
  | _ => target.invoke call .empty []

/-- Collapses a tree whose descriptors are computations of the target themselves. -/
def retract (target node : Value) : Act Value := fold call (.frame .identity) target node

/-- Transforms every descriptor of a tree and leaves all else alone. -/
def hoist (transform node : Value) : Act Value :=
  match node with
  | .tree (.suspended d) => do
    let d' ← call transform [d]
    return .tree (.suspended (← fmap call d' (.frame (.hoist transform))))
  | _ => return node

end Tree

end EffectTrees
