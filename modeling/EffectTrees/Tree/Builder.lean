import EffectTrees.Tree.Basic

/-!
# Builders

A builder notes the functions that are to be bound to a tree and binds them all in one go when it is
built. So a long chain of binds costs one pass, and nothing is evaluated before.

* `Builder.bind`, `Builder.map`, `Builder.andThen` and `Builder.alt` only note what is to be done.
* `Builder.materialize` binds a queue of functions to a tree. Where the tree is finished the first
  function of the queue goes on, and a builder that it returns puts its own pending functions in
  front of the queue.
-/

namespace EffectTrees

namespace Builder

/-- Notes a function to be bound. -/
def bind (b : Builder) (f : Value) : Builder := mk b.tree (f :: b.pending)

/-- Notes a function to be applied to the results. -/
def map (b : Builder) (f : Value) : Builder := b.bind (.frame (.finish f))

/-- Notes another builder to go on with, whatever the results. -/
def andThen (b : Builder) (other : Value) : Builder := b.bind (.frame (.always other))

/-- A builder of the results of the first builder or, if its tree is the failed one, of the
second. -/
def alt (b : Builder) (other : Value) : Builder :=
  (of (.tree (Tree.pure .null))).bind (.frame (.choose b other))

/-- The functions that are still to be bound, oldest first, in front of a queue. -/
def queueBefore (b : Builder) (queue : List Value) : List Value :=
  b.pending.reverse ++ queue

@[simp] theorem tree_bind (b : Builder) (f : Value) : (b.bind f).tree = b.tree := rfl

@[simp] theorem queueBefore_of (t : Value) (queue : List Value) :
    (of t).queueBefore queue = queue := rfl

/-- What is bound last comes last in the queue. -/
@[simp] theorem queueBefore_bind (b : Builder) (f : Value) (queue : List Value) :
    (b.bind f).queueBefore queue = b.queueBefore (f :: queue) := by
  simp [queueBefore, bind, pending]

variable (call : Caller)

/-- The builder that a function makes of the content of a payload, unless one of the two aborts. -/
def next (p : Payload) (f : Value) : Act (Option Builder) := do
  match ← p.resolve call with
  | none => pure none
  | some v =>
    match ← probe (call f [v]) with
    | none => pure none
    | some (.tree t) => pure (some (of (.tree t)))
    | some (.builder b) => pure (some b)
    | some other => Act.refuse .builderOrTree other

/-- Binds a queue of functions to a tree. -/
def materialize (queue : List Value) (node : Value) : Act Value :=
  match queue with
  | [] => pure node
  | f :: rest =>
    match node with
    | .tree (.done p) => do
      match ← next call p f with
      | none => pure (.tree .failed)
      -- What the new builder has pending comes before the rest of the queue.
      | some b => call (.frame (.materialize (b.queueBefore rest))) [b.tree]
    | .tree (.suspended d) =>
      return .tree (.suspended (← fmap call d (.frame (.materialize queue))))
    | _ => pure node

/-- The tree that a builder builds. -/
def build (b : Builder) : Act Value := materialize call (b.queueBefore []) b.tree

/-- Builds the left choice, and takes the other one if that is the failed tree. -/
def choose (left : Builder) (other : Value) : Act Value := do
  match ← left.build call with
  | .tree .failed => pure other
  | t => pure (.builder (of t))

end Builder

end EffectTrees
