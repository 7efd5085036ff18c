import EffectTrees.Expr
import EffectTrees.Family.Basic

/-!
# Values

What expressions evaluate to. Everything is first-order data: a function is a closure of an
expression, or one of a few ways of composing functions that the operations on trees need, so that a
tree with functions in it is a finite value. What such a function does when it is called is defined
apart from what it is (module `Machine`).

* `Tree` has three states: done with a payload, suspended on a descriptor, and failed.
* `Payload` is a value, or a computation of one that has not been run.
* `Value.poison` stands for an argument that is not known. It may be passed on, and any attempt to
  look at it aborts.
* `Function.frame` is a function of one argument described by a `Frame`: what an operation still has
  to do with the content of a slot.
-/

namespace EffectTrees

mutual

/-- A value. -/
inductive Value where
  | scalar (s : Scalar)
  | list (items : List Value)
  | tuple (items : List Value)
  /-- The argument that is not known. -/
  | poison
  /-- The outcome of a computation that looked at the unknown argument. -/
  | aborted
  | payload (p : Payload)
  | tree (t : Tree)
  | plain (t : PlainTree)
  /-- An instance of a class, with what it was given when it was made. -/
  | descriptor (cls : ClassRef) (fields : List (String × Value))
  | function (f : Function)
  | builder (b : Builder)
  | analysis (result : Option Value) (trace : List Value)
  | slot (name kind arity : Value)
  /-- The locator of the family of a class. -/
  | locator (cls : ClassRef)
  | cls (c : ClassRef)
  /-- One of the fixed classes, by name. -/
  | builtinClass (name : String)
  | target (t : Target)
  /-- A list that grows at its end. -/
  | snoc (init last : Value)
  /-- A list that is taken apart from its front. -/
  | cons (head tail : Value)

/-- The content of a finished tree. -/
inductive Payload where
  | resolved (value : Value)
  /-- A function of no arguments that computes the content. -/
  | deferred (thunk : Value)

/-- A computation whose pending effects are data. -/
inductive Tree where
  | done (payload : Payload)
  /-- One pending effect. The descriptor holds the rest of the computation. -/
  | suspended (descriptor : Value)
  | failed

/-- A computation that cannot fail. -/
inductive PlainTree where
  | pure (value : Value)
  | free (descriptor : Value)

/-- A tree under construction, with the functions that are still to be bound to it, newest first. -/
inductive Builder where
  | mk (tree : Value) (pending : List Value)

/-- What a tree can be turned into. -/
inductive Target where
  | list
  | tree
  /-- A target made of functions. -/
  | custom (members : List (String × Value))

/-- A function. -/
inductive Function where
  /-- A function of the program, with the variables around it. -/
  | closure (params : List String) (body : Expr) (env : List (String × Value))
  /-- The function that aborts, whatever its arguments. -/
  | betray
  /-- The function of one argument that a frame describes. -/
  | frame (k : Frame)
  /-- The function of no arguments that passes `content` to the frame. -/
  | delayed (k : Frame) (content : Value)
  /-- The function that passes its arguments to `inner` and the result to `next`. -/
  | after (next inner : Value)
  /-- The function of one argument that registers a class. -/
  | register

/-- What an operation does with one value. -/
inductive Frame where
  | identity
  /-- Gives the unit, whatever the value. -/
  | unit
  /-- Gives `other`, whatever the value. -/
  | always (other : Value)
  | pure
  | plainPure
  | map (f : Value)
  | bind (f : Value)
  | ap (argument : Value)
  /-- Applies `f` and finishes with the result. -/
  | finish (f : Value)
  | iterate (algebra : Value)
  | iterateIn (algebra target : Value)
  | iterateLater (algebra target : Value)
  /-- Puts the iteration over the value off. -/
  | postpone (algebra target : Value)
  | fold (transform target : Value)
  | hoist (transform : Value)
  | embed
  | analyze (stepper : Value) (trace : List Value)
  /-- Binds the queue of functions, oldest first, to the value. -/
  | materialize (queue : List Value)
  /-- Builds the left choice, and takes the other one if that fails. -/
  | choose (left : Builder) (other : Value)

end

instance : Inhabited Value := ⟨.scalar .null⟩

namespace Value

/-- The null value. -/
def null : Value := scalar .null

/-- A truth value. -/
def bool (b : Bool) : Value := scalar (.bool b)

/-- An integer. -/
def int (i : Int) : Value := scalar (.int i)

/-- A text. -/
def str (s : String) : Value := scalar (.str s)

/-- The empty tuple. -/
def unit : Value := tuple []

/-- The function of one argument that a frame describes. -/
def frame (k : Frame) : Value := function (.frame k)

/-- The result of an analysis as a value. -/
def ofResult : Option Value → Value
  | none => null
  | some v => payload (.resolved v)

/-- The value is the unknown argument. -/
def isPoison : Value → Bool
  | poison => true
  | _ => false

end Value

namespace Tree

/-- The finished tree with a value. -/
def pure (v : Value) : Tree := done (.resolved v)

/-- The finished tree whose value is computed when it is asked for. -/
def defer (thunk : Value) : Tree := done (.deferred thunk)

/-- The finished tree that aborts when its value is asked for. -/
def treachery : Tree := defer (.function .betray)

/-- The finished tree with `v` for its payload, or with the payload that `v` already is. -/
def ofDone : Value → Tree
  | .payload p => done p
  | v => pure v

end Tree

namespace Builder

/-- The tree a builder started from. -/
def tree : Builder → Value
  | mk t _ => t

/-- The functions that are still to be bound, newest first. -/
def pending : Builder → List Value
  | mk _ fs => fs

/-- A builder with nothing pending. -/
def of (tree : Value) : Builder := mk tree []

end Builder

end EffectTrees
