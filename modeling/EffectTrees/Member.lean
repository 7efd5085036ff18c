import EffectTrees.Tree.Builder
import EffectTrees.Value.Hashing

/-!
# Members

Trees, builders, targets and slots have operations of their own, which are reached through the value
they belong to. Which operation a name stands for depends on that value: binding a function to a
tree is one thing, and binding it to a builder another.

* `Value.requireMember` says whether a value has an operation at all. This is found out before the
  arguments are looked at.
* `Value.invoke` runs an operation. A known operation with another number of arguments is misused.
-/

namespace EffectTrees

/-- The operations that values may have. -/
inductive Member where
  | map | bind | ap | alt | andThen | build | pure | empty | fail | send | of | follow | replace
  deriving DecidableEq, Repr, Inhabited

/-- The name of an operation, as members of targets and fields of instances are named. -/
def Member.name : Member → String
  | map => "map"
  | bind => "bind"
  | ap => "ap"
  | alt => "alt"
  | andThen => "then"
  | build => "build"
  | pure => "pure"
  | empty => "empty"
  | fail => "fail"
  | send => "send"
  | of => "of"
  | follow => "follow"
  | replace => "replace"

namespace Value

/-- The items of a value that can be gone through. -/
def items : Value → Act (List Value)
  | list xs => Pure.pure xs
  | tuple xs => Pure.pure xs
  | scalar (.str s) => Pure.pure (s.toList.map fun c => str c.toString)
  | analysis r tr => Pure.pure [ofResult r, list tr]
  | poison => Act.abort
  | _ => Act.fail .misuse

/-- The name that a value is, where a name is needed. -/
def asName : Value → Act String
  | scalar (.str s) => Pure.pure s
  | _ => Act.fail .misuse

/-- Whether a slot with the given word for its kind is a direct one. -/
def isDirectWord : Value → Act Bool
  | scalar (.str s) => Pure.pure (s = SlotKind.direct.word)
  | poison => Act.abort
  | _ => Pure.pure false

/-- The greatest number that can count anything. -/
def countLimit : Int := 0x7fffffffffffffff

/-- The greatest number of arguments that can be held. -/
def argumentLimit : Int := 0x1000000000

/-- The number of arguments that a value stands for. -/
def asArity : Value → Act Nat
  | scalar (.int i) =>
    if i > countLimit ∨ i < -countLimit - 1 then Act.fail .tooLarge
    else if i > argumentLimit then Act.fail .tooLong
    else Pure.pure i.toNat
  | scalar (.bool b) => Pure.pure b.toNat
  | poison => Act.abort
  | _ => Act.fail .misuse

/-- A copy of a value with one member changed. What is no name is hashed before it is refused. -/
def replaceNamed (d name new : Value) : Act Value := do
  match name with
  | scalar (.str n) => d.replaceMember n new
  | _ =>
    Act.ofSignal (name.hash (← Act.classes))
    Act.fail .misuse

variable (call : Caller)

/-- The operations of a slot that is given as a value. -/
def invokeSlot (name kind arity : Value) (m : Member) (args : List Value) : Act Value :=
  match m, args with
  | .follow, [d] => do
    let v ← d.lookup (← name.asName)
    if ← kind.isDirectWord then Pure.pure v
    else call v (List.replicate (← arity.asArity) poison)
  | .replace, [d, v] => d.replaceNamed name v
  | .map, [d, f] => do
    let n ← name.asName
    let v ← d.lookup n
    if ← kind.isDirectWord then d.replaceMember n (← call f [v])
    else d.replaceMember n (function (.after f v))
  | .follow, _ | .replace, _ | .map, _ => Act.fail .misuse
  | _, _ => Act.fail .missingMember

/-- The operations of a tree. -/
def invokeTree (t : Tree) (m : Member) (args : List Value) : Act Value :=
  match m, args with
  | .map, [f] => t.map call f
  | .bind, [f] => t.bind call f
  | .ap, [u] => t.ap call u
  | .alt, [u] => Pure.pure (t.alt u)
  | .map, _ | .bind, _ | .ap, _ | .alt, _ => Act.fail .misuse
  | _, _ => Act.fail .missingMember

/-- The operations of a builder, among them the ways to start another one. -/
def invokeBuilder (b : Builder) (m : Member) (args : List Value) : Act Value :=
  match m, args with
  | .bind, [f] => Pure.pure (builder (b.bind f))
  | .map, [f] => Pure.pure (builder (b.map f))
  | .andThen, [u] => Pure.pure (builder (b.andThen u))
  | .alt, [u] => Pure.pure (builder (b.alt u))
  | .build, [] => b.build call
  | .pure, [v] => Pure.pure (builder (.of (tree (Tree.pure v))))
  | .fail, [] => Pure.pure (builder (.of (tree .failed)))
  | .send, [d] => return builder (.of (← Tree.lift call d))
  | .of, [t] => Pure.pure (builder (.of t))
  | .bind, _ | .map, _ | .andThen, _ | .alt, _ | .build, _ | .pure, _ | .fail, _ | .send, _
  | .of, _ => Act.fail .misuse
  | _, _ => Act.fail .missingMember

/-- Goes on from each item of a value with the items that a function makes of it. -/
def flatMapItems (v f : Value) : Act Value := do
  let parts ← (← v.items).mapM fun x => do (← call f [x]).items
  return list parts.flatten

/-- The operations of the target of lists. -/
def invokeListTarget (m : Member) (args : List Value) : Act Value :=
  match m, args with
  | .pure, [v] => Pure.pure (list [v])
  | .empty, [] => Pure.pure (list [])
  | .bind, [v, f] => flatMapItems call v f
  | .pure, _ | .empty, _ | .bind, _ => Act.fail .misuse
  | _, _ => Act.fail .missingMember

/-- The operations of the target of trees. -/
def invokeTreeTarget (m : Member) (args : List Value) : Act Value :=
  match m, args with
  | .pure, [v] => Pure.pure (tree (Tree.pure v))
  | .empty, [] => Pure.pure (tree .failed)
  | .bind, [v, f] => call (frame (.bind f)) [v]
  | .pure, _ | .empty, _ | .bind, _ => Act.fail .misuse
  | _, _ => Act.fail .missingMember

/-- Says whether a value has an operation, by failing if it has not. -/
def requireMember (v : Value) (m : Member) : Act Unit :=
  let require (known : List Member) : Act Unit :=
    if m ∈ known then Pure.pure () else Act.fail .missingMember
  match v with
  | tree _ => require [.map, .bind, .ap, .alt]
  | builder _ => require [.map, .bind, .andThen, .alt, .build, .pure, .fail, .send, .of]
  | target .list | target .tree => require [.pure, .empty, .bind]
  | target (.custom members) =>
    if members.any fun f => f.1 = m.name then Pure.pure () else Act.fail .missingMember
  | slot _ _ _ => require [.map, .follow, .replace]
  | poison => Act.abort
  | _ => discard (v.lookup m.name)

/-- Runs an operation of a value. -/
def invoke (v : Value) (m : Member) (args : List Value) : Act Value :=
  match v with
  | tree t => invokeTree call t m args
  | builder b => invokeBuilder call b m args
  | target .list => invokeListTarget call m args
  | target .tree => invokeTreeTarget call m args
  | target (.custom members) =>
    -- Of several members of one name the last one counts.
    match fieldAt? members.reverse m.name with
    | some f => call f args
    | none => Act.fail .missingMember
  | slot name kind arity => invokeSlot call name kind arity m args
  | poison => Act.abort
  | _ => do call (← v.lookup m.name) args

end Value

end EffectTrees
