import EffectTrees.Fault
import EffectTrees.Value

/-!
# Hashing values

A value that serves as a key is hashed first. The hash itself is never seen, but some values have
none: lists, and instances of a class that settles that they cannot be hashed. Larger values are
hashed part by part, from the left, and the unknown argument aborts. `Value.hash` is what becomes of
hashing a value.
-/

namespace EffectTrees

/-- What hashing a value comes to. -/
abbrev Hashed := Except Signal Unit

variable (t : ClassTable)

mutual

/-- Hashes a value. -/
def Value.hash : Value → Hashed
  | .tuple items => Value.hashAll items
  | .list _ => throw (.fault .misuse)
  | .poison => throw .abort
  | .payload p => p.hash
  | .tree u => u.hash
  | .plain u => u.hash
  | .descriptor c fields =>
    match t.hashing? c.id with
    | none => return ()
    | some .never => throw (.fault .misuse)
    | some (.byFields names) => do
      let own := Value.hashFields fields
      -- All fields are read before the first one is hashed.
      let parts ← names.mapM fun name =>
        match t.memberOf? c.id own (fun _ => return ()) name with
        | some part => return part
        | none => throw (.fault .missingMember)
      parts.forM id
  | .analysis result _ => do
    Value.hashResult result
    throw (.fault .misuse)
  | .slot name kind arity => do
    name.hash
    kind.hash
    arity.hash
  | .snoc init last => do
    init.hash
    last.hash
  | .cons head tail => do
    head.hash
    tail.hash
  | .scalar _ | .aborted | .function _ | .builder _ | .locator _ | .cls _ | .builtinClass _
  | .target _ => return ()

/-- Hashes several values. -/
def Value.hashAll : List Value → Hashed
  | [] => return ()
  | v :: vs => do
    v.hash
    Value.hashAll vs

/-- How each of several named values is hashed. -/
def Value.hashFields : List (String × Value) → List (String × Hashed)
  | [] => []
  | (name, v) :: fields => (name, v.hash) :: Value.hashFields fields

/-- Hashes the result of an analysis. -/
def Value.hashResult : Option Value → Hashed
  | none => return ()
  | some v => v.hash

/-- Hashes a payload. -/
def Payload.hash : Payload → Hashed
  | .resolved v => v.hash
  | .deferred f => f.hash

/-- Hashes a tree. -/
def Tree.hash : Tree → Hashed
  | .done p => p.hash
  | .suspended d => d.hash
  | .failed => return ()

/-- Hashes a tree that cannot fail. -/
def PlainTree.hash : PlainTree → Hashed
  | .pure v => v.hash
  | .free d => d.hash

end

end EffectTrees
