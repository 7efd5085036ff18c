import EffectTrees.Frame

/-!
# Operations on trees by name

The library that programs call: constructors, the operations on trees and builders, eliminations and
analyses, and what there is to ask about effect classes. `Library.run` finds an operation by its
name and the number of its arguments; if there is none, the expression is wrong.
-/

namespace EffectTrees

namespace Library

/-- The version of the library. -/
def version : String := "0.1.0"

/-- The greatest number of arguments that the aborting function is called with. -/
def betrayLimit : Nat := 8

/-- The outcome of a computation on probation, as a value. -/
def ofProbe : Option Value → Value
  | some v => .payload (.resolved v)
  | none => .aborted

/-- Puts the items of a list that grows at its end in front of another list. -/
def prepend : Value → Value → Act Value
  | .scalar .null, rest => pure rest
  | .snoc i l, rest => prepend i (.cons l rest)
  | .poison, _ => Act.abort
  | _, _ => Act.fail .missingMember

/-- The choice between two trees, or two builders. -/
def either (call : Caller) (v w : Value) : Act Value :=
  match v, w with
  | .tree _, _ | .builder _, _ => v.invoke call .alt [w]
  | .poison, _ | _, .poison => Act.abort
  | _, _ => Act.fail .misuse

/-- The slot of a class. -/
def slotOf (v : Value) : Act Value :=
  match v with
  | .cls c => return (← Act.slotOf c).toValue
  | .builtinClass name => Act.fail (.derivation ⟨name, .notConstructor⟩)
  | .descriptor _ _ | .function _ | .locator _ | .target _ | .aborted => Act.fail .misuse
  | _ => Act.fail .missingMember

/-- The locator of the family of a class. -/
def locatorOf (v : Value) : Act Value :=
  match v with
  | .cls c => deriveLocator c
  | _ => Act.refuse .effectClass v

/-- Registers a class. -/
def registerValue (v : Value) : Act Value :=
  match v with
  | .cls c => registerClass c
  | _ => Act.refuse .registrable v

/-- Registers a class or, if none is given, gives the function that does. -/
def register (v : Value) : Act Value :=
  match v with
  | .scalar .null => return .function .register
  | _ => registerValue v

variable (call : Caller)

/-- Values and constructors. -/
def constructor? (name : String) (args : List Value) : Option (Act Value) :=
  match name, args with
  | "FAILED", [] | "Failed", [] => some (return .tree .failed)
  | "POISON", [] => some (return .poison)
  | "ABORTED", [] | "Aborted", [] => some (return .aborted)
  | "LIST", [] => some (return .target .list)
  | "TREE", [] => some (return .target .tree)
  | "locator", [] => some (return Analysis.anyLocator)
  | "version", [] => some (return .str version)
  | "Done", [v] => some (return .tree (.ofDone v))
  | "Suspended", [d] | "wrap", [d] => some (return .tree (.suspended d))
  | "Resolved", [v] => some (return .payload (.resolved v))
  | "Deferred", [f] => some (return .payload (.deferred f))
  | "pure", [v] => some (return .tree (Tree.pure v))
  | "defer", [f] => some (return .tree (Tree.defer f))
  | "treachery", [] => some (return .tree Tree.treachery)
  | "Pure", [v] => some (return .plain (.pure v))
  | "Free", [d] => some (return .plain (.free d))
  | "Slot", [n, k] => some (return .slot n k (.int 0))
  | "Slot", [n, k, a] => some (return .slot n k a)
  | "Snoc", [i, l] => some (return .snoc i l)
  | "Cons", [h, t] => some (return .cons h t)
  | "prepend", [items, rest] => some (prepend items rest)
  | _, _ => none

/-- Operations on trees, and what is computed on probation. -/
def onTrees? (name : String) (args : List Value) : Option (Act Value) :=
  match name, args with
  | "map", [t, f] => some (t.invoke call .map [f])
  | "bind", [t, f] => some (t.invoke call .bind [f])
  | "ap", [t, u] => some (t.invoke call .ap [u])
  | "alt", [t, u] => some (t.invoke call .alt [u])
  | "or", [t, u] => some (either call t u)
  | "lift", [d] => some (Tree.lift call d)
  | "lift_free", [d] => some (PlainTree.lift call d)
  | "embed", [v] => some (PlainTree.embed call v)
  | "probe", [f] => some (return ofProbe (← probe (call f [])))
  | "force", [p] => some (forcePayload call p)
  | "resolve", [p] => some (return ofProbe (← probe (forcePayload call p)))
  | "betray", args => if args.length ≤ betrayLimit then some Act.abort else none
  | _, _ => none

/-- Operations on descriptors, slots and classes. -/
def onEffects? (name : String) (args : List Value) : Option (Act Value) :=
  match name, args with
  | "fmap", [d, f] => some (fmap call d f)
  | "erase", [d] => some (erase call d)
  | "slot_of", [c] => some (slotOf c)
  | "follow", [s, d] => some (s.invoke call .follow [d])
  | "replace", [s, d, v] => some (s.invoke call .replace [d, v])
  | "slot_map", [s, d, f] => some (s.invoke call .map [d, f])
  | "effect", [c] => some (register c)
  | "locate", [d] => some (locate call .effect d)
  | "derive_locator", [c] => some (locatorOf c)
  | _, _ => none

/-- Analyses and eliminations. -/
def eliminations? (name : String) (args : List Value) : Option (Act Value) :=
  match name, args with
  | "analyze", [stepper, t] => some (Analysis.analyze call stepper t)
  | "run_analysis", [t] | "run_analysis", [t, .scalar .null] =>
    some (Analysis.analyze call Analysis.anyLocator t)
  | "run_analysis", [t, l] => some (Analysis.analyze call l t)
  | "iterate", [f, t] => some (Tree.iterate call f t)
  | "iterate_a", [f, t, target] => some (Tree.iterateIn call f target t)
  | "iterate_m", [f, t, target] => some (Tree.iterateLater call f target t)
  | "fold", [f, t, target] => some (Tree.fold call f target t)
  | "retract", [t, target] => some (Tree.retract call target t)
  | "hoist", [f, t] => some (Tree.hoist call f t)
  | "target_pure", [target, v] => some (target.invoke call .pure [v])
  | "target_empty", [target] => some (target.invoke call .empty [])
  | "target_bind", [target, m, f] => some (target.invoke call .bind [m, f])
  | _, _ => none

/-- Operations on builders. -/
def onBuilders? (name : String) (args : List Value) : Option (Act Value) :=
  match name, args with
  | "Builder.pure", [v] => some (return .builder (.of (.tree (Tree.pure v))))
  | "Builder.fail", [] => some (return .builder (.of (.tree .failed)))
  | "Builder.send", [d] => some (return .builder (.of (← Tree.lift call d)))
  | "Builder.of", [t] => some (return .builder (.of t))
  | "Builder.bind", [b, f] => some (b.invoke call .bind [f])
  | "Builder.map", [b, f] => some (b.invoke call .map [f])
  | "Builder.then", [b, u] => some (b.invoke call .andThen [u])
  | "Builder.alt", [b, u] => some (b.invoke call .alt [u])
  | "Builder.or", [b, u] => some (either call b u)
  | "Builder.build", [b] => some (b.invoke call .build [])
  | _, _ => none

/-- Runs the operation of the given name. -/
def run (name : String) (args : List Value) : Act Value :=
  match
    (constructor? name args).or <| (onTrees? call name args).or <|
      (onEffects? call name args).or <| (eliminations? call name args).or <|
        onBuilders? call name args with
  | some act => act
  | none => Act.wrong (.library name)

end Library

end EffectTrees
