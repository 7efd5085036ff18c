import EffectTrees.Tree.Analysis
import EffectTrees.Tree.Elimination
import EffectTrees.Tree.Plain

/-!
# What frames do

A frame is what an operation does with the content of a slot, or with one value that it was handed
over. `Frame.run` says what that is; it is the place where the operations on trees meet the data
that stand for them in values.
-/

namespace EffectTrees

/-- What a frame does with a value. -/
def Frame.run (call : Caller) (k : Frame) (v : Value) : Act Value :=
  match k with
  | .identity => return v
  | .unit => return .unit
  | .always other => return other
  | .pure => return .tree (Tree.pure v)
  | .plainPure => return .plain (.pure v)
  | .map f => v.invoke call .map [f]
  | .bind f => v.invoke call .bind [f]
  | .ap argument => v.invoke call .ap [argument]
  | .finish f => return .tree (Tree.pure (← call f [v]))
  | .iterate algebra => Tree.iterate call algebra v
  | .iterateIn algebra target => Tree.iterateIn call algebra target v
  | .iterateLater algebra target => Tree.iterateLater call algebra target v
  | .postpone algebra target => return .function (.delayed (.iterateLater algebra target) v)
  | .fold transform target => Tree.fold call transform target v
  | .hoist transform => Tree.hoist call transform v
  | .embed => PlainTree.embed call v
  | .analyze stepper trace => Analysis.walk call stepper trace v
  | .materialize queue => Builder.materialize call queue v
  | .choose left other => left.choose call other

end EffectTrees
