import EffectTrees.Tree.Basic

/-!
# Plain trees

A plain tree is a computation that cannot fail. It embeds into the effect trees, where its leaves
become finished trees.
-/

namespace EffectTrees

variable (call : Caller)

namespace PlainTree

/-- The plain tree that performs a single effect and finishes with what fills its slot. -/
def lift (d : Value) : Act Value :=
  return .plain (free (← fmap call d (.frame .plainPure)))

/-- The effect tree that a plain tree is. -/
def embed (v : Value) : Act Value :=
  match v with
  | .plain (pure x) => return .tree (Tree.pure x)
  | .plain (free d) => return .tree (.suspended (← fmap call d (.frame .embed)))
  | _ => Act.refuse .plainTree v

end PlainTree

end EffectTrees
