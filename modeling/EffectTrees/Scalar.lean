import EffectTrees.Text.Quoted

/-!
# Scalars

The literals of the expression language, of field defaults and of literal types: the null value,
truth values, integers of any size, and texts. A truth value is never an integer here, so `Scalar`
equality keeps `true` and `1` apart.
-/

namespace EffectTrees

/-- A literal. -/
inductive Scalar where
  | null
  | bool (b : Bool)
  | int (i : Int)
  | str (s : String)
  deriving DecidableEq, Repr, Inhabited

namespace Scalar

/-- The written form of a literal: `None`, `True`, `False`, a decimal number or a quoted text. -/
def text : Scalar → String
  | null => "None"
  | bool true => "True"
  | bool false => "False"
  | int i => toString i
  | str s => Text.quoted s

end Scalar

end EffectTrees
