import EffectTrees.Annotation.Format
import EffectTrees.Annotation.Scope

/-!
# Reports on annotations

What there is to say about a single annotation and a variable: how a field of that type would refer
to the variable, whether the variable occurs in it, and its text. Nothing inside a text is looked
up.
-/

namespace EffectTrees

/-- A report on an annotation. -/
structure AnnotationReport where
  shape : Option Annotation.Shape
  contains : Bool
  text : String
  deriving DecidableEq, Repr, Inhabited

namespace AnnotationReport

/-- Reports on a type, with respect to the first of the given variables. The name of a parameter
specification is marked. -/
def of (type : TypeExpr) (param : String) (others : List (String × Bool)) :
    Formed AnnotationReport := do
  let v : TypeVar := ⟨param, .shared, .single⟩
  let vars := v :: others.map fun p => ⟨p.1, .shared, .of [] p⟩
  let a ← type.denote ((Scope.ofVars vars).orElse Scope.fixed) false
  return ⟨a.classify v, a.contains v, a.format⟩

end AnnotationReport

end EffectTrees
