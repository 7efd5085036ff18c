import EffectTrees.Scalar

/-!
# Type expressions

A type as it is written in a declaration: names that still have to be looked up, applied heads,
function types, unions, literal types, and texts that hold a type to be looked up later.

* `TypeExpr.source` is the text of a type expression.
* `TypeExpr.isReadable` says whether that text can be read back, and `TypeExpr.flattened` is the
  type that is read: the text of a union inside a union shows one union.
-/

namespace EffectTrees

/-- A type as written. -/
inductive TypeExpr where
  /-- A variable, a class, or one of the fixed names. -/
  | name (name : String)
  /-- A head with arguments in brackets. -/
  | apply (head : String) (args : List TypeExpr)
  /-- The functions from the given parameters to the result. -/
  | function (params : List TypeExpr) (result : TypeExpr)
  /-- The functions of any parameters. -/
  | anyFunction (result : TypeExpr)
  /-- The functions whose parameters a parameter specification stands for. -/
  | specFunction (spec : String) (result : TypeExpr)
  | union (members : List TypeExpr)
  | literal (values : List Scalar)
  /-- A type with a note attached. -/
  | annotated (type : TypeExpr)
  /-- The type of a constant of the class, which is no field. -/
  | classVar (type : TypeExpr)
  /-- A type inside a text, looked up only when the text is read. -/
  | quoted (type : TypeExpr)
  deriving Repr, Inhabited

namespace TypeExpr

/-- The note that every annotated type carries. -/
def note : String := Text.quoted "note"

mutual

/-- The text of a type expression. -/
def source : TypeExpr → String
  | name n => n
  | apply head args => head ++ "[" ++ Text.commaSeparated (sources args) ++ "]"
  | function params result =>
    "Callable[[" ++ Text.commaSeparated (sources params) ++ "], " ++ result.source ++ "]"
  | anyFunction result => "Callable[..., " ++ result.source ++ "]"
  | specFunction spec result => "Callable[" ++ spec ++ ", " ++ result.source ++ "]"
  | union members => String.intercalate " | " (sources members)
  | literal values => "Literal[" ++ Text.commaSeparated (values.map Scalar.text) ++ "]"
  | annotated type => "Annotated[" ++ type.source ++ ", " ++ note ++ "]"
  | classVar type => "ClassVar[" ++ type.source ++ "]"
  | quoted type => Text.quoted type.source

/-- The texts of several type expressions. -/
def sources : List TypeExpr → List String
  | [] => []
  | t :: ts => t.source :: sources ts

end

mutual

/-- The text of the type can be read as a type: no brackets and no union are empty, except the
brackets around the parameters of a function. What is inside inner quotes does not matter. -/
def isReadable : TypeExpr → Bool
  | name _ | quoted _ => true
  | apply _ args => !args.isEmpty && areReadable args
  | function params result => areReadable params && result.isReadable
  | anyFunction result => result.isReadable
  | specFunction _ result => result.isReadable
  | union members => !members.isEmpty && areReadable members
  | literal values => !values.isEmpty
  | annotated type => type.isReadable
  | classVar type => type.isReadable

/-- The texts of several types can be read. -/
def areReadable : List TypeExpr → Bool
  | [] => true
  | t :: ts => t.isReadable && areReadable ts

end

mutual

/-- The type with the unions in it flattened, as its text shows them. -/
def flattened : TypeExpr → TypeExpr
  | name n => name n
  | apply head args => apply head (flattenedAll args)
  | function params result => function (flattenedAll params) result.flattened
  | anyFunction result => anyFunction result.flattened
  | specFunction spec result => specFunction spec result.flattened
  | union members => union (flattenedMembers members)
  | literal values => literal values
  | annotated type => annotated type.flattened
  | classVar type => classVar type.flattened
  | quoted type => quoted type

/-- Several types with the unions in them flattened. -/
def flattenedAll : List TypeExpr → List TypeExpr
  | [] => []
  | t :: ts => t.flattened :: flattenedAll ts

/-- The members of a union, with those of inner unions in their places. -/
def flattenedMembers : List TypeExpr → List TypeExpr
  | [] => []
  | t :: ts =>
    match t.flattened with
    | union members => members ++ flattenedMembers ts
    | u => u :: flattenedMembers ts

end

mutual

/-- How deep texts are nested inside one another. -/
def textDepth : TypeExpr → Nat
  | name _ | literal _ => 0
  | apply _ args => textDepths args
  | function params result => max (textDepths params) result.textDepth
  | anyFunction result => result.textDepth
  | specFunction _ result => result.textDepth
  | union members => textDepths members
  | annotated type => type.textDepth
  | classVar type => type.textDepth
  | quoted type => type.textDepth + 1

/-- How deep texts are nested inside several types. -/
def textDepths : List TypeExpr → Nat
  | [] => 0
  | t :: ts => max t.textDepth (textDepths ts)

end

mutual

/-- The text of the type starts with the mark of a constant of the class. -/
def startsConstant : TypeExpr → Bool
  | classVar _ => true
  | union members => firstStartsConstant members
  | name _ | apply _ _ | function _ _ | anyFunction _ | specFunction _ _ | literal _
  | annotated _ | quoted _ => false

/-- The text of the first of several types starts with the mark of a constant. -/
def firstStartsConstant : List TypeExpr → Bool
  | [] => false
  | t :: _ => t.startsConstant

end

end TypeExpr

end EffectTrees
