import EffectTrees.Annotation.Basic

/-!
# The text of an annotation

How annotations appear in messages. A variable or class shows its bare name, so two variables of one
name look alike. A type that is still a text shows as that text, quoted.

* `Annotation.format` is the text of an annotation.
* `Annotation.written` is the full form, in which classes show where they come from. Only types that
  stand together for a parameter specification show in this form.
-/

namespace EffectTrees

namespace TypeName

/-- The name of a class together with the place that it comes from. -/
def path : TypeName → String
  | builtin "EffectTree" => "freeprobe.tree.EffectTree"
  | builtin "Callable" => "collections.abc.Callable"
  | builtin "Iterable" => "collections.abc.Iterable"
  | builtin n => n
  | family 0 n _ => "freeprobe.effects." ++ n
  | family _ n _ => "prog." ++ n

/-- The written form of a class. -/
def text (n : TypeName) : String := "<class '" ++ n.path ++ "'>"

end TypeName

namespace Annotation

/-- The name of the class of the null value. -/
def nullTypeName : String := "NoneType"

/-- A head with arguments between brackets. -/
def bracketed (head : String) (args : List String) : String :=
  head ++ "[" ++ Text.commaSeparated args ++ "]"

/-- A head with arguments between brackets. If there are none, the empty tuple shows. -/
def bracketedOrUnit (head : String) (args : List String) : String :=
  bracketed head (if args.isEmpty then ["()"] else args)

/-- A function type, with parameters or with what stands for them. -/
def functionText (head params result : String) : String :=
  head ++ "[" ++ params ++ ", " ++ result ++ "]"

/-- The written form of a reference. -/
def referenceText (type : TypeExpr) : String := "ForwardRef(" ++ Text.quoted type.source ++ ")"

mutual

/-- The full form of an annotation; `inner` if it stands inside another one. -/
def written (inner : Bool) : Annotation → String
  | var v => if v.kind = .pack then v.spelling else "~" ++ v.name
  | null => Scalar.null.text
  | nullType => if inner then nullTypeName else "<class '" ++ nullTypeName ++ "'>"
  | any => "typing.Any"
  | ellipsis => if inner then "..." else "Ellipsis"
  | named n => if inner then n.path else n.text
  | apply head args => bracketedOrUnit head.path (writtenAll true args)
  | function params result =>
    functionText TypeName.callable.path
      ("[" ++ Text.commaSeparated (writtenAll true params) ++ "]") (result.written true)
  | anyFunction result => functionText TypeName.callable.path "..." (result.written true)
  | specFunction spec result =>
    functionText TypeName.callable.path ("~" ++ spec.name) (result.written true)
  | union .ofTypes [a, nullType] => bracketed "typing.Optional" [a.written true]
  | union .ofTypes [nullType, a] => bracketed "typing.Optional" [a.written true]
  | union .ofTypes members => bracketed "typing.Union" (writtenAll true members)
  | union .ofClasses members => String.intercalate " | " (writtenMembers members)
  | literal values => bracketedOrUnit "typing.Literal" (values.map Scalar.text)
  | annotated type => bracketed "typing.Annotated" [type.written true, TypeExpr.note]
  | classVar type => bracketed "typing.ClassVar" [type.written true]
  | packed types => Text.tuple (writtenAll false types)
  | text type => Text.quoted type.source
  | reference type _ => referenceText type

/-- The full forms of several annotations. -/
def writtenAll (inner : Bool) : List Annotation → List String
  | [] => []
  | a :: as => a.written inner :: writtenAll inner as

/-- The full forms of the members of a union of classes, where the null value stands for its
type. -/
def writtenMembers : List Annotation → List String
  | [] => []
  | nullType :: as => Scalar.null.text :: writtenMembers as
  | a :: as => a.written true :: writtenMembers as

end

mutual

/-- The text of an annotation. -/
def format : Annotation → String
  | var v => if v.kind = .pack then bracketed "Unpack" [v.name] else v.name
  | null => Scalar.null.text
  | nullType => nullTypeName
  | any => "Any"
  | ellipsis => "..."
  | named n => n.name
  | apply head args => bracketed head.name (formats args)
  | function params result =>
    functionText "Callable" ("[" ++ Text.commaSeparated (formats params) ++ "]") result.format
  | anyFunction result => functionText "Callable" "..." result.format
  | specFunction spec result => functionText "Callable" spec.name result.format
  | union _ members => String.intercalate " | " (formats members)
  | literal values => bracketed "Literal" (values.map Scalar.text)
  | annotated type => bracketed "Annotated" [type.format, TypeExpr.note]
  | classVar type => bracketed "ClassVar" [type.format]
  | packed types => (packed types).written false
  | text type => Text.quoted type.source
  | reference type _ => referenceText type

/-- The texts of several annotations. -/
def formats : List Annotation → List String
  | [] => []
  | a :: as => a.format :: formats as

end

end Annotation

end EffectTrees
