import EffectTrees.Annotation.Basic

/-!
# Forming types

Which types can be formed from others, and what they are. Not every combination is a type.

* `Annotation.asType` and `Annotation.checked` say what may stand where a type is expected: the null
  value stands for its type, a text for the type that it names, and the type of a constant may only
  stand at the top of an annotation.
* `Annotation.ofUnion` unites several types. Unions are in normal form: inner unions are flattened,
  later duplicates are dropped, and a union of one member is that member.
* `Annotation.joined` joins two types by a bar. Bare classes join with bare classes only; if one
  side is a variable, an applied effect class, or another type that is no class, it is a union as
  above.
* `Annotation.applied` applies a head to arguments. A class of the program takes as many as it has
  type parameters, and any number for a parameter that is a pack.
-/

namespace EffectTrees

/-- Why a type cannot be formed. -/
inductive TypeFault where
  /-- A name is not known. -/
  | unknown (name : String)
  /-- The parts do not make a type. -/
  | misuse
  /-- The three dots cannot carry a note. -/
  | missingMember
  /-- A text is no type expression. -/
  | malformed
  deriving DecidableEq, Repr, Inhabited

/-- What comes of forming a type. -/
abbrev Formed := Except TypeFault

namespace TypeName

/-- The kinds of the type parameters, for classes that declare them. -/
def kinds? : TypeName → Option (List ParamKind)
  | family _ _ kinds => some kinds
  | builtin n => if n = "EffectTree" then some [.single] else none

/-- The fixed classes that take any number of arguments. -/
def openNames : List String :=
  ["list", "dict", "tuple", "set", "frozenset", "type", "Iterable"]

/-- The class takes any number of arguments. -/
def isOpen : TypeName → Bool
  | family _ _ _ => false
  | builtin n => openNames.contains n

end TypeName

namespace Annotation

/-! ### Types among other values -/

/-- The type that a text names. -/
def referenceTo (type : TypeExpr) (inClass : Bool) : Formed Annotation :=
  if type.isReadable then .ok (reference type inClass) else .error .malformed

/-- The type that stands for a value where a type is expected. -/
def asType (inClass : Bool) : Annotation → Formed Annotation
  | null => .ok nullType
  | text t => referenceTo t inClass
  | a => .ok a

/-- A type that is no constant of the class, unless such are welcome. -/
def checked (inClass : Bool) (a : Annotation) : Formed Annotation := do
  match ← a.asType inClass with
  | classVar t => if inClass then return classVar t else throw .misuse
  | b => return b

/-- A type with a note. -/
def ofAnnotated (a : Annotation) : Formed Annotation :=
  match a with
  | ellipsis => .error .missingMember
  | _ => .ok (annotated a)

/-! ### Unions -/

/-- The members that a type contributes to a union. -/
def unionMembers : Annotation → List Annotation
  | union _ ms => ms
  | null => [nullType]
  | a => [a]

/-- Appends a type unless the list has it already. -/
def addMember (members : List Annotation) (a : Annotation) : List Annotation :=
  if members.any (same a) then members else members ++ [a]

/-- The union of several types, in normal form. -/
def normalUnion (kind : UnionKind) (types : List Annotation) : Annotation :=
  match (types.flatMap unionMembers).foldl addMember [] with
  | [a] => a
  | members => union kind members

/-- The union of several types of any sort. -/
def ofUnion (types : List Annotation) : Formed Annotation := do
  if types.isEmpty then throw .misuse
  else return normalUnion .ofTypes (← types.mapM (checked false))

/-- The type joins with anything. -/
def joinsAll : Annotation → Bool
  | var _ | union .ofTypes _ | literal _ | annotated _ | classVar _ | reference _ _ => true
  | apply head _ => head.kinds?.isSome
  | null | nullType | any | ellipsis | named _ | function _ _ | anyFunction _ | specFunction _ _
  | union .ofClasses _ | packed _ | text _ => false

/-- The type joins with its like: it is made of bare classes, or is the null value. -/
def joinsClasses : Annotation → Bool
  | null | nullType | any | named _ | function _ _ | anyFunction _ | specFunction _ _
  | union .ofClasses _ => true
  | apply head _ => head.kinds?.isNone
  | var _ | union .ofTypes _ | literal _ | annotated _ | classVar _ | reference _ _ | ellipsis
  | packed _ | text _ => false

/-- The null value itself. -/
def isNull : Annotation → Bool
  | null => true
  | _ => false

/-- Two types joined by a bar. -/
def joined (a b : Annotation) : Formed Annotation :=
  if a.joinsAll || b.joinsAll then ofUnion [a, b]
  else if a.joinsClasses && b.joinsClasses && !(a.isNull && b.isNull) then
    .ok (normalUnion .ofClasses [a, b])
  else .error .misuse

/-- Several types joined by bars, from left to right. -/
def joinedAll : List Annotation → Formed Annotation
  | [] => .error .malformed
  | a :: as => as.foldlM joined a

/-! ### Other types -/

/-- A literal type, without duplicates. -/
def ofLiteral (values : List Scalar) : Annotation :=
  literal (values.foldl (fun vs v => if vs.contains v then vs else vs ++ [v]) [])

/-- A function type. A single parameter that stands for a whole parameter list is that list. -/
def ofFunction (params : List Annotation) (result : Annotation) : Annotation :=
  match params with
  | [ellipsis] => anyFunction result
  | [var v] => if v.isSpec then specFunction v result else function params result
  | _ => function params result

/-- The annotation stands for a whole parameter list. -/
def isParameterList : Annotation → Bool
  | ellipsis => true
  | var v => v.isSpec
  | _ => false

/-- So many arguments are right for parameters of the given kinds: as many as there are parameters
or, if one of them is a pack, at least one for each of the others. -/
def fitting (kinds : List ParamKind) (count : Nat) : Bool :=
  match kinds.count .pack with
  | 0 => !kinds.isEmpty && count = kinds.length
  | 1 => kinds.length ≤ count + 1
  | _ => false

/-- The arguments of a class whose type parameters have the given kinds. A class whose only
parameter is a specification takes several arguments for one. -/
def matched (kinds : List ParamKind) (args : List Annotation) : Formed (List Annotation) :=
  match kinds, args with
  | [.spec], a :: rest =>
    if !a.isParameterList then .ok [packed (a :: rest)]
    else if rest.isEmpty then .ok [a] else .error .misuse
  | _, _ => if fitting kinds args.length then .ok args else .error .misuse

/-- A head applied to arguments. -/
def applied (head : Annotation) (args : List Annotation) : Formed Annotation := do
  match head with
  | named n =>
    match n.kinds? with
    | some kinds => return apply n (← matched kinds (← args.mapM (asType false)))
    | none =>
      if n.isOpen then return apply n args
      else if n = TypeName.callable then
        match args with
        | [a, result] => if a.isParameterList then return ofFunction [a] result else throw .misuse
        | _ => throw .misuse
      else throw .misuse
  | _ => throw .misuse

end Annotation

end EffectTrees
