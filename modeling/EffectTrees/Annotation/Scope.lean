import EffectTrees.Annotation.Formation

/-!
# Looking names up

A scope knows what some names stand for. A declaration looks up the names of its field types where
it stands and leaves texts alone; when a slot is derived the texts are looked up too, in the scope
of the class that the slot is for.

* `TypeExpr.denote` looks up a type expression. Inner texts stay texts.
* `Annotation.resolve` reads the texts that an annotation still holds, and the texts inside them.
* `Annotation.strip` drops notes, at any depth.
* `Annotation.hint` is the type that a field has, with notes, when its slot is derived.

All of these work from left to right, and end at the first type that cannot be formed.
-/

namespace EffectTrees

/-- What the names of a scope stand for. -/
abbrev Scope := String → Option Annotation

namespace Scope

/-- The fixed names that are classes. -/
def builtinNames : List String :=
  ["int", "str", "bool", "float", "bytes", "object", "list", "dict", "tuple", "set", "frozenset",
   "type", "Callable", "Iterable", "EffectTree"]

/-- The class at the root of all effect classes, with its one type parameter. -/
def effectName : TypeName := .family 0 "Effect" [.single]

/-- The names that every scope knows. -/
def fixed : Scope := fun n =>
  if n = "None" then some .null
  else if n = "Any" then some .any
  else if n = "..." then some .ellipsis
  else if n = "Effect" then some (.named effectName)
  else if builtinNames.contains n then some (.named (.builtin n))
  else none

/-- The first of the variables that a type writes so. -/
def ofVars (vars : List TypeVar) : Scope := fun n =>
  (vars.find? fun v => v.spelling = n).map .var

/-- What the first scope does not know is looked up in the second. -/
def orElse (s t : Scope) : Scope := fun n => (s n).or (t n)

/-- What a name stands for. -/
def find (s : Scope) (n : String) : Formed Annotation :=
  match s n with
  | some a => .ok a
  | none => .error (.unknown n)

end Scope

namespace TypeExpr

mutual

/-- What a type expression stands for. A union inside a text joins its members by bars, and any
other union unites them. -/
def denote (scope : Scope) (inText : Bool) : TypeExpr → Formed Annotation
  | name n => scope.find n
  | apply head args => do
    let h ← scope.find head
    h.applied (← denotes scope inText args)
  | function params result => do
    let ps ← denotes scope inText params
    return .ofFunction ps (← result.denote scope inText)
  | anyFunction result => return .anyFunction (← result.denote scope inText)
  | specFunction spec result => do
    let p ← scope.find spec
    let r ← result.denote scope inText
    Annotation.applied (.named .callable) [p, r]
  | union members =>
    if inText then denoteJoined scope none members
    else do Annotation.ofUnion (← denotes scope inText members)
  | literal values => return .ofLiteral values
  | annotated type => do
    Annotation.ofAnnotated (← (← type.denote scope inText).checked true)
  | classVar type => return .classVar (← (← type.denote scope inText).checked false)
  | quoted type => return .text type

/-- What several type expressions stand for. -/
def denotes (scope : Scope) (inText : Bool) : List TypeExpr → Formed (List Annotation)
  | [] => return []
  | t :: ts => do
    let a ← t.denote scope inText
    return a :: (← denotes scope inText ts)

/-- What the members of a union in a text stand for. Each member is joined to those before it as
soon as it has been looked up. -/
def denoteJoined (scope : Scope) (before : Option Annotation) :
    List TypeExpr → Formed Annotation
  | [] =>
    match before with
    | some a => return a
    | none => throw .malformed
  | t :: ts => do
    let a ← t.denote scope true
    match before with
    | some b => denoteJoined scope (some (← b.joined a)) ts
    | none => denoteJoined scope (some a) ts

end

end TypeExpr

namespace Annotation

mutual

/-- How deep texts are nested inside an annotation. -/
def textDepth : Annotation → Nat
  | apply _ args => textDepths args
  | function params result => max (textDepths params) result.textDepth
  | anyFunction result => result.textDepth
  | specFunction _ result => result.textDepth
  | union _ members => textDepths members
  | annotated type => type.textDepth
  | classVar type => type.textDepth
  | text type => type.textDepth + 1
  | reference type _ => type.textDepth + 1
  | var _ | null | nullType | any | ellipsis | named _ | literal _ | packed _ => 0

/-- How deep texts are nested inside several annotations. -/
def textDepths : List Annotation → Nat
  | [] => 0
  | a :: as => max a.textDepth (textDepths as)

end

/-- A text among the arguments of a class that takes any number of them names a type. -/
def argument : Annotation → Formed Annotation
  | text t => referenceTo t false
  | a => .ok a

/-- The arguments of a head, before their texts are read. Classes of the program have seen to their
texts already. -/
def arguments (head : TypeName) (args : List Annotation) : Formed (List Annotation) :=
  if head.kinds?.isSome then .ok args else args.mapM argument

/-- What reading a text gives. The flag tells if a constant of the class is welcome. -/
abbrev Reader := TypeExpr → Bool → Formed Annotation

mutual

/-- The annotation with its texts read. Texts that stand together for a parameter specification
stay. -/
def resolveWith (read : Reader) : Annotation → Formed Annotation
  | apply head args => do
    discard (arguments head args)
    return apply head (← resolveAll read args)
  | function params result => do
    discard (params.mapM argument)
    discard result.argument
    let ps ← resolveAll read params
    return ofFunction ps (← result.resolveWith read)
  | anyFunction result => return anyFunction (← result.resolveWith read)
  | specFunction spec result => return specFunction spec (← result.resolveWith read)
  | union .ofTypes members => do ofUnion (← resolveAll read members)
  | union .ofClasses members => do joinedAll (← resolveAll read members)
  | annotated type => do ofAnnotated (← type.resolveWith read)
  | classVar type => return classVar (← type.resolveWith read)
  | text type => read type false
  | reference type inClass => read type inClass
  | var v => return var v
  | null => return null
  | nullType => return nullType
  | any => return any
  | ellipsis => return ellipsis
  | named n => return named n
  | literal values => return literal values
  | packed types => return packed types

/-- Several annotations with their texts read. -/
def resolveAll (read : Reader) : List Annotation → Formed (List Annotation)
  | [] => return []
  | a :: as => do
    let b ← a.resolveWith read
    return b :: (← resolveAll read as)

end

/-- Reads a text in which texts are nested less deep than given: its names are looked up, and then
the texts in what it stands for are read. -/
def read (scope : Scope) : Nat → Reader
  | 0 => fun _ _ => .error .malformed
  | depth + 1 => fun type inClass => do
    if !type.isReadable then throw .malformed
    else
      let a ← type.flattened.denote scope true
      (← a.checked inClass).resolveWith (read scope depth)

/-- The annotation with its texts read in a scope. -/
def resolve (scope : Scope) (a : Annotation) : Formed Annotation :=
  a.resolveWith (read scope a.textDepth)

mutual

/-- The annotation without its notes. -/
def strip : Annotation → Formed Annotation
  | apply head args => return apply head (← strips args)
  | function params result => do
    let ps ← strips params
    return ofFunction ps (← result.strip)
  | anyFunction result => return anyFunction (← result.strip)
  | specFunction spec result => return specFunction spec (← result.strip)
  | union .ofTypes members => do ofUnion (← strips members)
  | union .ofClasses members => do joinedAll (← strips members)
  | annotated type => type.strip
  | classVar type => return classVar (← type.strip)
  | var v => return var v
  | null => return null
  | nullType => return nullType
  | any => return any
  | ellipsis => return ellipsis
  | named n => return named n
  | literal values => return literal values
  | packed types => return packed types
  | text type => return text type
  | reference type inClass => return reference type inClass

/-- Several annotations without their notes. -/
def strips : List Annotation → Formed (List Annotation)
  | [] => return []
  | a :: as => do
    let b ← a.strip
    return b :: (← strips as)

end

/-- The type that a field has when its slot is derived, with its notes: texts are read, and the null
value in the place of a type is its type. -/
def hint (scope : Scope) : Annotation → Formed Annotation
  | null => .ok nullType
  | text type => (reference type true).resolve scope
  | a => a.resolve scope

end Annotation

end EffectTrees
