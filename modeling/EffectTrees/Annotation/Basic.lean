import EffectTrees.Annotation.TypeExpr

/-!
# Annotations

The type of a field after its names have been looked up. Variables are told apart by the class that
declares them, never by their names alone: two classes may each have a variable `K`, and these are
different variables.

* `Annotation.contains` says whether a variable occurs in an annotation, at any depth. What is still
  inside a text is not searched.
* `Annotation.classify` tells how a field refers to the continuation variable: it *is* the variable,
  it is a function whose result is the variable and whose parameters do not mention it, it mentions
  the variable in another way, or it does not mention it.
* `Annotation.same` says whether two annotations denote the same type.
-/

namespace EffectTrees

/-- Who declares a type variable. -/
inductive VarOwner where
  /-- A variable that all declarations share. -/
  | shared
  /-- A parameter of the class with the given number. -/
  | family (id : Nat)
  deriving DecidableEq, Repr, Inhabited

/-- What a type parameter stands for. -/
inductive ParamKind where
  /-- A single type. -/
  | single
  /-- The parameters of a function: it is a parameter specification. -/
  | spec
  /-- Any number of types. -/
  | pack
  deriving DecidableEq, Repr, Inhabited

/-- The kind of a parameter that is known to be a specification or not, among the given packs. -/
def ParamKind.of (packs : List String) (param : String × Bool) : ParamKind :=
  if param.2 then spec else if packs.contains param.1 then pack else single

/-- A type variable, a parameter specification, or a pack of type variables. -/
structure TypeVar where
  name : String
  owner : VarOwner
  kind : ParamKind
  deriving DecidableEq, Repr, Inhabited

namespace TypeVar

/-- The variable is a parameter specification. -/
def isSpec (v : TypeVar) : Bool := v.kind = .spec

/-- The variable as a type writes it. The types of a pack are unpacked. -/
def spelling (v : TypeVar) : String := if v.kind = .pack then "*" ++ v.name else v.name

end TypeVar

/-- A class that types are made of: one of the fixed ones, or a class of the program by its number,
with the kinds of its type parameters. -/
inductive TypeName where
  | builtin (name : String)
  | family (id : Nat) (name : String) (kinds : List ParamKind)
  deriving DecidableEq, Repr, Inhabited

namespace TypeName

/-- The name alone. -/
def name : TypeName → String
  | builtin n => n
  | family _ n _ => n

/-- The head of a function type. -/
def callable : TypeName := builtin "Callable"

end TypeName

/-- How a union came about. The two kinds denote the same types, but a union of bare classes cannot
be continued with a text. -/
inductive UnionKind where
  /-- Classes were joined, one after the other. -/
  | ofClasses
  /-- Types of any sort were united. -/
  | ofTypes
  deriving DecidableEq, Repr, Inhabited

/-- A type whose names have been looked up. -/
inductive Annotation where
  /-- A variable, or the types of a pack where types are listed. -/
  | var (v : TypeVar)
  /-- The null value in the place of a type. -/
  | null
  /-- The type of the null value. -/
  | nullType
  /-- The type of everything. -/
  | any
  /-- The three dots. -/
  | ellipsis
  | named (n : TypeName)
  | apply (head : TypeName) (args : List Annotation)
  | function (params : List Annotation) (result : Annotation)
  | anyFunction (result : Annotation)
  | specFunction (spec : TypeVar) (result : Annotation)
  | union (kind : UnionKind) (members : List Annotation)
  | literal (values : List Scalar)
  | annotated (type : Annotation)
  | classVar (type : Annotation)
  /-- Several types that stand together for a parameter specification. -/
  | packed (types : List Annotation)
  /-- A text where a type may stand. -/
  | text (type : TypeExpr)
  /-- A text that is read as a type when slots are derived; `inClass` if it may denote a constant of
  the class. -/
  | reference (type : TypeExpr) (inClass : Bool)
  deriving Repr, Inhabited

namespace Annotation

/-- The annotation is the variable itself. -/
def isVar (v : TypeVar) : Annotation → Bool
  | var w => w = v
  | _ => false

/-! ### Equality of types -/

mutual

/-- Two annotations denote the same type. Members of unions and of literal types may come in any
order; they are free of duplicates. -/
def same : Annotation → Annotation → Bool
  | var v, var w => v = w
  | null, null => true
  | nullType, nullType => true
  | any, any => true
  | ellipsis, ellipsis => true
  | named m, named n => m = n
  | apply h as, apply k bs => h = k && sameList as bs
  | function ps r, function qs s => sameList ps qs && same r s
  | anyFunction r, anyFunction s => same r s
  | specFunction p r, specFunction q s => p = q && same r s
  | union _ ms, union _ ns => ms.length == ns.length && allAmong ms ns
  | literal us, literal vs => us.length == vs.length && us.all vs.contains
  | annotated t, annotated u => same t u
  | classVar t, classVar u => same t u
  | packed ts, packed us => sameList ts us
  | text t, text u => t.source == u.source
  | reference t _, reference u _ => t.source == u.source
  | _, _ => false

/-- Two lists of annotations denote the same types in the same order. -/
def sameList : List Annotation → List Annotation → Bool
  | [], [] => true
  | a :: as, b :: bs => same a b && sameList as bs
  | _, _ => false

/-- Each annotation of the first list denotes a type of the second. -/
def allAmong : List Annotation → List Annotation → Bool
  | [], _ => true
  | a :: as, bs => bs.any (same a) && allAmong as bs

end

/-! ### Occurrences of a variable -/

mutual

/-- The variable occurs in the annotation, at any depth. -/
def contains (v : TypeVar) : Annotation → Bool
  | var w => w = v
  | apply _ args => containsAny v args
  | function params result => containsAny v params || contains v result
  | anyFunction result => contains v result
  | specFunction spec result => spec = v || contains v result
  | union _ members => containsAny v members
  | annotated type => contains v type
  | classVar type => contains v type
  | packed types => containsAny v types
  | null | nullType | any | ellipsis | named _ | literal _ | text _ | reference _ _ => false

/-- The variable occurs in one of the annotations. -/
def containsAny (v : TypeVar) : List Annotation → Bool
  | [] => false
  | a :: as => contains v a || containsAny v as

end

/-- How a field refers to the continuation variable. -/
inductive Shape where
  /-- The field holds the continuation. -/
  | direct
  /-- The field holds a function of so many arguments that returns the continuation. -/
  | function (arity : Nat)
  /-- The field mentions the variable in a way that is not supported. -/
  | unsupported
  deriving DecidableEq, Repr, Inhabited

/-- How the annotation refers to the variable, if it mentions it at all. -/
def classify (v : TypeVar) (a : Annotation) : Option Shape :=
  if a.isVar v then some .direct
  else if !a.contains v then none
  else match a with
    | function params result =>
      if result.isVar v && !containsAny v params then some (.function params.length)
      else some .unsupported
    | _ => some .unsupported

theorem isVar_iff {v : TypeVar} {a : Annotation} : a.isVar v = true ↔ a = var v := by
  cases a <;> simp [isVar]

theorem containsAny_eq_true_iff {v : TypeVar} {as : List Annotation} :
    containsAny v as = true ↔ ∃ a ∈ as, a.contains v = true := by
  induction as with
  | nil => simp [containsAny]
  | cons a as ih => simp [containsAny, ih]

end Annotation

end EffectTrees
