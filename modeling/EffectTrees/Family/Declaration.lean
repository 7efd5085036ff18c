import EffectTrees.Family.Linearization
import EffectTrees.Family.Registration

/-!
# Declaring classes

A declaration adds a class to the table and then applies its decorators in order, up to the first
that fails. The class exists in any case, but only a class whose decorators all succeeded can be
named in later texts.

The continuation variable of a class is looked for among its parents (`searchVia`): the first parent
that is applied to types and passes a variable on in the place of its own continuation variable
decides; if there is none, the first parent that has a continuation variable passes its own on
unchanged. The place is counted from the left among the types that the parent is applied to. These
may be more or fewer than its type parameters if one of them is a pack. Where they do not reach that
far the search breaks off.
-/

namespace EffectTrees

/-- A parent as a declaration writes it. -/
structure ParentExpr where
  name : String
  args : Option (List TypeExpr)
  deriving Repr, Inhabited

/-- A field as a declaration writes it. -/
structure FieldDecl where
  name : String
  type : TypeExpr
  default : Option Scalar
  isGiven : Bool
  deriving Repr, Inhabited

/-- What a declaration does with a class once it exists. -/
inductive Decorator where
  | frozenRecord
  | mutableRecord
  | register
  deriving DecidableEq, Repr, Inhabited

/-- The declaration of a class. Its body has nothing but fields: it does not define how instances are
initialized, and no field is an argument of the initialization only. -/
structure ClassDecl where
  name : String
  /-- The type parameters, each with a mark if it is a parameter specification. -/
  params : List (String × Bool)
  /-- The names of those that are packs. -/
  packs : List String := []
  parents : List ParentExpr
  /-- The shared variables that the class is explicitly generic in. -/
  generic : Option (List String)
  fields : List FieldDecl
  decorators : List Decorator
  continuation : Option String
  deriving Repr, Inhabited

namespace Annotation

mutual

/-- The variables that occur in an annotation, from left to right. -/
def typeVars : Annotation → List TypeVar
  | var v => [v]
  | apply _ args => typeVarsAll args
  | function params result => typeVarsAll params ++ result.typeVars
  | anyFunction result => result.typeVars
  | specFunction spec result => spec :: result.typeVars
  | union _ members => typeVarsAll members
  | annotated type => type.typeVars
  | classVar type => type.typeVars
  | packed types => typeVarsAll types
  | null | nullType | any | ellipsis | named _ | literal _ | text _ | reference _ _ => []

/-- The variables that occur in several annotations, from left to right. -/
def typeVarsAll : List Annotation → List TypeVar
  | [] => []
  | a :: as => a.typeVars ++ typeVarsAll as

end

/-- The variable that an annotation is, if it is one that stands for a single type. -/
def asVariable? : Annotation → Option TypeVar
  | var v => if v.kind = .single then some v else none
  | _ => none

end Annotation

namespace ClassTable

variable (t : ClassTable)

/-- What the names in a declaration stand for: the parameters of the class, then shared variables,
then earlier classes, then the fixed names. -/
def declarationScope (vars : List TypeVar) : Scope :=
  (Scope.ofVars vars).orElse <| (Scope.ofVars t.shared).orElse <|
    Scope.orElse (fun n => (t.named? n).map fun c => .named (t.typeName c.id)) Scope.fixed

/-- The continuation variable in terms of the parameters of a class: for the root, its variable. -/
def searchIn (id : Nat) : Search :=
  if id = ClassRef.effect.id then .found rootVariable else t.search id

/-- Looks at the place of a variable among the types that its class is applied to. -/
def searchArgs (parameters : List TypeVar) (args : List Annotation) (v : TypeVar) : Search :=
  match parameters.idxOf? v with
  | none => .absent
  | some position =>
    match args[position]? with
    | none => .outOfRange
    | some a => .ofOption a.asVariable?

/-- The variable that a parent applied to types is given in the place of its own continuation
variable. -/
def searchApplied (p : Parent) : Search :=
  match p.args with
  | none => .absent
  | some args =>
    match t.searchIn p.id with
    | .found v => searchArgs (((t.info? p.id).map ClassInfo.parameters).getD []) args v
    | s => s

/-- The continuation variable of a parent as it stands; the root has none. -/
def searchPlain (p : Parent) : Search := t.search p.id

/-- The search for the continuation variable of a class among its parents. -/
def searchVia (parents : List Parent) : Search :=
  (parents.map t.searchApplied ++ parents.map t.searchPlain).foldr .orElse .absent

/-- The type parameters that a declaration lists: those it declares, or the shared variables that it
is explicitly generic in. -/
def listedParameters (d : ClassDecl) (vars : List TypeVar) : Formed (List TypeVar) :=
  if !vars.isEmpty then .ok vars
  else (d.generic.getD []).mapM fun n =>
    match t.shared.find? fun v => v.name = n with
    | some v => .ok v
    | none => .error (.unknown n)

/-- The type parameters of a class. Those that are listed are distinct, and the variables that the
parents are applied to are among them; if none are listed, they are these variables. -/
def parametersOf (listed : List TypeVar) (parents : List Parent) : Formed (List TypeVar) :=
  let used := (parents.flatMap fun p => Annotation.typeVarsAll (p.args.getD [])).eraseDups
  if listed.isEmpty then .ok used
  else if listed.Nodup ∧ used.all listed.contains then .ok listed
  else .error .misuse

/-- A parent as it is written, with its types looked up. -/
def parentOf (scope : Scope) (p : ParentExpr) : Formed Parent := do
  match t.named? p.name with
  | none => throw (.unknown p.name)
  | some c =>
    match p.args with
    | none => return ⟨c.id, none⟩
    | some args =>
      let types ← TypeExpr.denotes scope false args
      match ← Annotation.applied (.named (t.typeName c.id)) types with
      | .apply _ types => return ⟨c.id, some types⟩
      | _ => throw .misuse

/-- The attribute that a field with a default leaves on the class. -/
def attributeOf (f : FieldDecl) : Option (String × ClassAttribute) :=
  f.default.map fun v => (f.name, if f.isGiven then .value v else .fixedField v)

/-- The class of a declaration, before its decorators. There is none if one of its types cannot be
formed, or if the parents have no common linearization. -/
def classOf (d : ClassDecl) : Formed ClassInfo := do
  let id := t.classes.length
  let vars := (d.params.foldl putNamed []).map fun p => ⟨p.1, .family id, .of d.packs p⟩
  let scope := t.declarationScope vars
  let parents ← d.parents.mapM (t.parentOf scope)
  let listed ← t.listedParameters d vars
  let annotations ← d.fields.mapM fun f => return (f.name, ← f.type.denote scope false)
  let ids := parents.map Parent.id
  let parameters ← parametersOf listed parents
  match Linearization.ofParents id ids (ids.map t.lineage) with
  | none => throw .misuse
  | some lineage =>
    return {
      name := d.name
      parents := parents
      typeVars := vars
      parameters := parameters
      lineage := lineage
      search := t.searchVia parents
      annotations := annotations.foldl putNamed []
      attributes := (d.fields.filterMap attributeOf).foldl putNamed []
      layout := .unsettled
      slot := none }

/-- The outcome of making a class a record. -/
def recordOutcome (r : ClassTable × Bool) :
    ClassTable × List Warning × Except RegistrationFault Unit :=
  (r.1, [], if r.2 then .ok () else .error .notRecord)

/-- Applies one decorator. -/
def decorate (id : Nat) (continuation : Option String) :
    Decorator → ClassTable × List Warning × Except RegistrationFault Unit
  | .register => t.register id continuation
  | .frozenRecord => recordOutcome (t.makeRecord id true)
  | .mutableRecord => recordOutcome (t.makeRecord id false)

/-- Applies decorators in order, up to the first that fails. -/
def decorateAll (id : Nat) (continuation : Option String) :
    List Decorator → ClassTable → ClassTable × List Warning × Except RegistrationFault Unit
  | [], t => (t, [], .ok ())
  | d :: ds, t =>
    match t.decorate id continuation d with
    | (t', ws, .error f) => (t', ws, .error f)
    | (t', ws, .ok ()) =>
      let (t'', ws', r) := decorateAll id continuation ds t'
      (t'', ws ++ ws', r)

/-- The answer to a declaration. -/
structure Declared where
  /-- The slot registered on the class, or the reason why the declaration failed. -/
  outcome : Except RegistrationFault (Option Slot)
  warnings : List Warning

/-- Declares a class. -/
def declare (d : ClassDecl) : ClassTable × Declared :=
  match t.classOf d with
  | .error f => (t, ⟨.error (.type f), []⟩)
  | .ok c =>
    let id := t.classes.length
    -- The class is there from now on, whatever becomes of its decorators.
    let (t', warnings, r) :=
      decorateAll id d.continuation d.decorators { t with classes := t.classes ++ [c] }
    match r with
    | .error f => (t', ⟨.error f, warnings⟩)
    | .ok () =>
      ({ t' with bound := (d.name, id) :: t'.bound },
        ⟨.ok ((t'.info? id).bind ClassInfo.slot), warnings⟩)

end ClassTable

end EffectTrees
