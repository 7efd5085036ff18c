import EffectTrees.Annotation.Format
import EffectTrees.Annotation.Scope
import EffectTrees.Slot

/-!
# Families of effect classes

The classes of a program, each known by its number in the order of declaration. Number zero is the
root of all effect classes; its only variable stands for the continuation.

A class is an effect class if the root is among its ancestors, and a *record* if it, or an ancestor,
lists the fields of its instances. What a class settles about its instances falls into several parts
(`Layout`): which fields there are, how instances are made, shown, compared, guarded and hashed. A
class takes over each part that it leaves open from its nearest ancestor that settles it.

* `ClassTable` holds the classes together with what names stand for.
* `ClassTable.lookup?` looks along the linearization of a class, nearest ancestor first; all that
  classes take over from their ancestors is found through it.
-/

namespace EffectTrees

/-- A class as seen from a value: its number, its name, and the numbers of the class and its
ancestors, nearest first. -/
structure ClassRef where
  id : Nat
  name : String
  lineage : List Nat
  deriving DecidableEq, Repr, Inhabited

namespace ClassRef

/-- The root of all effect classes. -/
def effect : ClassRef := ⟨0, "Effect", [0]⟩

/-- The written form of the class. -/
def text (c : ClassRef) : String := (TypeName.family c.id c.name []).text

/-- The class is, or descends from, the class with the given number. -/
def isA (c : ClassRef) (id : Nat) : Bool := c.lineage.contains id

/-- The class is an effect class. -/
def isEffect (c : ClassRef) : Bool := c.isA effect.id

end ClassRef

/-- A value that a class keeps for its instances. -/
inductive ClassAttribute where
  /-- The value itself. -/
  | value (v : Scalar)
  /-- The specification of a field that is set when an instance is made and cannot be given. -/
  | fixedField (default : Scalar)
  deriving DecidableEq, Repr, Inhabited

namespace ClassAttribute

/-- The value that a field of that name has unless it is given another one. -/
def default : ClassAttribute → Scalar
  | value v => v
  | fixedField v => v

/-- The value that an instance without a value of its own shows. -/
def value? : ClassAttribute → Option Scalar
  | value v => some v
  | fixedField _ => none

/-- The attribute is the specification of a field that cannot be given. -/
def isFixedField : ClassAttribute → Bool
  | value _ => false
  | fixedField _ => true

end ClassAttribute

/-- A field of a record. A constant of the class keeps a place among the fields without being one,
since a later class may turn it into a field. -/
structure Field where
  name : String
  default : Option Scalar
  /-- The field is given when an instance is made. -/
  isGiven : Bool
  /-- The entry is a constant of the class, no field. -/
  isConstant : Bool
  deriving DecidableEq, Repr, Inhabited

/-- How instances are made. -/
structure Initializer where
  /-- The fields that an instance is given, in order. -/
  fields : List Field
  /-- The fields are set past the guards of the class. -/
  isPrivileged : Bool
  deriving DecidableEq, Repr, Inhabited

/-- How instances are hashed. -/
inductive Hashing where
  | byFields (names : List String)
  | never
  deriving DecidableEq, Repr, Inhabited

/-- What a class itself settles about its instances. -/
structure Layout where
  /-- Whether the class was last asked to be frozen. -/
  frozen : Option Bool
  /-- The fields, and the constants among them. -/
  entries : Option (List Field)
  initializer : Option Initializer
  /-- The fields that the written form shows. -/
  shown : Option (List String)
  /-- The fields that make two instances equal. -/
  compared : Option (List String)
  /-- The fields that are guarded against assignment; other fields of the very class are too. -/
  guarded : Option (List String)
  hashing : Option Hashing
  deriving DecidableEq, Repr, Inhabited

namespace Layout

/-- Nothing is settled. -/
def unsettled : Layout := ⟨none, none, none, none, none, none, none⟩

end Layout

/-- A parent as written: a class, with the types it is applied to if there are any. -/
structure Parent where
  id : Nat
  args : Option (List Annotation)
  deriving Repr, Inhabited

/-- How the search for the continuation variable of a class ends. -/
inductive Search where
  | found (v : TypeVar)
  /-- No parent has anything in the place of its own continuation variable. -/
  | absent
  /-- A parent is applied to fewer types than its own continuation variable has before it. -/
  | outOfRange
  deriving DecidableEq, Repr, Inhabited

namespace Search

/-- The variable, if there is one. -/
def ofOption : Option TypeVar → Search
  | some v => found v
  | none => absent

/-- Goes on with a second search if the first one comes to its end without a variable. -/
def orElse : Search → Search → Search
  | absent, s => s
  | found v, _ => found v
  | outOfRange, _ => outOfRange

@[simp] theorem absent_orElse (s : Search) : absent.orElse s = s := rfl

@[simp] theorem orElse_absent (s : Search) : s.orElse absent = s := by cases s <;> rfl

end Search

/-- What is known of a class. -/
structure ClassInfo where
  name : String
  parents : List Parent
  /-- The type parameters that the class itself declares. -/
  typeVars : List TypeVar
  /-- The type parameters in the order in which arguments are given for them. -/
  parameters : List TypeVar
  /-- The class and its ancestors, nearest first. -/
  lineage : List Nat
  /-- How the search for the continuation variable among the parents ends. -/
  search : Search
  /-- The types of the fields that the class itself annotates, in order. -/
  annotations : List (String × Annotation)
  attributes : List (String × ClassAttribute)
  layout : Layout
  /-- The slot registered on this very class. -/
  slot : Option Slot
  deriving Repr, Inhabited

/-- The classes of a program and what its names stand for. -/
structure ClassTable where
  classes : List ClassInfo
  /-- The variables that all declarations share. -/
  shared : List TypeVar
  /-- The classes that later texts can name, latest first. -/
  bound : List (String × Nat)
  deriving Repr, Inhabited

/-- Puts an entry into a list of named entries. An entry of that name is replaced where it
stands. -/
def putNamed {α : Type} (entries : List (String × α)) (e : String × α) : List (String × α) :=
  if entries.any fun f => f.1 = e.1 then entries.map fun f => if f.1 = e.1 then e else f
  else entries ++ [e]

namespace ClassTable

/-- The variable of the root, which stands for the continuation. -/
def rootVariable : TypeVar := ⟨"K", .family 0, .single⟩

/-- The root of all effect classes. -/
def root : ClassInfo where
  name := ClassRef.effect.name
  parents := []
  typeVars := [rootVariable]
  parameters := [rootVariable]
  lineage := ClassRef.effect.lineage
  search := .absent
  annotations := []
  attributes := []
  layout := .unsettled
  slot := none

/-- The table of a program with the given shared variables and no classes yet. -/
def initial (shared : List TypeVar) : ClassTable := ⟨[root], shared, []⟩

variable (t : ClassTable)

/-- What is known of the class with the given number. -/
def info? (id : Nat) : Option ClassInfo := t.classes[id]?

/-- The class and its ancestors, nearest first. -/
def lineage (id : Nat) : List Nat := ((t.info? id).map ClassInfo.lineage).getD []

/-- How the search for the continuation variable of a class ends. -/
def search (id : Nat) : Search := ((t.info? id).map ClassInfo.search).getD .absent

/-- The first answer along the linearization of a class. -/
def lookup? {α : Type} (f : ClassInfo → Option α) (id : Nat) : Option α :=
  (t.lineage id).findSome? fun k => (t.info? k).bind f

/-- The fields of a class, and the constants among them, if it is a record. -/
def entries? (id : Nat) : Option (List Field) := t.lookup? (·.layout.entries) id

/-- The fields of a record, in order. -/
def fields? (id : Nat) : Option (List Field) :=
  (t.entries? id).map fun es => es.filter fun f => !f.isConstant

/-- The class is a record. -/
def isRecord (id : Nat) : Bool := (t.entries? id).isSome

/-- The class is to be frozen. -/
def isFrozen (id : Nat) : Bool := (t.lookup? (·.layout.frozen) id).getD false

/-- How instances are made, unless they are made of nothing. -/
def initializer? (id : Nat) : Option Initializer := t.lookup? (·.layout.initializer) id

/-- The fields that instances are given. -/
def givenFields (id : Nat) : List Field := ((t.initializer? id).map Initializer.fields).getD []

/-- The fields that the written form of an instance shows, if instances have one. -/
def shown? (id : Nat) : Option (List String) := t.lookup? (·.layout.shown) id

/-- The fields that make two instances equal, if anything does. -/
def compared? (id : Nat) : Option (List String) := t.lookup? (·.layout.compared) id

/-- How instances are hashed, unless all of them are told apart. -/
def hashing? (id : Nat) : Option Hashing := t.lookup? (·.layout.hashing) id

/-- A guard stands before a field of the instances of a class. The guard of a class stands before
all fields of its own instances, and before some fields of the instances of its descendants. -/
def guards (id : Nat) (name : String) : Bool :=
  (t.lineage id).any fun k =>
    ((t.info? k).bind (·.layout.guarded)).any fun names => k = id || names.contains name

/-- The class attribute of the given name. -/
def attribute? (id : Nat) (name : String) : Option ClassAttribute :=
  t.lookup? (fun c => (c.attributes.find? fun a => a.1 = name).map Prod.snd) id

/-- The value that instances without a value of their own show under a name. -/
def valueAt? (id : Nat) (name : String) : Option Scalar :=
  (t.attribute? id name).bind ClassAttribute.value?

/-- What an instance has under a name: a part of its own, or else what it has from its class. -/
def memberOf? {α : Type} (id : Nat) (own : List (String × α)) (ofClass : Scalar → α)
    (name : String) : Option α :=
  ((own.find? fun f => f.1 = name).map Prod.snd).or ((t.valueAt? id name).map ofClass)

/-- The class with the given number, as seen from values. -/
def ref (id : Nat) : ClassRef := ⟨id, ((t.info? id).map ClassInfo.name).getD "", t.lineage id⟩

/-- The class with the given number, as seen from types. -/
def typeName (id : Nat) : TypeName :=
  let c := t.info? id
  .family id ((c.map ClassInfo.name).getD "")
    ((c.map fun c => c.parameters.map TypeVar.kind).getD [])

/-- The class that a name stands for in expressions: the latest of that name. -/
def named? (name : String) : Option ClassRef :=
  ((List.range t.classes.length).reverse.find? fun id =>
    (t.info? id).any fun c => c.name = name).map t.ref

/-- The direct subclasses of a class, in order of declaration. -/
def subclasses (id : Nat) : List Nat :=
  (List.range t.classes.length).filter fun k =>
    (t.info? k).any fun c => c.parents.any fun p => p.id = id

/-- Changes what is known of one class. -/
def update (id : Nat) (f : ClassInfo → ClassInfo) : ClassTable :=
  { t with classes := t.classes.modify id f }

/-- Changes what a class settles about its instances. -/
def setLayout (id : Nat) (f : Layout → Layout) : ClassTable :=
  t.update id fun c => { c with layout := f c.layout }

/-! ### What names stand for -/

/-- The variables that texts in the given class can name: those of the class and its ancestors,
nearest first. -/
def typeVarsOf (id : Nat) : List TypeVar :=
  (t.lineage id).flatMap fun k => ((t.info? k).map ClassInfo.typeVars).getD []

/-- The classes that have been declared successfully so far. -/
def boundScope : Scope := fun n =>
  (t.bound.find? fun b => b.1 = n).map fun b => .named (t.typeName b.2)

/-- What names stand for behind the variables of a class. -/
def globalScope : Scope := (Scope.ofVars t.shared).orElse (t.boundScope.orElse Scope.fixed)

/-- What the names in the texts of a class stand for. -/
def textScope (id : Nat) : Scope := (Scope.ofVars (t.typeVarsOf id)).orElse t.globalScope

end ClassTable

end EffectTrees
