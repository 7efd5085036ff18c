import EffectTrees.Act

/-!
# Descriptors

A descriptor is an instance of an effect class. It holds what the effect needs to know and, in its
slot, the rest of the computation. What it was given when it was made it holds itself; any other
member it has from its class.

* `Value.member?` and `Value.lookup` read the members of a value.
* `Instance.make` makes an instance of a class from named values.
* `Instance.replace` makes a copy of an instance with one member changed: the copy is made anew,
  from the members that the fields of the record name now.
* `Value.replaceMember` copies any value with one member changed.
-/

namespace EffectTrees

namespace Value

/-- The value is an instance of the class with the given number. -/
def isA (v : Value) (id : Nat) : Bool :=
  match v with
  | descriptor c _ => c.isA id
  | _ => false

/-- The value that stands under a name; of several, the first one. -/
def fieldAt? (fields : List (String × Value)) (name : String) : Option Value :=
  (fields.find? fun f => f.1 = name).map Prod.snd

@[simp] theorem fieldAt?_nil (name : String) : fieldAt? [] name = none := rfl

@[simp] theorem fieldAt?_cons (f : String × Value) (fields : List (String × Value))
    (name : String) :
    fieldAt? (f :: fields) name = if f.1 = name then some f.2 else fieldAt? fields name := by
  by_cases h : f.1 = name <;> simp [fieldAt?, h]

/-- The member of the given name that a value has of its own. -/
def member? (v : Value) (name : String) : Option Value :=
  match v, name with
  | payload (.resolved x), "value" => some x
  | payload (.deferred f), "thunk" => some f
  | tree (.done p), "value" => some (payload p)
  | tree (.suspended d), "descriptor" => some d
  | plain (.pure x), "value" => some x
  | plain (.free d), "descriptor" => some d
  | descriptor _ fields, _ => fieldAt? fields name
  | slot n _ _, "name" => some n
  | slot _ k _, "kind" => some k
  | slot _ _ a, "arity" => some a
  | analysis r _, "result" => some (ofResult r)
  | analysis _ tr, "trace" => some (list tr)
  | analysis r _, "complete" => some (bool r.isSome)
  | analysis r _, "value" => some (r.getD null)
  | locator c, "effect_type" => some (cls c)
  | snoc i _, "init" => some i
  | snoc _ l, "last" => some l
  | cons h _, "head" => some h
  | cons _ t, "tail" => some t
  | _, _ => none

/-- What becomes of a look at a member of the unknown argument: private members are missing, and any
other aborts. -/
def poisonMember {α : Type} (name : String) : Act α :=
  if name.startsWith "_" then Act.fail .missingMember else Act.abort

/-- The member of the given name, which instances and classes may also have from a class. -/
def lookup (v : Value) (name : String) : Act Value :=
  match v, v.member? name with
  | poison, _ => poisonMember name
  | _, some x => pure x
  | descriptor c _, none | cls c, none => do
    match (← Act.classes).valueAt? c.id name with
    | some s => pure (scalar s)
    | none => Act.fail .missingMember
  | _, none => Act.fail .missingMember

end Value

namespace Instance

/-- Makes an instance of a class from named values. Fields without default are required, and no
other names are accepted; of several values for one name the last one counts. -/
def make (c : ClassRef) (args : List (String × Value)) : Act Value := do
  let t ← Act.classes
  let given := t.givenFields c.id
  if args.any fun a => !given.any fun f => f.name = a.1 then Act.fail .misuse
  else if given.any fun f => f.default.isNone && !args.any fun a => a.1 = f.name then
    Act.fail .misuse
  else if !((t.initializer? c.id).any Initializer.isPrivileged) &&
      given.any fun f => t.guards c.id f.name then
    Act.fail .guarded
  else
    pure <| .descriptor c <| given.filterMap fun f =>
      ((Value.fieldAt? args.reverse f.name).or (f.default.map .scalar)).map fun v => (f.name, v)

/-- Makes an instance of a class from values in the order of its fields. -/
def makeInOrder (c : ClassRef) (args : List Value) : Act Value := do
  let names := ((← Act.classes).givenFields c.id).map Field.name
  if args.length ≤ names.length then make c (names.zip args) else Act.fail .misuse

/-- The named values that a copy of an instance is made from, if what it holds is as given. -/
def arguments (t : ClassTable) (c : ClassRef) (own : List (String × Value)) (fields : List Field) :
    Except Fault (List (String × Value)) :=
  (fields.filter Field.isGiven).mapM fun f =>
    match t.memberOf? c.id own .scalar f.name with
    | some v => .ok (f.name, v)
    | none => .error .missingMember

/-- A copy of an instance with one member changed. A field that cannot be given cannot be changed
either; which fault is found first depends on the order of the fields. -/
def replace (c : ClassRef) (own : List (String × Value)) (name : String) (new : Value) :
    Act Value := do
  let t ← Act.classes
  match t.fields? c.id with
  | none => Act.fail .misuse
  | some fields =>
    let changed := (name, new) :: own
    let before := fields.takeWhile fun f => f.isGiven || f.name ≠ name
    let args ← Act.ofFault (arguments t c changed before)
    if before.length < fields.length then Act.fail .badValue
    else if args.any fun a => a.1 = name then make c args
    else make c ((name, new) :: args)

end Instance

namespace Value

/-- A copy of a value with one member changed, for values that are made of named members. -/
def replaceMember (v : Value) (name : String) (new : Value) : Act Value :=
  match v, name with
  | payload (.resolved _), "value" => pure (payload (.resolved new))
  | payload (.deferred _), "thunk" => pure (payload (.deferred new))
  | tree (.done _), "value" => pure (tree (.ofDone new))
  | tree (.suspended _), "descriptor" => pure (tree (.suspended new))
  | plain (.pure _), "value" => pure (plain (.pure new))
  | plain (.free _), "descriptor" => pure (plain (.free new))
  | slot _ k a, "name" => pure (slot new k a)
  | slot n _ a, "kind" => pure (slot n new a)
  | slot n k _, "arity" => pure (slot n k new)
  | snoc _ l, "init" => pure (snoc new l)
  | snoc i _, "last" => pure (snoc i new)
  | cons _ t, "head" => pure (cons new t)
  | cons h _, "tail" => pure (cons h new)
  | descriptor c own, _ => Instance.replace c own name new
  | _, _ => Act.fail .misuse

end Value

end EffectTrees
