import EffectTrees.Family.Basic

/-!
# Making a class a record

A decorator turns the annotations of a class into the fields of its instances. The record starts
from the records of the ancestors, farthest first, and a field that is annotated again keeps its
place and takes the new description.

A class becomes a record in steps, and a failure leaves the steps before it done:

* a frozen record has no ancestors that are records, or a frozen one among them; a record that is
  not frozen has no frozen ancestor (`ClassTable.fitsAncestors`);
* a field without default does not follow one with a default (`Record.defaultsLast`);
* a class is guarded against change only once.

A class may be decorated again. Its fields are described anew then, but the ways to make, show and
compare instances that it has already stay what they are (`Layout.complete`).
-/

namespace EffectTrees

namespace Record

/-- Adds a field. A field of that name is replaced where it stands. -/
def putEntry (entries : List Field) (f : Field) : List Field :=
  if entries.any fun g => g.name = f.name then
    entries.map fun g => if g.name = f.name then f else g
  else entries ++ [f]

/-- No field without default follows one with a default. -/
def defaultsLast : List Field → Bool
  | [] => true
  | f :: fs => (f.default.isNone || fs.all fun g => g.default.isSome) && defaultsLast fs

end Record

namespace Layout

/-- The layout after its fields have been listed: what it does not settle yet is settled by the
fields. -/
def complete (l : Layout) (frozen : Bool) (fields : List Field) : Layout :=
  let names := fields.map Field.name
  { l with
    initializer := l.initializer.or (some ⟨fields.filter Field.isGiven, frozen⟩)
    shown := l.shown.or (some names)
    compared := l.compared.or (some names) }

/-- The layout after its guard has been set up: instances of a frozen record are hashed by their
fields, and those of any other cannot be hashed. Hashing by fields stays. -/
def guard (l : Layout) (frozen : Bool) (fields : List Field) : Layout :=
  let names := fields.map Field.name
  { l with
    guarded := if frozen then some names else l.guarded
    hashing :=
      match l.hashing with
      | some (.byFields hashed) => some (.byFields hashed)
      | _ => some (if frozen then .byFields names else .never) }

end Layout

namespace Annotation

/-- The type of a constant of the class, also at the start of a text. -/
def isConstant : Annotation → Bool
  | classVar _ => true
  | text t => t.startsConstant
  | _ => false

end Annotation

namespace ClassTable

variable (t : ClassTable)

/-- The proper ancestors of a class that are records, farthest first. -/
def recordAncestors (id : Nat) : List Nat := (t.lineage id).tail.reverse.filter t.isRecord

/-- The field that an annotation of the class describes. The default is the attribute of that name
that the class or an ancestor has. -/
def fieldOf (id : Nat) (written : String × Annotation) : Field :=
  let found := t.attribute? id written.1
  { name := written.1
    default := found.map ClassAttribute.default
    isGiven := !found.any ClassAttribute.isFixedField
    isConstant := written.2.isConstant }

/-- The entries of the record that the class would list. -/
def entriesOf (id : Nat) (c : ClassInfo) : List Field :=
  let inherited := (t.recordAncestors id).flatMap fun k => (t.entries? k).getD []
  (inherited ++ c.annotations.map (t.fieldOf id)).foldl Record.putEntry []

/-- Whether a record may be frozen, or not frozen, beside the records of the ancestors. -/
def fitsAncestors (id : Nat) (frozen : Bool) : Bool :=
  match t.recordAncestors id with
  | [] => true
  | ancestors => (ancestors.any t.isFrozen) == frozen

/-- The attributes of a class after its fields have been described: a field that cannot be given
leaves its default behind. -/
def settledAttributes (id : Nat) (c : ClassInfo) : List (String × ClassAttribute) :=
  c.annotations.foldl
    (fun as written =>
      match t.attribute? id written.1 with
      | some (.fixedField v) => (written.1, .value v) :: as.filter fun a => a.1 ≠ written.1
      | _ => as)
    c.attributes

/-- Makes a class a record, and says whether all went well. -/
def makeRecord (id : Nat) (frozen : Bool) : ClassTable × Bool :=
  match t.info? id with
  | none => (t, false)
  | some c =>
    let entries := t.entriesOf id c
    -- The fields are described before anything can fail, so this much is done in any case.
    let described := (t.setLayout id fun l => { l with frozen := some frozen }).update id fun c =>
      { c with attributes := t.settledAttributes id c }
    if !t.fitsAncestors id frozen then (described, false)
    else
      let listed := described.setLayout id fun l => { l with entries := some entries }
      let fields := entries.filter fun f => !f.isConstant
      if !Record.defaultsLast (fields.filter Field.isGiven) then (listed, false)
      else
        let completed := listed.setLayout id fun l => l.complete frozen fields
        if frozen && c.layout.guarded.isSome then (completed, false)
        else (completed.setLayout id fun l => l.guard frozen fields, true)

end ClassTable

end EffectTrees
