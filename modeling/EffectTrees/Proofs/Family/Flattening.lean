import EffectTrees.Proofs.Family.Chain
import EffectTrees.Proofs.Family.FieldTypes

/-!
# Flattened classes

A record that stands at the lower end of a chain of generic parents inherits fields, and their types
speak of the type parameters of the ancestors. The same record can be declared without any chain: as
a class of its own below the root, which lists all fields itself and writes their types in the
variables of the lower end (`ClassTable.Flattening`). Such a class exists if the annotations can be
read where they were written (`ClassTable.exists_flattening`).

For a type as it is written this means that its variables are renamed. A text holds no variables yet,
only names, and a name may stand for one variable where the text was written and for another one at
the lower end. So a text is read where it was written, and what it denotes is renamed; it may stay
as it is if it denotes that anyway (`ClassTable.Carried`).

A record and its flattened class have the same fields, the same continuation variable
(`Flattening.search_eq`), and the same scope for texts (`Flattening.textScope_eq`). What is
different is the types of inherited fields (`Flattening.typedFields_rel`): those of the record are
read off its annotations as they stand.
-/

namespace EffectTrees

open Annotation (Occurs)

namespace ClassTable

variable {t : ClassTable} {id : Nat} {links : List Link} {top : Parent} {fields : List Field}
  {c : ClassInfo}

/-- The nearest class of a chain that annotates a field, and its annotation. -/
def declarer? (t : ClassTable) (links : List Link) (name : String) : Option (Link × Annotation) :=
  links.findSome? fun l =>
    ((t.info? l.id).bind fun c => c.annotations.reverse.lookup name).map (l, ·)

/-- **An annotation carried down a chain**, from the class of a link to the lower end. Its variables
are renamed. A text is read where it was written and then renamed, unless it denotes the same type at
the lower end anyway. -/
inductive Carried (t : ClassTable) (id : Nat) (l : Link) : Annotation → Annotation → Prop where
  | plain {a : Annotation} (free : a.textDepth = 0) : Carried t id l a (a.rename l.rename)
  | kept {a b : Annotation} (texts : a.textDepth ≠ 0) (read : a.hint (t.textScope l.id) = .ok b)
      (same : a.hint (t.textScope id) = .ok (b.rename l.rename)) : Carried t id l a a
  | rewritten {a b : Annotation} (texts : a.textDepth ≠ 0)
      (read : a.hint (t.textScope l.id) = .ok b)
      (other : a.hint (t.textScope id) ≠ .ok (b.rename l.rename)) :
      Carried t id l a (b.rename l.rename)

/-- **An annotation that need not be changed** on its way down a chain. -/
inductive Stable (t : ClassTable) (id : Nat) (l : Link) (a : Annotation) : Prop where
  | plain (free : a.textDepth = 0) (fixed : ∀ v, Occurs v a → l.rename v = v)
  | kept {b : Annotation} (texts : a.textDepth ≠ 0) (read : a.hint (t.textScope l.id) = .ok b)
      (same : a.hint (t.textScope id) = .ok (b.rename l.rename))

theorem Carried.eq_of_stable {l : Link} {a b : Annotation} (carried : t.Carried id l a b)
    (stable : t.Stable id l a) : b = a := by
  cases carried with
  | plain free =>
    cases stable with
    | plain _ fixed => exact Annotation.rename_eq_self a fixed
    | kept texts => exact absurd free texts
  | kept => rfl
  | rewritten texts read other =>
    cases stable with
    | plain free => exact absurd free texts
    | kept _ read' same =>
      obtain rfl := Except.ok.inj (read.symm.trans read')
      exact absurd same other

/-- A field, and how it is annotated at the lower end of a chain. -/
structure CarriedField (t : ClassTable) (id : Nat) (links : List Link) (f : Field) (a : TypedField) :
    Prop where
  name : a.1 = f.name
  carried : ∃ l b, t.declarer? links f.name = some (l, b) ∧ t.Carried id l b a.2

/-- **The flattened class** of a record at the lower end of a chain. It is declared below the root,
which it applies as the chain does in the end, and it lists all fields of the record itself, in their
order, each with its annotation carried down the chain. -/
structure Flattening (t : ClassTable) (id : Nat) (links : List Link) (top : Parent)
    (fields : List Field) (c : ClassInfo) : Prop where
  parents : c.parents = [top]
  placed : (t.add c).Placed t.classes.length c
  typeVars : c.typeVars = t.typeVarsOf id
  annotations : List.Forall₂ (t.CarriedField id links) fields c.annotations
  entries : c.layout.entries = t.entries? id

/-- A field of a record beside the same field of the flattened class. The record has the type that
the annotation is read as, and the flattened class has that of the annotation carried down. -/
def Beside (t : ClassTable) (id : Nat) (links : List Link) (x y : TypedField) : Prop :=
  x.1 = y.1 ∧ ∃ l a a', t.declarer? links x.1 = some (l, a) ∧ t.Carried id l a a' ∧
    a.fieldType (t.textScope id) = .ok x.2 ∧ a'.fieldType (t.textScope id) = .ok y.2

/-! ### There are flattened classes -/

/-- What can be read where it was written can be carried down. -/
theorem exists_carried {l : Link} {a : Annotation}
    (readable : a.textDepth ≠ 0 → ∃ b, a.hint (t.textScope l.id) = .ok b) :
    ∃ a', t.Carried id l a a' := by
  by_cases texts : a.textDepth = 0
  · exact ⟨_, .plain texts⟩
  · obtain ⟨b, read⟩ := readable texts
    by_cases same : a.hint (t.textScope id) = .ok (b.rename l.rename)
    · exact ⟨_, .kept texts read same⟩
    · exact ⟨_, .rewritten texts read same⟩

/-- The flattened class with the given annotations. -/
def flattened (t : ClassTable) (id : Nat) (top : Parent) (annotations : List TypedField) :
    ClassInfo where
  name := (t.ref id).name
  parents := [top]
  typeVars := t.typeVarsOf id
  parameters := t.typeVarsOf id
  lineage := [t.classes.length, 0]
  search := t.searchVia [top]
  annotations := annotations
  attributes := []
  layout := { Layout.unsettled with entries := t.entries? id }
  slot := none

theorem flattening_flattened (reachable : t.Reachable) (chain : t.Chain id links top)
    {annotations : List TypedField}
    (carried : List.Forall₂ (t.CarriedField id links) fields annotations) :
    t.Flattening id links top fields (t.flattened id top annotations) := by
  have earlier : ∀ q ∈ [top], q.id < t.classes.length := by
    intro q mem
    rw [List.mem_singleton.mp mem, chain.id_top]
    exact reachable.pos
  have below := t.sameBelow_add (t.flattened id top annotations)
  have linear : Linearization.ofParents t.classes.length [top.id]
      [(t.add (t.flattened id top annotations)).lineage top.id] = some [t.classes.length, 0] := by
    rw [← below.lineage_eq (earlier top (by simp)), chain.id_top, reachable.lineage_root]
    simp [Linearization.ofParents, Linearization.merge_head]
  exact ⟨rfl, ⟨earlier, linear, below.searchVia_eq earlier⟩, rfl, carried, rfl⟩

/-- **A record has a flattened class** if its annotations can be read where they were written. -/
theorem exists_flattening (reachable : t.Reachable) (chain : t.Chain id links top)
    (readable : ∀ f ∈ fields, ∃ l a, t.declarer? links f.name = some (l, a) ∧
      (a.textDepth ≠ 0 → ∃ b, a.hint (t.textScope l.id) = .ok b)) :
    ∃ c, t.Flattening id links top fields c := by
  have each : ∀ f ∈ fields, ∃ a, t.CarriedField id links f a := by
    intro f mem
    obtain ⟨l, b, declared, readable⟩ := readable f mem
    obtain ⟨a, carried⟩ := exists_carried (t := t) readable
    exact ⟨(f.name, a), rfl, l, b, declared, carried⟩
  obtain ⟨annotations, carried⟩ := List.Forall₂.exists_of_forall each
  exact ⟨_, flattening_flattened reachable chain carried⟩

/-! ### What a flattened class is -/

theorem Chain.annotation?_eq (reachable : t.Reachable) (chain : t.Chain id links top)
    (name : String) : t.annotation? id name = (t.declarer? links name).map Prod.snd := by
  have along : ∀ ls : List Link,
      ((ls.map Link.id).findSome? fun k =>
        (t.info? k).bind fun c => c.annotations.reverse.lookup name) =
      (t.declarer? ls name).map Prod.snd := by
    intro ls
    induction ls with
    | nil => rfl
    | cons l ls ih =>
      rw [List.map_cons, List.findSome?_cons, declarer?, List.findSome?_cons]
      cases (t.info? l.id).bind fun c => c.annotations.reverse.lookup name with
      | none => exact ih
      | some a => rfl
  rw [annotation?, lookup?, chain.lineage reachable]
  exact along links

theorem ofVars_append_of_mem {vars : List TypeVar} {v : TypeVar} (mem : v ∈ vars) :
    Scope.ofVars (vars ++ [v]) = Scope.ofVars vars := by
  funext n
  unfold Scope.ofVars
  rw [List.find?_append]
  cases found : vars.find? fun w => w.spelling = n with
  | some w => rfl
  | none =>
    have other := List.find?_eq_none.mp found v mem
    have absent : [v].find? (fun w => w.spelling = n) = none := by simpa using other
    rw [absent]
    rfl

theorem Chain.rootVariable_mem (chain : t.Chain id links top) (reachable : t.Reachable) :
    rootVariable ∈ t.typeVarsOf id := by
  have above : 0 ∈ t.lineage id := by
    rw [chain.lineage reachable]
    exact chain.root_mem
  refine List.mem_flatMap.mpr ⟨0, above, ?_⟩
  rw [reachable.map_root ClassInfo.typeVars fun _ => rfl]
  exact List.mem_singleton_self _

/-- Names that stand for classes stand for the same classes in the grown table. -/
theorem globalScope_add (reachable : t.Reachable) : (t.add c).globalScope = t.globalScope := by
  have bound : (t.add c).boundScope = t.boundScope := by
    funext n
    unfold boundScope
    cases found : t.bound.find? fun b => b.1 = n with
    | none => rw [Option.map_none]; rfl
    | some b =>
      have known := reachable.known_of_bound b (List.mem_of_find?_eq_some found)
      obtain ⟨c₀, known⟩ := Option.isSome_iff_exists.mp known
      have same : (t.add c).typeName b.2 = t.typeName b.2 := by
        unfold typeName
        rw [info?_add t c (lt_of_info? known)]
      rw [Option.map_some, Option.map_some, same]
  rw [globalScope, globalScope, bound]

namespace Flattening

theorem lineage (flat : t.Flattening id links top fields c) (reachable : t.Reachable)
    (chain : t.Chain id links top) : (t.add c).lineage t.classes.length = [t.classes.length, 0] := by
  have known : (t.add c).info? t.classes.length = some c := info?_add_self t c
  have above : (t.add c).lineage top.id = top.id :: [] := by
    rw [chain.id_top, ← (t.sameBelow_add c).lineage_eq reachable.pos, reachable.lineage_root]
  rw [lineage_eq known, flat.placed.lineage_eq flat.parents above (List.nodup_singleton _),
    chain.id_top]

/-- What is looked up for the flattened class is found in the class itself or in the root. -/
theorem lookup?_eq {α : Type} (flat : t.Flattening id links top fields c) (reachable : t.Reachable)
    (chain : t.Chain id links top) (f : ClassInfo → Option α) :
    (t.add c).lookup? f t.classes.length = (f c).or ((t.info? 0).bind f) := by
  rw [lookup?, flat.lineage reachable chain, List.findSome?_cons, info?_add_self, Option.bind_some,
    List.findSome?_cons, info?_add t c reachable.pos, List.findSome?_nil]
  cases f c <;> cases (t.info? 0).bind f <;> rfl

/-- **The continuation variable is the same.** -/
theorem search_eq (flat : t.Flattening id links top fields c) (reachable : t.Reachable)
    (chain : t.Chain id links top) :
    (t.add c).search t.classes.length = t.search id := by
  have earlier : ∀ q ∈ [top], q.id < t.classes.length := by
    intro q mem
    rw [List.mem_singleton.mp mem, chain.id_top]
    exact reachable.pos
  rw [search, info?_add_self, Option.map_some, Option.getD_some, flat.placed.search, flat.parents,
    ← (t.sameBelow_add c).searchVia_eq earlier, reachable.searchVia_root chain.id_top chain.args_top,
    chain.search reachable]

theorem fields?_eq (flat : t.Flattening id links top fields c) (reachable : t.Reachable)
    (chain : t.Chain id links top) (record : t.fields? id = some fields) :
    (t.add c).fields? t.classes.length = some fields := by
  obtain ⟨entries, listed, rfl⟩ := Option.map_eq_some_iff.mp record
  rw [fields?, entries?, flat.lookup?_eq reachable chain, flat.entries, listed]
  rfl

/-- Texts in the flattened class are read as in the record. -/
theorem textScope_eq (flat : t.Flattening id links top fields c) (reachable : t.Reachable)
    (chain : t.Chain id links top) :
    (t.add c).textScope t.classes.length = t.textScope id := by
  -- The variable of the root is there twice: the record has it already, and the root is an ancestor.
  have vars : (t.add c).typeVarsOf t.classes.length = t.typeVarsOf id ++ [rootVariable] := by
    have root := reachable.map_root ClassInfo.typeVars fun _ => rfl
    rw [typeVarsOf, flat.lineage reachable chain, List.flatMap_cons, info?_add_self,
      List.flatMap_singleton, info?_add t c reachable.pos, root, Option.map_some, Option.getD_some,
      Option.getD_some, flat.typeVars]
    rfl
  rw [textScope, textScope, vars, ofVars_append_of_mem (chain.rootVariable_mem reachable),
    globalScope_add reachable]

/-- The flattened class inherits no annotations. -/
theorem written_eq (flat : t.Flattening id links top fields c) (reachable : t.Reachable)
    (chain : t.Chain id links top) : (t.add c).written t.classes.length = c.annotations := by
  have root := reachable.map_root ClassInfo.annotations fun _ => rfl
  rw [← info?_add t c reachable.pos] at root
  rw [written, flat.lineage reachable chain]
  simp [root, info?_add_self, ClassTable.root]

/-- A field of the flattened class is annotated as the chain carries it down. -/
theorem exists_annotation (flat : t.Flattening id links top fields c) (reachable : t.Reachable)
    (chain : t.Chain id links top) {f : Field} (mem : f ∈ fields) :
    ∃ l b a, t.declarer? links f.name = some (l, b) ∧ t.Carried id l b a ∧
      (t.add c).annotation? t.classes.length f.name = some a := by
  have own : (t.add c).annotation? t.classes.length f.name = c.annotations.reverse.lookup f.name := by
    rw [← lookup_reverse_written, flat.written_eq reachable chain]
  rw [own]
  cases found : c.annotations.reverse.lookup f.name with
  | none =>
    obtain ⟨a, among, name, -⟩ := flat.annotations.exists_right mem
    have other := List.lookup_eq_none_iff.mp found a (List.mem_reverse.mpr among)
    simp [name] at other
  | some a =>
    rw [lookup_eq_find?] at found
    obtain ⟨⟨n, _⟩, first, rfl⟩ := Option.map_eq_some_iff.mp found
    -- The annotation that is found belongs to some field, and the name says to which one.
    have among := List.mem_reverse.mp (List.mem_of_find?_eq_some first)
    obtain ⟨f', -, name, l, b, declared, carried⟩ := flat.annotations.exists_left among
    obtain rfl : n = f.name := by simpa using List.find?_some first
    rw [← name] at declared
    exact ⟨l, b, _, declared, carried, rfl⟩

/-- **The types of a field at both classes**: its annotation is read as it stands for the record, and
as the chain carries it down for the flattened class. -/
theorem typedFields_rel (flat : t.Flattening id links top fields c) (reachable : t.Reachable)
    (chain : t.Chain id links top) (record : t.fields? id = some fields)
    {typed typed' : List TypedField} (read : t.typedFields id = .ok typed)
    (read' : (t.add c).typedFields t.classes.length = .ok typed') :
    List.Forall₂ (t.Beside id links) typed typed' := by
  obtain ⟨types, hints, rfl⟩ := exists_typedFields read record
  obtain ⟨types', hints', rfl⟩ := exists_typedFields read' (flat.fields?_eq reachable chain record)
  rw [List.forall₂_map_left_iff, List.forall₂_map_right_iff, List.forall₂_same]
  intro f mem
  have listed : f ∈ fields := List.mem_of_mem_filter mem
  obtain ⟨l, a, a', declared, carried, own⟩ := flat.exists_annotation reachable chain listed
  have inherited : t.annotation? id f.name = some a := by
    rw [chain.annotation?_eq reachable, declared]
    rfl
  obtain ⟨type, typed, found⟩ := exists_type_of_annotation hints inherited
  obtain ⟨type', typed', found'⟩ := exists_type_of_annotation hints' own
  rw [flat.textScope_eq reachable chain] at typed'
  rw [found, found']
  exact ⟨rfl, l, a, a', declared, carried, typed, typed'⟩

/-- If no annotation is changed on its way down the chain, the types at both classes are the same. -/
theorem typedFields_eq (flat : t.Flattening id links top fields c) (reachable : t.Reachable)
    (chain : t.Chain id links top) (record : t.fields? id = some fields) {typed : List TypedField}
    (read : t.typedFields id = .ok typed)
    (stable : ∀ f ∈ fields, ∀ l a, t.declarer? links f.name = some (l, a) → t.Stable id l a) :
    (t.add c).typedFields t.classes.length = .ok typed := by
  obtain ⟨types, hints, -⟩ := exists_typedFields read record
  -- Nothing is annotated in the flattened class but its fields, so all annotations can be read.
  have readable : ∀ a ∈ (t.add c).written t.classes.length,
      ∃ type, a.2.fieldType ((t.add c).textScope t.classes.length) = .ok type := by
    intro a mem
    rw [flat.written_eq reachable chain] at mem
    obtain ⟨f, listed, -, l, b, declared, carried⟩ := flat.annotations.exists_left mem
    have inherited : t.annotation? id f.name = some b := by
      rw [chain.annotation?_eq reachable, declared]
      rfl
    obtain ⟨type, typed, -⟩ := exists_type_of_annotation hints inherited
    rw [carried.eq_of_stable (stable f listed l b declared), flat.textScope_eq reachable chain]
    exact ⟨type, typed⟩
  obtain ⟨types', hints'⟩ := exists_fieldTypes readable
  have read' := ClassTable.typedFields_eq hints' (flat.fields?_eq reachable chain record)
  have beside := flat.typedFields_rel reachable chain record read read'
  have same : List.Forall₂ Eq typed typed := List.forall₂_refl typed
  have equal := beside.fork same (Q := Eq) ?_
  · rw [List.forall₂_eq_eq_eq] at equal
    rw [read', equal]
  · -- What was not changed is read as the same type.
    rintro x y _ mem ⟨name, l, a, a', declared, carried, type, type'⟩ rfl
    obtain ⟨f, listed, named⟩ : ∃ f ∈ fields, f.name = x.1 := by
      have among := List.mem_map_of_mem (f := Prod.fst) mem
      rw [map_fst_typedFields record read] at among
      obtain ⟨f, given, named⟩ := List.mem_map.mp among
      exact ⟨f, List.mem_of_mem_filter given, named⟩
    rw [← named] at declared
    obtain rfl := carried.eq_of_stable (stable f listed l a declared)
    exact Prod.ext name.symm (Except.ok.inj (type'.symm.trans type))

end Flattening

end ClassTable

end EffectTrees
