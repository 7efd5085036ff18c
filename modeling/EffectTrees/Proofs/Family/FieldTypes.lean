import EffectTrees.Proofs.Family.Reachable

/-!
# The types of fields

Derivation reads all annotations of a class and its ancestors, and then goes by the nearest one of
each name. For a single field it comes to this: the annotation that the nearest class gives it
(`ClassTable.annotation?`) is read in the scope of the class that the slot is for, and the notes in
it are dropped (`ClassTable.lookup_fieldTypes`). Fields without annotations do not restrict their
contents.
-/

namespace EffectTrees

/-- The type of a field: what its annotation is read as in a scope, without notes. -/
def Annotation.fieldType (scope : Scope) (a : Annotation) : Formed Annotation := do
  (← a.hint scope).strip

namespace ClassTable

variable {t : ClassTable} {id : Nat} {types : List TypedField}

/-- The annotations of a class and its ancestors as they are written, farthest ancestor first. -/
def written (t : ClassTable) (id : Nat) : List TypedField :=
  (t.lineage id).reverse.flatMap fun k => ((t.info? k).map ClassInfo.annotations).getD []

/-- The annotation of a field: the one that the nearest class gives it. -/
def annotation? (t : ClassTable) (id : Nat) (name : String) : Option Annotation :=
  t.lookup? (fun c => c.annotations.reverse.lookup name) id

theorem lookup_reverse_written (t : ClassTable) (id : Nat) (name : String) :
    (t.written id).reverse.lookup name = t.annotation? id name := by
  have flat : ∀ ids : List Nat, ∀ f : Nat → List TypedField,
      (ids.reverse.flatMap f).reverse.lookup name =
        ids.findSome? fun k => (f k).reverse.lookup name := by
    intro ids f
    induction ids with
    | nil => rfl
    | cons k ids ih =>
      rw [List.reverse_cons, List.flatMap_append, List.reverse_append, List.lookup_append, ih,
        List.findSome?_cons, List.flatMap_singleton]
      cases (f k).reverse.lookup name <;> rfl
  rw [written, flat, annotation?, lookup?]
  refine findSome?_congr fun k _ => ?_
  cases t.info? k <;> rfl

/-- **The type of a field** is read off the annotation that the nearest class gives it. -/
theorem lookup_fieldTypes (h : t.fieldTypes id = .ok types) (name : String) :
    Option.Rel (fun a type => a.fieldType (t.textScope id) = .ok type) (t.annotation? id name)
      (types.lookup name) := by
  obtain ⟨hints, read, stripped⟩ := exists_of_bind_eq_ok h
  have reads := List.forall₂_reverse_iff.mpr (mapM_named_eq_ok_iff.mp read)
  have strips := mapM_named_eq_ok_iff.mp stripped
  -- The annotations are read first; then the nearest of each name is chosen and stripped.
  have first := lookup_rel (R := fun a b : Annotation => a.hint (t.textScope id) = .ok b) reads name
  have second := lookup_rel (R := fun a b : Annotation => a.strip = .ok b) strips name
  rw [lookup_firsts] at second
  rw [← t.lookup_reverse_written id name]
  refine first.comp second fun a hint type reads strips => ?_
  unfold Annotation.fieldType
  rw [reads]
  exact strips

/-- An annotated field has the type that its annotation is read as. -/
theorem exists_type_of_annotation (h : t.fieldTypes id = .ok types) {name : String} {a : Annotation}
    (annotated : t.annotation? id name = some a) :
    ∃ type, a.fieldType (t.textScope id) = .ok type ∧ types.lookup name = some type := by
  have related := lookup_fieldTypes h name
  rw [annotated] at related
  obtain ⟨type, found, read⟩ := related.exists_right
  exact ⟨type, read, found⟩

/-- If all annotations can be read, the fields have types. -/
theorem exists_fieldTypes
    (h : ∀ a ∈ t.written id, ∃ type, a.2.fieldType (t.textScope id) = .ok type) :
    ∃ types, t.fieldTypes id = .ok types := by
  have readable : ∀ a ∈ t.written id, ∃ b : TypedField,
      b.1 = a.1 ∧ a.2.hint (t.textScope id) = .ok b.2 := by
    intro a mem
    obtain ⟨type, of⟩ := h a mem
    obtain ⟨b, read, -⟩ := exists_of_bind_eq_ok of
    exact ⟨(a.1, b), rfl, read⟩
  obtain ⟨hints, reads⟩ := List.Forall₂.exists_of_forall readable
  have read : t.hints id = .ok hints := mapM_named_eq_ok_iff.mpr reads
  -- Only some of the readings are stripped, and each of them is the reading of an annotation.
  have strippable : ∀ b ∈ (hints.reverse.map Prod.fst).eraseDups.filterMap
      (fun n => hints.reverse.find? fun a => a.1 = n),
      ∃ c : TypedField, c.1 = b.1 ∧ b.2.strip = .ok c.2 := by
    intro b mem
    obtain ⟨n, -, found⟩ := List.mem_filterMap.mp mem
    have among : b ∈ hints := List.mem_reverse.mp (List.mem_of_find?_eq_some found)
    obtain ⟨a, written, -, hint⟩ := reads.exists_left among
    obtain ⟨type, of⟩ := h a written
    unfold Annotation.fieldType at of
    rw [hint] at of
    exact ⟨(b.1, type), rfl, of⟩
  obtain ⟨types, strips⟩ := List.Forall₂.exists_of_forall strippable
  refine ⟨types, ?_⟩
  rw [fieldTypes, read]
  exact mapM_named_eq_ok_iff.mpr strips

theorem exists_typedFields {typed : List TypedField} (h : t.typedFields id = .ok typed)
    {fields : List Field} (record : t.fields? id = some fields) :
    ∃ types, t.fieldTypes id = .ok types ∧
      typed = (fields.filter Field.isGiven).map fun f =>
        (f.name, (types.lookup f.name).getD .any) := by
  obtain ⟨types, read, given⟩ := exists_of_bind_eq_ok h
  rw [record] at given
  exact ⟨types, read, (Except.ok.inj given).symm⟩

theorem map_fst_typedFields {fields : List Field} (record : t.fields? id = some fields)
    {typed : List TypedField} (read : t.typedFields id = .ok typed) :
    typed.map Prod.fst = (fields.filter Field.isGiven).map Field.name := by
  obtain ⟨types, -, rfl⟩ := exists_typedFields read record
  rw [List.map_map]
  rfl

/-- The fields that are given have distinct names, if all fields have. -/
theorem nodup_typedFields {fields : List Field} (record : t.fields? id = some fields)
    (distinct : (fields.map Field.name).Nodup) {typed : List TypedField}
    (read : t.typedFields id = .ok typed) : (typed.map Prod.fst).Nodup := by
  rw [map_fst_typedFields record read]
  exact distinct.sublist (List.filter_sublist.map Field.name)

theorem typedFields_eq (h : t.fieldTypes id = .ok types) {fields : List Field}
    (record : t.fields? id = some fields) :
    t.typedFields id = .ok ((fields.filter Field.isGiven).map fun f =>
      (f.name, (types.lookup f.name).getD .any)) := by
  rw [typedFields, h, record]
  rfl

end ClassTable

end EffectTrees
