import EffectTrees.Proofs.Family.Flattening
import EffectTrees.Proofs.Family.Verdict

/-!
# Inherited slots

One would expect that a record has the slot of its flattened class: a class that passes its own
variable on as the continuation variable of a generic parent inherits the slot of that parent, under
the new name.

The continuation variable is indeed followed along the chain. But derivation reads the type of an
inherited field as it stands, with the variables of the ancestor that declares it; only the names in
texts are looked up at the lower end. So a class that renames the variables of its parent loses the
slot that it inherits, or gains one that it should not have. What is true is this
(`ClassTable.deriveSlot_flattened`):

* the answers agree for every declared continuation if and only if the same fields hold the
  continuation in the types that are read at both classes (`ClassTable.Offers`);
* they are equal, down to the reasons for a refusal, if the types of the inherited fields mention no
  variable that is renamed (`ClassTable.Stable`).

`Heirs` has an example of either kind.
-/

namespace EffectTrees

open Annotation (Occurs)

/-! ### Answers -/

/-- **The same answer**: the same slot, or a failure of the derivation in both cases. -/
inductive SameAnswer : Except SlotFault Slot → Except SlotFault Slot → Prop where
  | slot (s : Slot) : SameAnswer (.ok s) (.ok s)
  | failure (f g : DerivationFault) : SameAnswer (.error (.derivation f)) (.error (.derivation g))

namespace ClassTable

variable {t : ClassTable} {id : Nat} {links : List Link} {top : Parent} {fields : List Field}
  {c : ClassInfo}

/-- Derivation has an answer, whatever is declared: a slot, or a reason why there is none. No type is
malformed, and the search for the continuation variable comes to its end. -/
def Answers (t : ClassTable) (id : Nat) : Prop :=
  ∀ declared e, t.deriveSlot id declared = .error e → ∃ f, e = .derivation f

/-- The class has the slot if its field is declared. -/
def Offers (t : ClassTable) (id : Nat) (slot : Slot) : Prop :=
  ∃ v fields, t.search id = .found v ∧
    t.typedFields id = .ok fields ∧ Slot.Admits v fields (some slot.name) slot

/-- Derivation finds the slots that the class offers, each if it is chosen: by its name or, without a
name, as the last field. -/
theorem deriveSlot_eq_ok_iff (record : t.fields? id = some fields)
    (distinct : (fields.map Field.name).Nodup) {declared : Option String} {slot : Slot} :
    t.deriveSlot id declared = .ok slot ↔ t.Offers id slot ∧
      (declared = some slot.name ∨ declared = none ∧
        ((fields.filter Field.isGiven).map Field.name).getLast? = some slot.name) := by
  constructor
  · intro found
    obtain ⟨v, typed, param, read, admitted⟩ := exists_of_deriveSlot found
    have distinct := nodup_typedFields record distinct read
    have admits := (Slot.ofFields_eq_ok_iff distinct).mp admitted
    obtain ⟨offered, chosen⟩ := (Slot.admits_iff distinct).mp admits
    rw [map_fst_typedFields record read] at chosen
    exact ⟨⟨v, typed, param, read, offered⟩, chosen⟩
  · rintro ⟨⟨v, typed, param, read, offered⟩, chosen⟩
    have distinct := nodup_typedFields record distinct read
    rw [← map_fst_typedFields record read] at chosen
    have admits := (Slot.admits_iff distinct).mpr ⟨offered, chosen⟩
    rw [deriveSlot_eq param read, admits.ofFields distinct]
    rfl

/-- Where derivation has an answer for both, the answers are the same if the slots are. -/
theorem sameAnswer_iff {x y : Except SlotFault Slot} :
    SameAnswer x y ↔ (∀ slot, x = .ok slot ↔ y = .ok slot) ∧
      (∀ e, x = .error e → ∃ f, e = .derivation f) ∧
      ∀ e, y = .error e → ∃ f, e = .derivation f := by
  constructor
  · intro same
    cases same <;> simp
  · rintro ⟨slots, answer, answer'⟩
    match x, y with
    | .ok s, y =>
      rw [(slots s).mp rfl]
      exact .slot s
    | .error e, .ok s => exact absurd ((slots s).mpr rfl) (by simp)
    | .error e, .error e' =>
      obtain ⟨f, rfl⟩ := answer e rfl
      obtain ⟨g, rfl⟩ := answer' e' rfl
      exact .failure f g

/-- **Inherited slots.** Let a record stand at the lower end of a chain of generic parents.

* It has the continuation variable of its flattened class.
* Its fields have the types of their annotations as they stand; those of the flattened class have the
  types of the annotations carried down the chain.
* The answers of derivation for both agree, whatever is declared, if and only if both offer the same
  slots.
* They are equal if no annotation is changed on its way down the chain. -/
theorem deriveSlot_flattened (reachable : t.Reachable) (chain : t.Chain id links top)
    (record : t.fields? id = some fields) (flat : t.Flattening id links top fields c) :
    (t.add c).search t.classes.length = t.search id ∧
    (∀ typed typed', t.typedFields id = .ok typed →
      (t.add c).typedFields t.classes.length = .ok typed' →
      List.Forall₂ (t.Beside id links) typed typed') ∧
    ((∀ declared, SameAnswer (t.deriveSlot id declared)
        ((t.add c).deriveSlot t.classes.length declared)) ↔
      t.Answers id ∧ (t.add c).Answers t.classes.length ∧
        ∀ slot, t.Offers id slot ↔ (t.add c).Offers t.classes.length slot) ∧
    ((∃ typed, t.typedFields id = .ok typed) →
      (∀ f ∈ fields, ∀ l a, t.declarer? links f.name = some (l, a) → t.Stable id l a) →
      ∀ declared, (t.add c).deriveSlot t.classes.length declared = t.deriveSlot id declared) := by
  have param := flat.search_eq reachable chain
  have distinct := reachable.nodup_fields record
  have record' := flat.fields?_eq reachable chain record
  refine ⟨param, ?_, ⟨fun same => ?_, fun ⟨answers, answers', offers⟩ declared => ?_⟩, ?_⟩
  · intro typed typed' read read'
    exact flat.typedFields_rel reachable chain record read read'
  · have parts := fun declared => sameAnswer_iff.mp (same declared)
    refine ⟨fun declared => (parts declared).2.1, fun declared => (parts declared).2.2, fun slot => ?_⟩
    -- A slot that is offered is found if its own name is declared, so that name tells.
    have found := (parts (some slot.name)).1 slot
    rw [deriveSlot_eq_ok_iff record distinct, deriveSlot_eq_ok_iff record' distinct] at found
    simpa using found
  · -- The fields have the same names in the same order, so the same slots are chosen.
    refine sameAnswer_iff.mpr ⟨fun slot => ?_, answers declared, answers' declared⟩
    rw [deriveSlot_eq_ok_iff record distinct, deriveSlot_eq_ok_iff record' distinct, offers slot]
  · rintro ⟨typed, readable⟩ stable declared
    have types := flat.typedFields_eq reachable chain record readable stable
    unfold deriveSlot
    rw [param, types, readable]

end ClassTable

/-! ### Two heirs -/

namespace Heirs

open ClassTable

/-- An heir of `Say` with fields of its own. -/
def decl (name : String) (params : List String) (args : Option (List TypeExpr))
    (fields : List (String × TypeExpr)) (continuation : Option String) : ClassDecl where
  name := name
  params := params.map fun p => (p, false)
  parents := [⟨"Say", args⟩]
  generic := none
  fields := fields.map fun f => ⟨f.1, f.2, none, true⟩
  decorators := [.register]
  continuation := continuation

/-- What is known of such an heir. -/
def info (id : Nat) (name : String) (vars : List TypeVar) (args : Option (List Annotation))
    (continuation : TypeVar) (annotations : List TypedField) (slot : Option Slot) : ClassInfo :=
  let names := "next" :: annotations.map Prod.fst
  let given := names.map fun n => ⟨n, none, true, false⟩
  { name := name
    parents := [⟨1, args⟩]
    typeVars := vars
    parameters := vars
    lineage := [id, 1, 0]
    search := .found continuation
    annotations := annotations
    attributes := []
    layout :=
      { frozen := some true
        entries := some given
        initializer := some ⟨given, true⟩
        shown := some names
        compared := some names
        guarded := some names
        hashing := some (.byFields names) }
    slot := slot }

/-- The variables of the two generic classes. -/
def k : TypeVar := ⟨"K", .family 1, .single⟩
def r : TypeVar := ⟨"R", .family 3, .single⟩

/-- A class, an heir that names it alone, and an heir that renames its variable. -/
def table : ClassTable where
  classes := [
    ClassTable.root,
    Dialogue.info 1 "Say" [("next", .var k)] ⟨"next", .direct⟩,
    info 2 "Quiet" [] none k [("volume", .named (.builtin "int"))] (some ⟨"next", .direct⟩),
    info 3 "Shout" [r] (some [.var r]) r [] none]
  shared := []
  bound := [("Quiet", 2), ("Say", 1)]

theorem reachable_table : table.Reachable := by
  have declared : ((ClassTable.initial []).declareAll [
      Dialogue.decl "Say" [("next", .name "K")],
      decl "Quiet" [] none [("volume", .name "int")] (some "next"),
      decl "Shout" ["R"] (some [.name "R"]) [] none]).1 = table := by cbv
  rw [← declared]
  exact (Reachable.initial []).declareAll _

theorem chain_say : table.Chain 1 [⟨1, id⟩, ⟨0, renamed [rootVariable] [k]⟩] ⟨0, some [.var k]⟩ :=
  .direct rfl rfl (@Passes.given [rootVariable] [k] rfl)

theorem chain_quiet : table.Chain 2
    [⟨2, id⟩, ⟨1, id ∘ id⟩, ⟨0, id ∘ renamed [rootVariable] [k]⟩] ⟨0, some [.var k]⟩ :=
  .through rfl rfl rfl .nothing chain_say

theorem chain_shout : table.Chain 3
    [⟨3, id⟩, ⟨1, renamed [k] [r] ∘ id⟩, ⟨0, renamed [k] [r] ∘ renamed [rootVariable] [k]⟩]
    ⟨0, some [.var r]⟩ :=
  .through rfl rfl rfl (@Passes.given [k] [r] rfl) chain_say

/-- `Quiet` without a chain. -/
def quiet : ClassInfo :=
  table.flattened 2 ⟨0, some [.var k]⟩ [("next", .var k), ("volume", .named (.builtin "int"))]

/-- `Shout` without a chain. -/
def shout : ClassInfo := table.flattened 3 ⟨0, some [.var r]⟩ [("next", .var r)]

theorem flattening_quiet : table.Flattening 2
    [⟨2, id⟩, ⟨1, id ∘ id⟩, ⟨0, id ∘ renamed [rootVariable] [k]⟩] ⟨0, some [.var k]⟩
    [⟨"next", none, true, false⟩, ⟨"volume", none, true, false⟩] quiet :=
  flattening_flattened reachable_table chain_quiet
    (.cons ⟨rfl, ⟨1, id ∘ id⟩, .var k, rfl, .plain rfl⟩
      (.cons ⟨rfl, ⟨2, id⟩, .named (.builtin "int"), rfl, .plain rfl⟩ .nil))

theorem flattening_shout : table.Flattening 3
    [⟨3, id⟩, ⟨1, renamed [k] [r] ∘ id⟩, ⟨0, renamed [k] [r] ∘ renamed [rootVariable] [k]⟩]
    ⟨0, some [.var r]⟩ [⟨"next", none, true, false⟩] shout :=
  flattening_flattened reachable_table chain_shout
    (.cons ⟨rfl, ⟨1, renamed [k] [r] ∘ id⟩, .var k, rfl, .plain rfl⟩ .nil)

theorem typedFields_quiet :
    table.typedFields 2 = .ok [("next", .var k), ("volume", .named (.builtin "int"))] := by
  cbv

theorem typedFields_shout : table.typedFields 3 = .ok [("next", .var k)] := by
  cbv

theorem typedFields_flattened_shout :
    (table.add shout).typedFields 4 = .ok [("next", .var r)] := by
  cbv

/-- `Quiet` has the slot of its flattened class, whatever is declared. `Shout` has not: its field
holds the continuation under the name that it has in `Say`. -/
theorem deriveSlot_flattened_heirs :
    (∀ declared, (table.add quiet).deriveSlot 4 declared = table.deriveSlot 2 declared) ∧
    ¬ ∀ declared, SameAnswer (table.deriveSlot 3 declared)
      ((table.add shout).deriveSlot 4 declared) := by
  constructor
  · have equal := (deriveSlot_flattened reachable_table chain_quiet rfl flattening_quiet).2.2.2
    refine equal ⟨_, typedFields_quiet⟩ ?_
    intro f mem l a declared
    rcases List.mem_cons.mp mem with rfl | mem
    · obtain ⟨rfl, rfl⟩ := Prod.mk.inj (Option.some.inj declared)
      exact .plain rfl fun v _ => rfl
    · obtain rfl := List.mem_singleton.mp mem
      obtain ⟨rfl, rfl⟩ := Prod.mk.inj (Option.some.inj declared)
      exact .plain rfl fun v _ => rfl
  · intro same
    have agree_iff := (deriveSlot_flattened reachable_table chain_shout rfl flattening_shout).2.2.1
    obtain ⟨-, -, offers⟩ := agree_iff.mp same
    have offered : (table.add shout).Offers 4 ⟨"next", .direct⟩ :=
      ⟨r, _, rfl, typedFields_flattened_shout, [], ("next", .var r), [], rfl, rfl,
        ⟨.direct, fun g mem => absurd mem List.not_mem_nil⟩, .inl rfl⟩
    obtain ⟨v, typed, param, read, before, f, after, split, -, sole, -⟩ :=
      (offers ⟨"next", .direct⟩).mpr offered
    obtain rfl : r = v := Search.found.inj param
    obtain rfl := Except.ok.inj (typedFields_shout.symm.trans read)
    have among : f ∈ [(("next", .var k) : TypedField)] := by
      rw [split]
      simp
    obtain rfl := List.mem_singleton.mp among
    have other : ¬ Occurs r (.var k) := by decide
    exact other sole.holds.occurs

-- The slot of `Say` is not found in an heir that calls the variable by another name.
example : table.deriveSlot 3 none = .error (.derivation (.missing "R")) := by cbv

end Heirs

end EffectTrees
