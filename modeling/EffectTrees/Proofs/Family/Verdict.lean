import Mathlib
import EffectTrees.Proofs.Annotation.Occurrence
import EffectTrees.Proofs.Descriptor.Slotted
import EffectTrees.Proofs.Family.FieldTypes

/-!
# Which classes have a slot

A class has a slot if exactly one of the fields that are given mentions the continuation variable,
that field holds it, and either the declaration names the field or it is the last one. These
conditions, `Slot.Admits`, speak of fields and of occurrences in their types only, not of the order in
which a derivation looks for what is wrong.

That order is what `Slot.Refuses` describes. There is one rule for each reason to refuse the fields,
and the premises of a rule exclude the rules before it:

1. the first field that mentions the variable in a place that is not supported,
2. no field that mentions it,
3. several fields that hold it,
4. a declared name that no field has,
5. a declared name that another field has,
6. fields that follow the one that holds it.

A list of fields is either admitted or refused, for one reason (`Slot.admits_or_refuses`), and
`ClassTable.deriveSlot` tells which (`ClassTable.deriveSlot_verdict`).
-/

namespace EffectTrees

open Annotation (Occurs Holds Misuses)

namespace Slot

variable {v : TypeVar} {fields before after : List TypedField} {f : TypedField} {kind : SlotKind}
  {declared : Option String}

/-! ### Admitted and refused fields -/

/-- A field between others is the only one that mentions the variable, and it holds it. -/
structure Sole (v : TypeVar) (before : List TypedField) (f : TypedField)
    (after : List TypedField) (kind : SlotKind) : Prop where
  holds : Holds v f.2 kind
  elsewhere : ∀ g ∈ before ++ after, ¬ Occurs v g.2

/-- **The fields have this slot**: its field is the only one that mentions the variable, and it is
declared or, if none is declared, the last one. -/
def Admits (v : TypeVar) (fields : List TypedField) (declared : Option String) (slot : Slot) :
    Prop :=
  ∃ before f after, fields = before ++ f :: after ∧ slot.name = f.1 ∧
    Sole v before f after slot.kind ∧
    (declared = some slot.name ∨ declared = none ∧ after = [])

/-- **The fields have no slot**, for this reason. -/
inductive Refuses (v : TypeVar) (fields : List TypedField) (declared : Option String) :
    DerivationFault → Prop where
  | unsupported {before after : List TypedField} {f : TypedField}
      (split : fields = before ++ f :: after) (earlier : ∀ g ∈ before, ¬ Misuses v g.2)
      (misuses : Misuses v f.2) :
      Refuses v fields declared (.unsupported f.1 f.2.format v.name)
  | missing (unmentioned : ∀ g ∈ fields, ¬ Occurs v g.2) :
      Refuses v fields declared (.missing v.name)
  | ambiguous (supported : ∀ g ∈ fields, ¬ Misuses v g.2)
      (several : 2 ≤ (fields.filter fun g => Occurs v g.2).length) :
      Refuses v fields declared
        (.ambiguous ((fields.filter fun g => Occurs v g.2).map Prod.fst) v.name)
  | unknownField {before after : List TypedField} {f : TypedField} {kind : SlotKind} {name : String}
      (split : fields = before ++ f :: after) (sole : Sole v before f after kind)
      (names : declared = some name) (absent : ∀ g ∈ fields, g.1 ≠ name) :
      Refuses v fields declared (.unknownField name)
  | otherField {before after : List TypedField} {f g : TypedField} {kind : SlotKind}
      (split : fields = before ++ f :: after) (sole : Sole v before f after kind)
      (mem : g ∈ fields) (names : declared = some g.1) (other : g.1 ≠ f.1) :
      Refuses v fields declared (.otherField g.1 v.name f.1)
  | notLast {before after : List TypedField} {f : TypedField} {kind : SlotKind}
      (split : fields = before ++ f :: after) (sole : Sole v before f after kind)
      (names : declared = none) (follows : after ≠ []) :
      Refuses v fields declared (.notLast f.1)

/-! ### Candidates -/

theorem isUnsupported_iff : isUnsupported v f = true ↔ Misuses v f.2 := by
  rw [isUnsupported, decide_eq_true_eq, Annotation.misuses_iff]

theorem ofField_of_holds (h : Holds v f.2 kind) : ofField v f = some ⟨f.1, kind⟩ := by
  rw [ofField, Annotation.classify_of_holds h]
  cases kind <;> rfl

theorem ofField_eq_none (h : ¬ Occurs v f.2) : ofField v f = none := by
  rw [ofField, Annotation.classify_eq_none_iff.mpr h]

/-- A field that is supported and mentions the variable holds it. -/
theorem exists_holds (supported : ¬ Misuses v f.2) (occurs : Occurs v f.2) :
    ∃ kind, Holds v f.2 kind := by
  rcases Annotation.mention_cases v f.2 with absent | holds | misuses
  · exact absurd occurs absent
  · exact holds
  · exact absurd misuses supported

/-- Among supported fields the candidates are those that mention the variable. -/
theorem map_name_filterMap_ofField (supported : ∀ g ∈ fields, ¬ Misuses v g.2) :
    (fields.filterMap (ofField v)).map Slot.name =
      (fields.filter fun g => Occurs v g.2).map Prod.fst := by
  induction fields with
  | nil => rfl
  | cons g fields ih =>
    have rest := ih fun g' mem => supported g' (List.mem_cons_of_mem g mem)
    by_cases occurs : Occurs v g.2
    · obtain ⟨kind, holds⟩ := exists_holds (supported g List.mem_cons_self) occurs
      rw [List.filterMap_cons_some (ofField_of_holds holds),
        List.filter_cons_of_pos (by simpa using occurs), List.map_cons, List.map_cons, rest]
    · rw [List.filterMap_cons_none (ofField_eq_none occurs),
        List.filter_cons_of_neg (by simpa using occurs), rest]

theorem filterMap_ofField_eq_nil (unmentioned : ∀ g ∈ fields, ¬ Occurs v g.2) :
    fields.filterMap (ofField v) = [] :=
  List.filterMap_eq_nil_iff.mpr fun g mem => ofField_eq_none (unmentioned g mem)

theorem not_misuses_of_unmentioned (unmentioned : ∀ g ∈ fields, ¬ Occurs v g.2) :
    ∀ g ∈ fields, ¬ Misuses v g.2 :=
  fun g mem misuses => unmentioned g mem misuses.1

theorem find?_isUnsupported (supported : ∀ g ∈ fields, ¬ Misuses v g.2) :
    fields.find? (isUnsupported v) = none :=
  List.find?_eq_none.mpr fun g mem => mt isUnsupported_iff.mp (supported g mem)

/-! ### What the derivation finds -/

/-- If one field is the only one that mentions the variable, it remains to look at what is
declared. -/
theorem Sole.ofFields (sole : Sole v before f after kind) :
    Slot.ofFields v (before ++ f :: after) declared =
      checkDeclared v (before ++ f :: after) declared ⟨f.1, kind⟩ := by
  have apart := sole.elsewhere
  simp only [List.forall_mem_append] at apart
  have supported : ∀ g ∈ before ++ f :: after, ¬ Misuses v g.2 := by
    simp only [List.forall_mem_append, List.forall_mem_cons]
    exact ⟨not_misuses_of_unmentioned apart.1, sole.holds.not_misuses,
      not_misuses_of_unmentioned apart.2⟩
  have candidates : (before ++ f :: after).filterMap (ofField v) = [⟨f.1, kind⟩] := by
    rw [List.filterMap_append, filterMap_ofField_eq_nil apart.1,
      List.filterMap_cons_some (ofField_of_holds sole.holds), filterMap_ofField_eq_nil apart.2]
    rfl
  rw [Slot.ofFields, find?_isUnsupported supported, candidates]

/-- Among fields with distinct names, the last one is that of a name if no field follows it. -/
theorem getLast?_name (distinct : ((before ++ f :: after).map Prod.fst).Nodup) :
    (before ++ f :: after).getLast?.map Prod.fst = some f.1 ↔ after = [] := by
  constructor
  · intro last
    by_contra follows
    obtain ⟨init, g, rfl⟩ : ∃ init g, after = init ++ [g] :=
      ⟨_, _, (List.dropLast_append_getLast follows).symm⟩
    rw [← List.cons_append, ← List.append_assoc, List.getLast?_concat] at last
    have same : g.1 = f.1 := by simpa using last
    simp [List.nodup_append, same] at distinct
  · rintro rfl
    simp

/-- Fields are admitted under the name of the one that holds the continuation, and without a name if
that one is the last. -/
theorem admits_iff {slot : Slot} (distinct : (fields.map Prod.fst).Nodup) :
    Admits v fields declared slot ↔ Admits v fields (some slot.name) slot ∧
      (declared = some slot.name ∨
        declared = none ∧ (fields.map Prod.fst).getLast? = some slot.name) := by
  constructor
  · rintro ⟨before, f, after, rfl, name, sole, chosen⟩
    refine ⟨⟨before, f, after, rfl, name, sole, .inl rfl⟩, ?_⟩
    refine chosen.imp_right fun ⟨undeclared, last⟩ => ⟨undeclared, ?_⟩
    rw [List.getLast?_map, name]
    exact (getLast?_name distinct).mpr last
  · rintro ⟨⟨before, f, after, rfl, name, sole, -⟩, chosen⟩
    refine ⟨before, f, after, rfl, name, sole, ?_⟩
    refine chosen.imp_right fun ⟨undeclared, last⟩ => ⟨undeclared, ?_⟩
    rw [List.getLast?_map, name] at last
    exact (getLast?_name distinct).mp last

/-- What is admitted is found. -/
theorem Admits.ofFields {slot : Slot} (distinct : (fields.map Prod.fst).Nodup)
    (h : Admits v fields declared slot) : Slot.ofFields v fields declared = .ok slot := by
  obtain ⟨before, f, after, rfl, name, sole, chosen⟩ := h
  have candidate : (⟨f.1, slot.kind⟩ : Slot) = slot := by rw [← name]
  rw [sole.ofFields, candidate, checkDeclared.eq_def]
  rcases chosen with rfl | ⟨rfl, rfl⟩
  · simp [name]
  · simp [name]

/-- What is refused is refused for the reason that is found. -/
theorem Refuses.ofFields {fault : DerivationFault} (distinct : (fields.map Prod.fst).Nodup)
    (h : Refuses v fields declared fault) : Slot.ofFields v fields declared = .error fault := by
  cases h with
  -- The first field that misuses the variable is reported, so those before it must not.
  | @unsupported before after f split earlier misuses =>
    have first : fields.find? (isUnsupported v) = some f := by
      rw [split, List.find?_append, find?_isUnsupported earlier,
        List.find?_cons_of_pos (isUnsupported_iff.mpr misuses)]
      rfl
    rw [Slot.ofFields, first]
  | missing unmentioned =>
    rw [Slot.ofFields, find?_isUnsupported (not_misuses_of_unmentioned unmentioned),
      filterMap_ofField_eq_nil unmentioned]
  -- Where nothing misuses the variable, the candidates are the fields that mention it.
  | ambiguous supported several =>
    have names := map_name_filterMap_ofField supported
    rw [Slot.ofFields, find?_isUnsupported supported, ← names]
    rw [← List.length_map Prod.fst, ← names, List.length_map] at several
    match fields.filterMap (ofField v), several with
    | _ :: _ :: _, _ => rfl
  | @unknownField before after f kind name split sole names absent =>
    subst split names
    have unlisted : ((before ++ f :: after).any fun g => g.1 = name) = false := by
      rw [List.any_eq_false]
      intro g mem
      simpa using absent g mem
    rw [sole.ofFields, checkDeclared, unlisted]
    rfl
  | otherField split sole mem names other =>
    subst split names
    rw [sole.ofFields, checkDeclared, List.any_eq_true.mpr ⟨_, mem, by simp⟩]
    simp [other]
  | notLast split sole names follows =>
    subst split names
    rw [sole.ofFields, checkDeclared, if_pos (mt (getLast?_name distinct).mp follows)]

theorem Sole.admits_or_refuses (sole : Sole v before f after kind) (declared : Option String) :
    Admits v (before ++ f :: after) declared ⟨f.1, kind⟩ ∨
      ∃ fault, Refuses v (before ++ f :: after) declared fault := by
  cases declared with
  | none =>
    by_cases last : after = []
    · exact .inl ⟨before, f, after, rfl, rfl, sole, .inr ⟨rfl, last⟩⟩
    · exact .inr ⟨_, .notLast rfl sole rfl last⟩
  | some name =>
    by_cases own : name = f.1
    · exact .inl ⟨before, f, after, rfl, rfl, sole, .inl (congrArg some own)⟩
    · by_cases known : ∃ g ∈ before ++ f :: after, g.1 = name
      · obtain ⟨g, mem, rfl⟩ := known
        exact .inr ⟨_, .otherField rfl sole mem rfl own⟩
      · exact .inr ⟨_, .unknownField rfl sole rfl fun g mem same => known ⟨g, mem, same⟩⟩

/-- No list of fields escapes the verdict. -/
theorem admits_or_refuses (v : TypeVar) (fields : List TypedField) (declared : Option String) :
    (∃ slot, Admits v fields declared slot) ∨ ∃ fault, Refuses v fields declared fault := by
  cases first : fields.find? (isUnsupported v) with
  | some f =>
    obtain ⟨misuses, before, after, split, earlier⟩ := List.find?_eq_some_iff_append.mp first
    refine .inr ⟨_, .unsupported split (fun g mem => ?_) (isUnsupported_iff.mp misuses)⟩
    rw [← isUnsupported_iff]
    simpa using earlier g mem
  | none =>
    have supported : ∀ g ∈ fields, ¬ Misuses v g.2 := fun g mem =>
      mt isUnsupported_iff.mpr (List.find?_eq_none.mp first g mem)
    -- How many fields mention the variable?
    match mentions : fields.filter fun g => Occurs v g.2 with
    | [] =>
      refine .inr ⟨_, .missing fun g mem => ?_⟩
      simpa using List.filter_eq_nil_iff.mp mentions g mem
    | [f] =>
      obtain ⟨before, after, rfl, apart, occurs, none⟩ := List.filter_eq_cons_iff.mp mentions
      obtain ⟨kind, holds⟩ := exists_holds (supported f (by simp)) (by simpa using occurs)
      have sole : Sole v before f after kind := by
        refine ⟨holds, fun g mem => ?_⟩
        rcases List.mem_append.mp mem with mem | mem
        · simpa using apart g mem
        · simpa using List.filter_eq_nil_iff.mp none g mem
      exact (sole.admits_or_refuses declared).imp_left fun admits => ⟨_, admits⟩
    | _ :: _ :: _ =>
      refine .inr ⟨_, .ambiguous supported ?_⟩
      rw [mentions]
      simp

theorem ofFields_eq_ok_iff {slot : Slot} (distinct : (fields.map Prod.fst).Nodup) :
    Slot.ofFields v fields declared = .ok slot ↔ Admits v fields declared slot := by
  refine ⟨fun found => ?_, Admits.ofFields distinct⟩
  rcases admits_or_refuses v fields declared with ⟨slot', admits⟩ | ⟨fault, refuses⟩
  · obtain rfl : slot' = slot := by simpa [admits.ofFields distinct] using found
    exact admits
  · simp [refuses.ofFields distinct] at found

theorem ofFields_eq_error_iff {fault : DerivationFault} (distinct : (fields.map Prod.fst).Nodup) :
    Slot.ofFields v fields declared = .error fault ↔ Refuses v fields declared fault := by
  refine ⟨fun found => ?_, Refuses.ofFields distinct⟩
  rcases admits_or_refuses v fields declared with ⟨slot, admits⟩ | ⟨fault', refuses⟩
  · simp [admits.ofFields distinct] at found
  · obtain rfl : fault' = fault := by simpa [refuses.ofFields distinct] using found
    exact refuses

end Slot

/-! ### The verdict on a class -/

namespace ClassTable

variable {t : ClassTable} {id : Nat} {v : TypeVar} {fields : List TypedField}

theorem Reachable.nodup_typedFields (h : t.Reachable) (typed : t.typedFields id = .ok fields) :
    (fields.map Prod.fst).Nodup := by
  cases record : t.fields? id with
  | none =>
    -- A class that is no record has no fields at all.
    obtain ⟨types, -, given⟩ := exists_of_bind_eq_ok typed
    rw [record] at given
    obtain rfl : [] = fields := Except.ok.inj given
    exact List.nodup_nil
  | some all => exact ClassTable.nodup_typedFields record (h.nodup_fields record) typed

theorem deriveSlot_eq (param : t.search id = .found v)
    (typed : t.typedFields id = .ok fields) (declared : Option String) :
    t.deriveSlot id declared = (Slot.ofFields v fields declared).mapError .derivation := by
  rw [deriveSlot, param]
  dsimp only
  rw [typed]

theorem exists_of_deriveSlot {declared : Option String} {slot : Slot}
    (found : t.deriveSlot id declared = .ok slot) :
    ∃ v fields, t.search id = .found v ∧
      t.typedFields id = .ok fields ∧ Slot.ofFields v fields declared = .ok slot := by
  unfold deriveSlot at found
  split at found
  · cases found
  · cases found
  · next v param =>
    split at found
    · cases found
    · next fields read =>
      refine ⟨v, fields, param, read, ?_⟩
      revert found
      cases Slot.ofFields v fields declared <;> simp [Except.mapError]

/-- **Derivation accepts the fields that are admitted**, and it refuses all others for the reason
that comes first. This is said of any class with a continuation variable in a reachable table whose
field types can be formed; the name of the field may be declared or not. -/
theorem deriveSlot_verdict (reachable : t.Reachable)
    (param : t.search id = .found v)
    (typed : t.typedFields id = .ok fields) (declared : Option String) :
    (∀ slot, t.deriveSlot id declared = .ok slot ↔ Slot.Admits v fields declared slot) ∧
    (∀ fault, t.deriveSlot id declared = .error (.derivation fault) ↔
      Slot.Refuses v fields declared fault) ∧
    ((∃ slot, Slot.Admits v fields declared slot) ∨
      ∃ fault, Slot.Refuses v fields declared fault) := by
  have distinct := reachable.nodup_typedFields typed
  refine ⟨fun slot => ?_, fun fault => ?_, Slot.admits_or_refuses v fields declared⟩
  · rw [deriveSlot_eq param typed, ← Slot.ofFields_eq_ok_iff distinct]
    cases Slot.ofFields v fields declared <;> simp [Except.mapError]
  · rw [deriveSlot_eq param typed, ← Slot.ofFields_eq_error_iff distinct]
    cases Slot.ofFields v fields declared <;> simp [Except.mapError]

/-! ### The slot of an effect that goes on at once -/

open Dialogue

theorem reachable_dialogue : table.Reachable := by
  have declared : ((initial []).declareAll [
      decl "Say" [("message", .name "Any"), ("next", .name "K")],
      decl "Ask" [("answer", .function [.name "Any"] (.name "K"))]]).1 = table := by cbv
  rw [← declared]
  exact (Reachable.initial []).declareAll _

theorem typedFields_say :
    table.typedFields 1 = .ok [("message", .any), ("next", .var ⟨"K", .family 1, .single⟩)] := by
  cbv

/-- The last field of `Say` is its slot, and no other field can be declared. -/
theorem deriveSlot_verdict_say :
    table.deriveSlot 1 none = .ok ⟨"next", .direct⟩ ∧
      table.deriveSlot 1 (some "message") =
        .error (.derivation (.otherField "message" "K" "next")) := by
  have verdict := deriveSlot_verdict reachable_dialogue rfl typedFields_say
  have sole : Slot.Sole ⟨"K", .family 1, .single⟩ [("message", .any)]
      ("next", .var ⟨"K", .family 1, .single⟩) [] .direct := by
    refine ⟨.direct, fun g mem occurs => ?_⟩
    obtain rfl := List.mem_singleton.mp mem
    cases occurs
  constructor
  · exact ((verdict none).1 _).mpr ⟨_, _, _, rfl, rfl, sole, .inr ⟨rfl, rfl⟩⟩
  · exact ((verdict (some "message")).2.1 _).mpr
      (.otherField (g := ("message", .any)) rfl sole (by simp) rfl (by decide))

end ClassTable

end EffectTrees
