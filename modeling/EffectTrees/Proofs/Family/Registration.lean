import EffectTrees.Proofs.Family.Reachable
import EffectTrees.Proofs.World.History

/-!
# What a registration changes

Registering a class makes it a record if it is none, and writes its slot down if there is one. Nothing
else changes, whatever the outcome: `ClassTable.Registers` has one rule for each way to end, and all
that is said here of registrations is read off its rules.

* Other classes stay what they are, and a slot that is kept stays kept unless the class itself is
  registered anew (`ClassTable.keptSlot_register_of_ne`, `ClassTable.keptSlot_register_of_error`).
* What is read off declarations stays (`ClassTable.SameDeclared`), and so do the types of fields
  (`ClassTable.SameDeclared.fieldTypes_eq`).

Before a registration the slots of the classes that have been asked for are written down. For a class
that has a slot this makes no difference to the answers (`ClassTable.keptSlot_settle`).
-/

namespace EffectTrees

namespace ClassTable

variable {t t' t'' : ClassTable} {id k : Nat} {declared : Option String} {s : Slot}

/-! ### Kept slots -/

/-- The slot that a class keeps: the one that was written down last. -/
def keptSlot (t : ClassTable) (id : Nat) : Option Slot := (t.info? id).bind ClassInfo.slot

theorem slotOf_of_kept (h : t.keptSlot k = some s) : t.slotOf k = .ok s := by
  unfold slotOf
  rw [show (t.info? k).bind ClassInfo.slot = some s from h]

theorem slotOf_of_none (h : t.keptSlot k = none) :
    t.slotOf k = if (t.ref k).isEffect && t.isRecord k then t.deriveSlot k none
      else .error (.derivation .notConstructor) := by
  unfold slotOf
  rw [show (t.info? k).bind ClassInfo.slot = none from h]

/-- A class without lineage is no constructor. -/
theorem slotOf_unknown (h : t.info? k = none) : t.slotOf k = .error (.derivation .notConstructor) := by
  have unlisted : t.isRecord k = false := by
    simp [isRecord, entries?, lookup?, lineage, h]
  rw [slotOf_of_none (by simp [keptSlot, h]), unlisted, Bool.and_false]
  rfl

theorem info?_settle (t : ClassTable) (asked : Consultations) (k : Nat) :
    (t.settle asked).info? k = (t.info? k).map fun c =>
      if asked k && c.slot.isNone then { c with slot := (t.slotOf k).toOption } else c := by
  unfold settle info?
  rw [List.getElem?_mapIdx]

/-- A class that has been asked for keeps the slot that it has. -/
theorem keptSlot_settle (t : ClassTable) (asked : Consultations) (k : Nat) :
    (t.settle asked).keptSlot k = if asked k then (t.slotOf k).toOption else t.keptSlot k := by
  unfold keptSlot
  rw [info?_settle]
  cases known : t.info? k with
  | none => simp [slotOf_unknown known, Except.toOption]
  | some c =>
    cases kept : c.slot with
    | none => cases asked k <;> simp [kept]
    | some s =>
      have found : t.slotOf k = .ok s := slotOf_of_kept (by simp [keptSlot, known, kept])
      simp [kept, found, Except.toOption]

/-! ### Layouts -/

/-- The layout of a class is the same in both tables. -/
def SameLayout (t t' : ClassTable) (k : Nat) : Prop :=
  (t'.info? k).map ClassInfo.layout = (t.info? k).map ClassInfo.layout

theorem SameLayout.bind {α : Type} (h : SameLayout t t' k) (f : Layout → Option α) :
    (t'.info? k).bind (fun c => f c.layout) = (t.info? k).bind fun c => f c.layout := by
  have through : ∀ o : Option ClassInfo,
      o.bind (fun c => f c.layout) = (o.map ClassInfo.layout).bind f := fun o => by cases o <;> rfl
  rw [through, through, h]

theorem sameLayout_settle (t : ClassTable) (asked : Consultations) (k : Nat) :
    SameLayout t (t.settle asked) k := by
  unfold SameLayout
  rw [info?_settle]
  cases t.info? k with
  | none => rfl
  | some info =>
    simp only [Option.map_some]
    split <;> rfl

/-- To write the slot of a class down changes no layout. -/
theorem sameLayout_assign (t : ClassTable) (id : Nat) (s : Slot) (k : Nat) :
    SameLayout t (t.update id fun c => { c with slot := some s }) k := by
  unfold SameLayout
  rw [info?_update]
  split
  · next same =>
    rw [← same]
    cases t.info? id <;> rfl
  · rfl

/-! ### Making a record -/

/-- Making a class a record changes that class alone, step by step, and never its slot. -/
theorem makeRecord_induction {P : ClassTable → Prop} (t : ClassTable) (id : Nat) (frozen : Bool)
    (initial : P t)
    (change : ∀ (t' : ClassTable) (f : ClassInfo → ClassInfo), (∀ c : ClassInfo, (f c).slot = c.slot) →
      P t' → P (t'.update id f)) : P (t.makeRecord id frozen).1 := by
  have settled : ∀ (t' : ClassTable) (l : Layout → Layout), P t' → P (t'.setLayout id l) :=
    fun t' l => change t' (fun c => { c with layout := l c.layout }) fun _ => rfl
  unfold makeRecord
  split
  · exact initial
  · next c _ =>
    have described := change _ (fun c => { c with attributes := t.settledAttributes id c })
      (fun _ => rfl) (settled t (fun l => { l with frozen := some frozen }) initial)
    have listed := settled _ (fun l => { l with entries := some (t.entriesOf id c) }) described
    have completed := fun fields => settled _ (fun l => l.complete frozen fields) listed
    -- A record that cannot be made is left as far as it has come, so there is a goal for each step.
    dsimp only
    split
    · exact described
    · split
      · exact listed
      · split
        · exact completed _
        · exact settled _ (fun l => l.guard frozen _) (completed _)

/-- **A class that has been made a record** lists its entries. It makes its instances as it did
before or, if it did not make any, from those of its fields that are given. -/
theorem layout_makeRecord {frozen : Bool} {c : ClassInfo} (known : t.info? id = some c)
    (made : (t.makeRecord id frozen).2 = true) :
    ∃ c', (t.makeRecord id frozen).1.info? id = some c' ∧
      c'.layout.entries = some (t.entriesOf id c) ∧
      c'.layout.initializer = c.layout.initializer.or
        (some ⟨((t.entriesOf id c).filter fun f => !f.isConstant).filter Field.isGiven, frozen⟩) := by
  unfold makeRecord at made ⊢
  rw [known] at made ⊢
  dsimp only at made ⊢
  split at made
  · cases made
  · next fits =>
    split at made
    · cases made
    · next ordered =>
      split at made
      · cases made
      · next unguarded =>
        rw [if_neg fits, if_neg ordered, if_neg unguarded]
        simp [setLayout, info?_update, Layout.guard, Layout.complete, known]

theorem entries_makeRecord {frozen : Bool} (made : (t.makeRecord id frozen).2 = true) :
    (((t.makeRecord id frozen).1.info? id).bind (·.layout.entries)).isSome := by
  cases known : t.info? id with
  | none => simp [makeRecord, known] at made
  | some c =>
    obtain ⟨c', after, entries, -⟩ := layout_makeRecord known made
    rw [after, Option.bind_some, entries]
    rfl

theorem ensureRecord_induction {P : ClassTable → Prop} (t : ClassTable) (id : Nat) (initial : P t)
    (change : ∀ (t' : ClassTable) (f : ClassInfo → ClassInfo), (∀ c : ClassInfo, (f c).slot = c.slot) →
      P t' → P (t'.update id f)) : P (t.ensureRecord id).1 := by
  unfold ensureRecord
  split
  · exact t.makeRecord_induction id true initial change
  · exact initial

theorem info?_update_of_ne (t : ClassTable) (f : ClassInfo → ClassInfo) (other : k ≠ id) :
    (t.update id f).info? k = t.info? k := by
  rw [info?_update, if_neg (Ne.symm other)]

theorem info?_ensureRecord_of_ne (t : ClassTable) (other : k ≠ id) :
    (t.ensureRecord id).1.info? k = t.info? k :=
  t.ensureRecord_induction (P := fun t' => t'.info? k = t.info? k) id rfl fun t' f _ same =>
    (t'.info?_update_of_ne f other).trans same

theorem keptSlot_ensureRecord (t : ClassTable) (id k : Nat) :
    (t.ensureRecord id).1.keptSlot k = t.keptSlot k := by
  refine t.ensureRecord_induction (P := fun t' => t'.keptSlot k = t.keptSlot k) id rfl
    fun t' f sameSlot same => ?_
  rw [← same, keptSlot, keptSlot, info?_update]
  split
  · cases t'.info? k with
    | none => rfl
    | some c => exact sameSlot c
  · rfl

/-- Names stand for what they stood for. -/
theorem scope_ensureRecord (t : ClassTable) (id : Nat) :
    (t.ensureRecord id).1.bound = t.bound ∧ (t.ensureRecord id).1.shared = t.shared :=
  t.ensureRecord_induction (P := fun t' => t'.bound = t.bound ∧ t'.shared = t.shared) id ⟨rfl, rfl⟩
    fun _ _ _ same => same

/-- A class that is a record lists its entries itself. -/
theorem entries_ensureRecord (record : (t.ensureRecord id).2.2 = true) :
    (((t.ensureRecord id).1.info? id).bind (·.layout.entries)).isSome := by
  unfold ensureRecord at record ⊢
  split at record
  · exact entries_makeRecord record
  · next entries listed =>
    rw [listed]
    rfl

/-! ### Ways to end -/

/-- **How a registration ends**, and the table that it leaves behind. -/
inductive Registers (t : ClassTable) (id : Nat) (declared : Option String) :
    ClassTable → Except RegistrationFault Unit → Prop where
  | notEffect (other : (t.ref id).isEffect = false) :
      Registers t id declared t (.error (.notEffect (t.ref id)))
  | notRecord (effect : (t.ref id).isEffect = true) (failed : (t.ensureRecord id).2.2 = false) :
      Registers t id declared (t.ensureRecord id).1 (.error .notRecord)
  | refused {f : SlotFault} (effect : (t.ref id).isEffect = true)
      (record : (t.ensureRecord id).2.2 = true)
      (refused : (t.ensureRecord id).1.deriveSlot id declared = .error f) :
      Registers t id declared (t.ensureRecord id).1 (.error (.ofSlot (t.ref id).name f))
  | derived {s : Slot} (effect : (t.ref id).isEffect = true)
      (record : (t.ensureRecord id).2.2 = true)
      (derived : (t.ensureRecord id).1.deriveSlot id declared = .ok s) :
      Registers t id declared ((t.ensureRecord id).1.update id fun c => { c with slot := some s })
        (.ok ())

theorem registers (t : ClassTable) (id : Nat) (declared : Option String) :
    Registers t id declared (t.register id declared).1 (t.register id declared).2.2 := by
  unfold register
  dsimp only
  cases effect : (t.ref id).isEffect with
  | false => exact .notEffect effect
  | true =>
    cases record : (t.ensureRecord id).2.2 with
    | false => exact .notRecord effect record
    | true =>
      cases found : (t.ensureRecord id).1.deriveSlot id declared with
      | error f => simpa [found] using Registers.refused effect record found
      | ok s => simpa [found] using Registers.derived effect record found

variable {r : Except RegistrationFault Unit}

/-- Other classes stay what they are. -/
theorem Registers.info?_of_ne (h : Registers t id declared t' r) (other : k ≠ id) :
    t'.info? k = t.info? k := by
  cases h with
  | notEffect _ => rfl
  | notRecord _ _ => exact t.info?_ensureRecord_of_ne other
  | refused _ _ _ => exact t.info?_ensureRecord_of_ne other
  | derived _ _ _ => exact (info?_update_of_ne _ _ other).trans (t.info?_ensureRecord_of_ne other)

/-- A failed registration leaves the slots in place. -/
theorem Registers.keptSlot_of_error {f : RegistrationFault}
    (h : Registers t id declared t' (.error f)) (k : Nat) : t'.keptSlot k = t.keptSlot k := by
  cases h with
  | notEffect _ => rfl
  | notRecord _ _ => exact t.keptSlot_ensureRecord id k
  | refused _ _ _ => exact t.keptSlot_ensureRecord id k

/-- No slot is lost, whichever class is registered and however it ends. -/
theorem Registers.isSome_keptSlot (h : Registers t id declared t' r)
    (kept : (t.keptSlot k).isSome) : (t'.keptSlot k).isSome := by
  cases h with
  | notEffect _ => exact kept
  | notRecord _ _ | refused _ _ _ =>
    rw [keptSlot_ensureRecord]
    exact kept
  | derived _ _ _ =>
    rw [← keptSlot_ensureRecord t id k] at kept
    obtain ⟨s, kept⟩ := Option.isSome_iff_exists.mp kept
    obtain ⟨c, known, slot⟩ := Option.bind_eq_some_iff.mp kept
    unfold keptSlot
    rw [info?_update, known]
    split <;> simp [slot]

/-! ### What declarations settle -/

/-- The same classes were declared, and names stand for the same. -/
structure SameDeclared (t t' : ClassTable) : Prop where
  core : ∀ k, (t'.info? k).map ClassInfo.core = (t.info? k).map ClassInfo.core
  bound : t'.bound = t.bound
  shared : t'.shared = t.shared

namespace SameDeclared

theorem refl (t : ClassTable) : SameDeclared t t := ⟨fun _ => rfl, rfl, rfl⟩

theorem trans (h : SameDeclared t t') (h' : SameDeclared t' t'') : SameDeclared t t'' :=
  ⟨fun k => (h'.core k).trans (h.core k), h'.bound.trans h.bound, h'.shared.trans h.shared⟩

theorem of_evolves (h : t.Evolves t') (bound : t'.bound = t.bound) (shared : t'.shared = t.shared) :
    SameDeclared t t' := by
  refine ⟨fun k => ?_, bound, shared⟩
  rcases (h k).both with ⟨before, after⟩ | ⟨c, c', before, after, change⟩
  · rw [before, after]
  · rw [before, after]
    exact congrArg some change.core

/-- What is read off the declaration of a class is the same. -/
theorem map_eq {α : Type} (h : SameDeclared t t') (k : Nat) (f : ClassInfo → α)
    (ofCore : ∀ c : ClassInfo, f c.core = f c) : (t'.info? k).map f = (t.info? k).map f := by
  have through : f ∘ ClassInfo.core = f := funext ofCore
  rw [← through, ← Option.map_map, ← Option.map_map, h.core k]

theorem lineage_eq (h : SameDeclared t t') (k : Nat) : t'.lineage k = t.lineage k := by
  unfold lineage
  rw [h.map_eq k ClassInfo.lineage fun _ => rfl]

theorem ref_eq (h : SameDeclared t t') (k : Nat) : t'.ref k = t.ref k := by
  unfold ref
  rw [h.map_eq k ClassInfo.name fun _ => rfl, h.lineage_eq k]

theorem search_eq (h : SameDeclared t t') (k : Nat) : t'.search k = t.search k := by
  unfold search
  rw [h.map_eq k ClassInfo.search fun _ => rfl]

theorem typeName_eq (h : SameDeclared t t') (k : Nat) : t'.typeName k = t.typeName k := by
  unfold typeName
  dsimp only
  rw [h.map_eq k ClassInfo.name fun _ => rfl,
    h.map_eq k (fun c => c.parameters.map TypeVar.kind) fun _ => rfl]

theorem textScope_eq (h : SameDeclared t t') (k : Nat) : t'.textScope k = t.textScope k := by
  have vars : t'.typeVarsOf k = t.typeVarsOf k := by
    unfold typeVarsOf
    rw [h.lineage_eq k]
    refine congrArg List.flatten (List.map_congr_left fun j _ => ?_)
    rw [h.map_eq j ClassInfo.typeVars fun _ => rfl]
  unfold textScope globalScope boundScope
  simp only [vars, h.shared, h.bound, h.typeName_eq]

/-- **The types of fields** are settled by declarations. -/
theorem fieldTypes_eq (h : SameDeclared t t') (k : Nat) : t'.fieldTypes k = t.fieldTypes k := by
  have written : (fun j => ((t'.info? j).map ClassInfo.annotations).getD []) =
      fun j => ((t.info? j).map ClassInfo.annotations).getD [] :=
    funext fun j => by rw [h.map_eq j ClassInfo.annotations fun _ => rfl]
  unfold fieldTypes hints
  dsimp only
  rw [h.lineage_eq k, h.textScope_eq k, written]

/-- So the derivation of a slot depends on the fields of the record only. -/
theorem deriveSlot_eq (h : SameDeclared t t') (fields : t'.fields? k = t.fields? k)
    (declared : Option String) : t'.deriveSlot k declared = t.deriveSlot k declared := by
  unfold deriveSlot typedFields
  rw [h.search_eq k, h.fieldTypes_eq k, fields]

end SameDeclared

theorem sameDeclared_settle (t : ClassTable) (asked : Consultations) :
    SameDeclared t (t.settle asked) :=
  .of_evolves (t.evolves_settle asked) rfl rfl

theorem sameDeclared_ensureRecord (t : ClassTable) (id : Nat) :
    SameDeclared t (t.ensureRecord id).1 :=
  .of_evolves (t.evolves_ensureRecord id) (t.scope_ensureRecord id).1 (t.scope_ensureRecord id).2

theorem sameDeclared_assign (t : ClassTable) (id : Nat) (s : Slot) :
    SameDeclared t (t.update id fun c => { c with slot := some s }) :=
  .of_evolves (t.evolves_assign id s) rfl rfl

theorem Registers.sameDeclared (h : Registers t id declared t' r) : SameDeclared t t' := by
  have recorded := t.sameDeclared_ensureRecord id
  cases h with
  | notEffect _ => exact .refl t
  | notRecord _ _ => exact recorded
  | refused _ _ _ => exact recorded
  | @derived s _ _ _ => exact recorded.trans (sameDeclared_assign _ id s)

end ClassTable

end EffectTrees
