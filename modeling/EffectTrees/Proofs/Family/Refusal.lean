import EffectTrees.Proofs.Family.Assurance
import EffectTrees.Proofs.Family.Placement
import EffectTrees.Proofs.Family.Verdict

/-!
# What becomes of a class whose registration failed

If the derivation of its slot fails, a class cannot be registered. What the slot of the class is
afterwards is settled at that moment: until the class is registered anew, no other registration and no
use of effects makes a difference (`slotOf_of_history`). The class lists its entries itself by then,
and what a derivation reads besides was declared before.

That the class has no slot then, so that every attempt to use its instances fails, holds in most cases
but not in all. `aftermath_of_refusal` tells them apart:

* a class that had a slot before keeps it, registered or derived when it was asked for;
* a class that was registered with the wrong name for its continuation has its slot derived without
  that name later on, and that succeeds if the field which holds the continuation is the last one;
* in any other case the class is of no use (`Unusable`): its slot, a locator of its family, and
  analyses that come by its instances all fail with a derivation error.

Declarations are not among the events that are considered: a class that is declared later may give a
meaning to a name that was unknown.
-/

namespace EffectTrees

open Machine (limit)
open World (Event Step History)

/-- The derivation failed on account of the name that was declared for the continuation. -/
def DerivationFault.ConcernsName : DerivationFault → Prop
  | unknownField _ | otherField _ _ _ => True
  | _ => False

/-- The event is a registration of the class. -/
def World.Event.Registers (id : Nat) : Event → Prop
  | register k _ _ => k = id
  | _ => False

namespace ClassTable

variable {t t' : ClassTable} {id k : Nat} {declared : Option String}
  {r : Except RegistrationFault Unit}

/-! ### The slot of a class that lists its entries -/

/-- The class stands at the head of its lineage and lists its entries itself. -/
structure OwnRecord (t : ClassTable) (id : Nat) : Prop where
  head : ∃ rest, t.lineage id = id :: rest
  entries : ((t.info? id).bind (·.layout.entries)).isSome

/-- Such a class has the entries that it lists, whatever its ancestors list. -/
theorem OwnRecord.entries_eq (h : t.OwnRecord id) :
    t.entries? id = (t.info? id).bind (·.layout.entries) := by
  obtain ⟨rest, lineage⟩ := h.head
  obtain ⟨entries, listed⟩ := Option.isSome_iff_exists.mp h.entries
  rw [entries?, lookup?, lineage, List.findSome?_cons, listed]

theorem OwnRecord.isRecord (h : t.OwnRecord id) : t.isRecord id = true := by
  unfold ClassTable.isRecord
  rw [h.entries_eq]
  exact h.entries

/-- It stays so while what it lists stays. -/
theorem OwnRecord.congr (h : t.OwnRecord id) (same : SameDeclared t t')
    (entries : (t'.info? id).bind (·.layout.entries) = (t.info? id).bind (·.layout.entries)) :
    t'.OwnRecord id :=
  ⟨by rw [same.lineage_eq]; exact h.head, by rw [entries]; exact h.entries⟩

/-- And then the derivation of its slot gives the same. -/
theorem OwnRecord.deriveSlot_eq (h : t.OwnRecord id) (same : SameDeclared t t')
    (entries : (t'.info? id).bind (·.layout.entries) = (t.info? id).bind (·.layout.entries))
    (declared : Option String) : t'.deriveSlot id declared = t.deriveSlot id declared := by
  refine same.deriveSlot_eq ?_ declared
  unfold fields?
  rw [h.entries_eq, (h.congr same entries).entries_eq, entries]

/-- A slot that is not kept is derived. -/
theorem OwnRecord.slotOf_of_none (h : t.OwnRecord id) (effect : (t.ref id).isEffect = true)
    (none : t.keptSlot id = none) : t.slotOf id = t.deriveSlot id .none := by
  rw [ClassTable.slotOf_of_none none, effect, h.isRecord]
  rfl

/-- What is said of slots survives a change that leaves the entries alone, and the slot unless it is
written down. -/
theorem OwnRecord.slotOf_eq (h : t.OwnRecord id) (effect : (t.ref id).isEffect = true)
    (same : SameDeclared t t')
    (entries : (t'.info? id).bind (·.layout.entries) = (t.info? id).bind (·.layout.entries))
    (slot : t'.keptSlot id = t.keptSlot id ∨ t'.keptSlot id = (t.slotOf id).toOption) :
    t'.slotOf id = t.slotOf id := by
  have effect' : (t'.ref id).isEffect = true := by rw [same.ref_eq]; exact effect
  have derived : t'.keptSlot id = none → t.keptSlot id = none → t'.slotOf id = t.slotOf id :=
    fun none' none => by
      rw [(h.congr same entries).slotOf_of_none effect' none', h.slotOf_of_none effect none,
        h.deriveSlot_eq same entries]
  cases kept : t.keptSlot id with
  | some s =>
    have found := slotOf_of_kept kept
    have kept' : t'.keptSlot id = some s := by
      rcases slot with slot | slot <;> rw [slot]
      · exact kept
      · rw [found]
        rfl
    rw [slotOf_of_kept kept', found]
  | none =>
    cases kept' : t'.keptSlot id with
    | none => exact derived kept' kept
    | some s =>
      -- What was not kept before and is kept now was written down.
      have written : t'.keptSlot id = (t.slotOf id).toOption :=
        slot.resolve_left fun same => by simp [same, kept] at kept'
      rw [slotOf_of_kept kept']
      cases found : t.slotOf id with
      | error f => simp [written, found, Except.toOption] at kept'
      | ok s' =>
        obtain rfl : s' = s := by simpa [written, found, Except.toOption] using kept'
        rfl

theorem entries_settle (t : ClassTable) (asked : Consultations) (k : Nat) :
    ((t.settle asked).info? k).bind (·.layout.entries) = (t.info? k).bind (·.layout.entries) :=
  (t.sameLayout_settle asked k).bind Layout.entries

/-- The registration of another class leaves the class alone, but its slot may be written down
first. -/
theorem OwnRecord.register (h : t.OwnRecord id) (effect : (t.ref id).isEffect = true)
    {asked : Consultations} (registers : Registers (t.settle asked) k declared t' r)
    (other : id ≠ k) : t'.OwnRecord id ∧ t'.slotOf id = t.slotOf id := by
  have same := (t.sameDeclared_settle asked).trans registers.sameDeclared
  have entries : (t'.info? id).bind (·.layout.entries) =
      (t.info? id).bind (·.layout.entries) := by
    rw [registers.info?_of_ne other, entries_settle]
  refine ⟨h.congr same entries, h.slotOf_eq effect same entries ?_⟩
  have slot : t'.keptSlot id = (t.settle asked).keptSlot id :=
    congrArg (Option.bind · ClassInfo.slot) (registers.info?_of_ne other)
  rw [slot, keptSlot_settle]
  split
  · exact .inr rfl
  · exact .inl rfl

end ClassTable

/-! ### Histories without a registration of the class -/

namespace World

variable {w w' : World} {id : Nat} {e : Event} {es : List Event}

theorem Step.sameDeclared (h : Step w e w') : ClassTable.SameDeclared w.classes w'.classes := by
  cases h with
  | ask _ => exact .refl _
  | register k declared =>
    exact (ClassTable.sameDeclared_settle _ _).trans
      (ClassTable.registers (w.classes.settle w.asked) k declared).sameDeclared
  | note classes _ =>
    rw [classes]
    exact .refl _

/-- **The slot of a class stays what it is**, found or not, until the class is registered. -/
theorem slotOf_of_history (record : w.classes.OwnRecord id)
    (effect : (w.classes.ref id).isEffect = true) (h : History w es w')
    (unregistered : ∀ e ∈ es, ¬ e.Registers id) :
    w'.classes.OwnRecord id ∧ w'.classes.slotOf id = w.classes.slotOf id ∧
      w'.classes.ref id = w.classes.ref id := by
  refine h.invariant (P := fun w' => w'.classes.OwnRecord id ∧
    w'.classes.slotOf id = w.classes.slotOf id ∧ w'.classes.ref id = w.classes.ref id)
    ⟨record, rfl, rfl⟩ fun e mem u u' step ⟨record, slot, ref⟩ => ?_
  have sameRef := (step.sameDeclared.ref_eq id).trans ref
  cases step with
  | ask _ => exact ⟨record, slot, ref⟩
  | register k declared =>
    have other : id ≠ k := fun same => unregistered _ mem same.symm
    have changed := record.register (by rw [ref]; exact effect)
      (ClassTable.registers (u.classes.settle u.asked) k declared) other
    exact ⟨changed.1, changed.2.trans slot, sameRef⟩
  | note classes _ =>
    rw [classes]
    exact ⟨record, slot, ref⟩

end World

/-! ### A class that is of no use -/

/-- **The class is of no use** in a world: its slot, a locator of its family, the erasure of an
instance, and every analysis that comes by an instance in this world fail with the derivation error. -/
structure Unusable (c : ClassRef) (e : DerivationError) (w : World) : Prop where
  slotOf : (Act.slotOf c).Raises w e w
  locator : (deriveLocator c).Raises w e w
  erase : ∀ own, (EffectTrees.erase limit (.descriptor c own)).Raises w e w
  analyze : ∀ stepper u t own,
    Analysis.Reaches stepper u t w (.tree (.suspended (.descriptor c own))) →
      (Analysis.analyze limit stepper t).Raises u e w

/-- A record comes first among the constructors of its family. -/
theorem ClassTable.constructorsOf_eq_cons {t : ClassTable} {id : Nat} (known : (t.info? id).isSome)
    (record : t.isRecord id = true) : ∃ rest, t.constructorsOf id = id :: rest := by
  obtain ⟨c, known⟩ := Option.isSome_iff_exists.mp known
  have fresh : id < t.classes.length ∧ ([] : List Nat).contains id = false :=
    ⟨lt_of_info? known, rfl⟩
  rw [constructorsOf, explore, dif_pos fresh, List.filter_cons_of_pos record]
  exact ⟨_, rfl⟩

/-- A class without a slot is of no use. -/
theorem unusable_of_slotOf {w : World} {id : Nat} {f : DerivationFault}
    (record : w.classes.OwnRecord id) (effect : (w.classes.ref id).isEffect = true)
    (refused : w.classes.slotOf id = .error (.derivation f)) :
    Unusable (w.classes.ref id) ⟨(w.classes.ref id).name, f⟩ w := by
  have slot : (Act.slotOf (w.classes.ref id)).Raises w ⟨(w.classes.ref id).name, f⟩ w := by
    unfold Act.Raises
    rw [runIn_slotOf, show (w.classes.ref id).id = id from rfl, refused]
    rfl
  have known : (w.classes.info? id).isSome := Option.isSome_of_isSome_bind record.entries
  have erase : ∀ own, (EffectTrees.erase limit (.descriptor (w.classes.ref id) own)).Raises w
      ⟨(w.classes.ref id).name, f⟩ w := fun own => by
    unfold Act.Raises EffectTrees.erase
    dsimp only
    rw [if_pos effect, Act.runIn_bind, slot]
  refine ⟨slot, ?_, erase, fun stepper u t own reached => ?_⟩
  -- The class comes first in its family, so it is the one that a locator fails for.
  · obtain ⟨rest, members⟩ := ClassTable.constructorsOf_eq_cons known record.isRecord
    unfold Act.Raises
    rw [runIn_deriveLocator effect, show (w.classes.ref id).id = id from rfl, members, if_neg (by simp),
      Act.runIn_bind, runIn_askAll_cons, refused]
    rfl
  · exact Analysis.runIn_analyze_fault_iff.mpr ⟨w, _, reached, .erase (erase own)⟩

/-! ### The aftermath -/

namespace ClassTable

open Slot (Refuses Sole)

variable {t : ClassTable} {id : Nat} {declared : Option String} {f : DerivationFault}

theorem Reachable.exists_lineage (h : t.Reachable) (known : (t.info? id).isSome) :
    ∃ rest, t.lineage id = id :: rest := by
  obtain ⟨c, known⟩ := Option.isSome_iff_exists.mp known
  by_cases root : id = 0
  · rw [root]
    exact ⟨[], h.lineage_root⟩
  · have linear := (h.placed id c known root).linear
    unfold Linearization.ofParents at linear
    split at linear
    · obtain ⟨rest, -, lineage⟩ := Option.map_eq_some_iff.mp linear
      exact ⟨rest, by simp [ClassTable.lineage, known, ← lineage]⟩
    · cases linear

/-- A derivation fails before it comes to the fields, whatever the name, or for what is wrong with the
fields. -/
theorem deriveSlot_refused (h : t.Reachable)
    (refused : t.deriveSlot id declared = .error (.derivation f)) :
    (¬ f.ConcernsName ∧ t.deriveSlot id none = .error (.derivation f)) ∨
      ∃ v fields, t.search id = .found v ∧
        t.typedFields id = .ok fields ∧ (fields.map Prod.fst).Nodup ∧ Refuses v fields declared f := by
  unfold deriveSlot at refused ⊢
  split at refused
  · cases refused
    exact .inl ⟨fun named => named.elim, rfl⟩
  · cases refused
  · next v param =>
    split at refused
    · next f' untyped =>
      -- A type that cannot be formed is not a matter of names either.
      refine .inl ⟨fun named => ?_, refused⟩
      cases f' <;> cases refused
      exact named.elim
    · next fields typed =>
      have distinct := h.nodup_typedFields typed
      refine .inr ⟨v, fields, param, typed, distinct, ?_⟩
      rw [← Slot.ofFields_eq_error_iff distinct]
      revert refused
      cases Slot.ofFields v fields declared <;> simp [Except.mapError]

/-- A derivation that fails with a name fails without it in the same way, unless the name is what it
fails for. -/
theorem deriveSlot_unnamed (h : t.Reachable)
    (refused : t.deriveSlot id declared = .error (.derivation f)) (unnamed : ¬ f.ConcernsName) :
    t.deriveSlot id none = .error (.derivation f) := by
  rcases deriveSlot_refused h refused with ⟨-, same⟩ | ⟨v, fields, param, typed, distinct, refuses⟩
  · exact same
  · have without : Refuses v fields none f := by
      cases refuses with
      | unsupported split earlier misuses => exact .unsupported split earlier misuses
      | missing unmentioned => exact .missing unmentioned
      | ambiguous supported several => exact .ambiguous supported several
      | unknownField _ _ _ _ => exact absurd trivial unnamed
      | otherField _ _ _ _ _ => exact absurd trivial unnamed
      | notLast split sole _ follows => exact .notLast split sole rfl follows
    rw [deriveSlot_eq param typed, (Slot.ofFields_eq_error_iff distinct).mpr without]
    rfl

/-- If it is, one field holds the continuation, and what remains to be seen is whether it is the last
one. -/
theorem exists_sole_of_named (h : t.Reachable)
    (refused : t.deriveSlot id declared = .error (.derivation f)) (named : f.ConcernsName) :
    ∃ v before g after kind, t.typedFields id = .ok (before ++ g :: after) ∧
      Sole v before g after kind ∧
      (after = [] → t.deriveSlot id none = .ok ⟨g.1, kind⟩) ∧
      (after ≠ [] → t.deriveSlot id none = .error (.derivation (.notLast g.1))) := by
  rcases deriveSlot_refused h refused with ⟨other, -⟩ | ⟨v, fields, param, typed, distinct, refuses⟩
  · exact absurd named other
  · obtain ⟨before, g, after, kind, rfl, sole⟩ : ∃ before g after kind,
        fields = before ++ g :: after ∧ Sole v before g after kind := by
      cases refuses with
      | unknownField split sole _ _ => exact ⟨_, _, _, _, split, sole⟩
      | otherField split sole _ _ _ => exact ⟨_, _, _, _, split, sole⟩
      | unsupported _ _ _ | missing _ | ambiguous _ _ | notLast _ _ _ _ => exact named.elim
    refine ⟨v, before, g, after, kind, typed, sole, fun last => ?_, fun follows => ?_⟩
    · have admits : Slot.Admits v (before ++ g :: after) none ⟨g.1, kind⟩ :=
        ⟨_, _, _, rfl, rfl, sole, .inr ⟨rfl, last⟩⟩
      rw [deriveSlot_eq param typed, admits.ofFields distinct]
      rfl
    · rw [deriveSlot_eq param typed,
        (Slot.ofFields_eq_error_iff distinct).mpr (.notLast rfl sole rfl follows)]
      rfl

end ClassTable

/-- **What becomes of a class** whose registration failed with a derivation error, if `t` was the
table before and `refused` the table after it. The cases exclude each other. -/
structure Aftermath (t refused : ClassTable) (id : Nat) (e : DerivationError) (w : World) : Prop where
  /-- A slot that the class had before is kept. -/
  kept : ∀ s, t.keptSlot id = some s → w.classes.slotOf id = .ok s
  /-- Without one, the class is of no use unless the declared name was wrong. -/
  unusable : t.keptSlot id = none → ¬ e.fault.ConcernsName → Unusable (w.classes.ref id) e w
  /-- If the declared name was wrong, the slot is derived without it, and the class is of no use only
  if fields follow the one that holds the continuation. -/
  misnamed : t.keptSlot id = none → e.fault.ConcernsName →
    ∃ v before f after kind, refused.typedFields id = .ok (before ++ f :: after) ∧
      Slot.Sole v before f after kind ∧
      (after = [] → w.classes.slotOf id = .ok ⟨f.1, kind⟩) ∧
      (after ≠ [] → Unusable (w.classes.ref id) ⟨e.className, .notLast f.1⟩ w)

/-- A derivation error of a registration is that of the class as a record of its own. -/
theorem ClassTable.Registers.of_derivation {t t' : ClassTable} {id : Nat} {declared : Option String}
    {e : DerivationError} (h : t.Registers id declared t' (.error (.derivation e))) :
    (t.ref id).isEffect = true ∧ ((t'.info? id).bind (·.layout.entries)).isSome ∧
      e.className = (t.ref id).name ∧ t'.deriveSlot id declared = .error (.derivation e.fault) := by
  generalize outcome : (Except.error (.derivation e) : Except RegistrationFault Unit) = r at h
  cases h with
  | notEffect _ | notRecord _ _ | derived _ _ _ => cases outcome
  | @refused f effect record refused =>
    cases f with
    | type _ | outOfRange => cases outcome
    | derivation f =>
      cases outcome
      exact ⟨effect, entries_ensureRecord record, rfl, refused⟩

theorem World.Step.registers {w w' : World} {id : Nat} {declared : Option String}
    {r : Except RegistrationFault Unit} (h : World.Step w (.register id declared r) w') :
    ClassTable.Registers (w.classes.settle w.asked) id declared w'.classes r := by
  cases h
  exact (w.classes.settle w.asked).registers id declared

theorem World.Step.reachable {w w' : World} {e : Event} (h : World.Step w e w')
    (reachable : w.classes.Reachable) : w'.classes.Reachable := by
  cases h with
  | ask _ => exact reachable
  | register id declared => exact (reachable.settle w.asked).register id declared
  | note classes _ =>
    rw [classes]
    exact reachable

/-- **The aftermath of a refusal.** A registration of a class fails with a derivation error, and then
anything happens but another registration of the class. What becomes of the class depends on the slot
that it had before, on the reason of the failure, and on the order of its fields only. -/
theorem aftermath_of_refusal {w w₁ w₂ : World} {id : Nat} {declared : Option String}
    {e : DerivationError} {es : List Event} (reachable : w.classes.Reachable)
    (refused : World.Step w (.register id declared (.error (.derivation e))) w₁)
    (history : History w₁ es w₂) (unregistered : ∀ e ∈ es, ¬ e.Registers id) :
    Aftermath (w.classes.settle w.asked) w₁.classes id e w₂ := by
  have kept := refused.registers.keptSlot_of_error id
  obtain ⟨effect, entries, name, derives⟩ := refused.registers.of_derivation
  rw [← refused.registers.sameDeclared.ref_eq id] at effect name
  have reachable₁ := refused.reachable reachable
  have known : (w₁.classes.info? id).isSome := Option.isSome_of_isSome_bind entries
  have record : w₁.classes.OwnRecord id := ⟨reachable₁.exists_lineage known, entries⟩
  obtain ⟨record₂, slot, ref⟩ := World.slotOf_of_history record effect history unregistered
  have effect₂ : (w₂.classes.ref id).isEffect = true := by rw [ref]; exact effect
  -- What later uses find is what they would have found at once: the slot, derived without a name.
  have derived : (w.classes.settle w.asked).keptSlot id = none →
      w₂.classes.slotOf id = w₁.classes.deriveSlot id none := fun none => by
    rw [slot, record.slotOf_of_none effect (kept.trans none)]
  have unusable : ∀ f, w₂.classes.slotOf id = .error (.derivation f) →
      Unusable (w₂.classes.ref id) ⟨e.className, f⟩ w₂ := fun f failed => by
    have := unusable_of_slotOf record₂ effect₂ failed
    rwa [ref, ← name, ← ref] at this
  refine ⟨fun s had => ?_, fun none unnamed => ?_, fun none named => ?_⟩
  · rw [slot, ClassTable.slotOf_of_kept (kept.trans had)]
  · refine unusable e.fault ?_
    rw [derived none]
    exact ClassTable.deriveSlot_unnamed reachable₁ derives unnamed
  · obtain ⟨v, before, f, after, kind, typed, sole, last, follows⟩ :=
      ClassTable.exists_sole_of_named reachable₁ derives named
    refine ⟨v, before, f, after, kind, typed, sole, fun none' => ?_, fun some => ?_⟩
    · rw [derived none, last none']
    · exact unusable _ (by rw [derived none, follows some])

/-! ### A name that is wrong -/

namespace Misnamed

/-- The class `Say` of a dialogue, before it has been registered. -/
def table : ClassTable :=
  ((ClassTable.initial []).declareAll
    [{ Dialogue.decl "Say" [("message", .name "Any"), ("next", .name "K")] with decorators := [] }]).1

/-- The error of a registration that names the message for its continuation. -/
def error : DerivationError := ⟨"Say", .otherField "message" "K" "next"⟩

/-- The world after it. -/
def after : World := ((World.initial table).register 1 (some "message")).1

end Misnamed

/-- If `Say` is registered with its message for a continuation, the registration fails, but the next
field is the last one, and so it is found to be the slot afterwards. -/
theorem aftermath_of_misnamed_say :
    World.Step (.initial Misnamed.table)
        (.register 1 (some "message") (.error (.derivation Misnamed.error))) Misnamed.after ∧
      Aftermath (Misnamed.table.settle .none) Misnamed.after.classes 1 Misnamed.error
        Misnamed.after ∧
      Misnamed.after.classes.slotOf 1 = .ok ⟨"next", .direct⟩ := by
  have outcome : ((World.initial Misnamed.table).register 1 (some "message")).2 =
      .error (.derivation Misnamed.error) := by cbv
  have refused : World.Step (.initial Misnamed.table)
      (.register 1 (some "message") (.error (.derivation Misnamed.error))) Misnamed.after := by
    rw [← outcome]
    exact .register _ 1 (some "message")
  have reachable : Misnamed.table.Reachable := (ClassTable.Reachable.initial []).declareAll _
  exact ⟨refused, aftermath_of_refusal reachable refused (.nil _) (by simp), by cbv⟩

end EffectTrees
