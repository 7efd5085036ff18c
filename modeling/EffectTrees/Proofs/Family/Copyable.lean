import EffectTrees.Proofs.Family.SubclassInstances

/-!
# Classes whose instances can be copied

A copy of an instance is made anew, from a value for each field that is given. So the class has to
make its instances from exactly these fields, and nothing may keep it from making them
(`ClassTable.Copyable`). A class with a slot of which this holds is a constructor in good order
(`ClassTable.Operable`).

It stays so as long as neither the class nor an ancestor of it is registered anew
(`Operable.register_other`). For a class that lists its entries itself and makes its instances past
all guards, even that makes no difference (`ClassTable.Lasting`, `Operable.register_lasting`). Both are
said of single events first (`World.Upholds.step`), then of histories, and of calls of functions
(`World.Upholds.call`).

Classes are like this as a rule. A class that is made a record for the first time makes its instances
from the fields that are given, and it lasts if it is frozen (`Reachable.of_makeRecord`). So it is a
constructor once it has been registered (`ClassTable.Registers.constructs`). A class that is made a
record twice may not be, since it goes on making its instances in the way of the first time.
-/

namespace EffectTrees

open World (Event Step History)

namespace ClassTable

variable {t t' : ClassTable} {c : ClassRef} {s : Slot} {fields : List Field} {id k : Nat}

/-- The names of the fields that are given. -/
def givenNames (fields : List Field) : List String := (fields.filter Field.isGiven).map Field.name

/-- **The class makes its instances from the fields that are given.** -/
structure MakesOfGiven (t : ClassTable) (id : Nat) (fields : List Field) : Prop where
  listed : t.fields? id = some fields
  given : t.givenFields id = fields.filter Field.isGiven

/-- **Instances of the class can be copied**: they are made from the fields that are given, whose
names are distinct, and a value for each of them is accepted. -/
structure Copyable (t : ClassTable) (c : ClassRef) (fields : List Field) : Prop extends
    t.MakesOfGiven c.id fields where
  distinct : (fields.map Field.name).Nodup
  accepted : Instance.accepts t c (givenNames fields) = .ok ()

/-- **A constructor in good order**: it has a slot, which is the one that derivation finds, and its
instances can be copied. -/
structure Operable (t : ClassTable) (c : ClassRef) (s : Slot) (fields : List Field) : Prop where
  head : c.id ∈ t.lineage c.id
  slot : t.slotOf c.id = .ok s
  derived : ∃ declared, t.deriveSlot c.id declared = .ok s
  copyable : t.Copyable c fields

/-- **The class lasts**: it lists its entries itself, and it makes its instances itself, past all
guards. -/
structure Lasting (t : ClassTable) (id : Nat) : Prop where
  record : t.OwnRecord id
  initializer : ∃ i, (t.info? id).bind (·.layout.initializer) = some i ∧ i.isPrivileged = true

/-! ### What is looked up in layouts -/

/-- Parts of the layout are looked up with the same result, if all ancestors have the layouts that
they had. -/
theorem SameDeclared.lookup?_eq {α : Type} (same : SameDeclared t t')
    (layouts : ∀ k ∈ t.lineage id, SameLayout t t' k) (f : Layout → Option α) :
    t'.lookup? (fun c => f c.layout) id = t.lookup? (fun c => f c.layout) id := by
  unfold lookup?
  rw [same.lineage_eq]
  exact findSome?_congr fun k mem => (layouts k mem).bind f

theorem SameDeclared.guards_eq (same : SameDeclared t t')
    (layouts : ∀ k ∈ t.lineage id, SameLayout t t' k) (name : String) :
    t'.guards id name = t.guards id name := by
  unfold guards
  rw [same.lineage_eq, Bool.eq_iff_iff]
  simp only [List.any_eq_true]
  refine exists_congr fun k => and_congr_right fun mem => ?_
  rw [(layouts k mem).bind Layout.guarded]

/-- Instances are made of the same fields. -/
theorem MakesOfGiven.of_layouts (h : t.MakesOfGiven id fields) (same : SameDeclared t t')
    (layouts : ∀ k ∈ t.lineage id, SameLayout t t' k) : t'.MakesOfGiven id fields := by
  have initializer : t'.initializer? id = t.initializer? id :=
    same.lookup?_eq layouts Layout.initializer
  constructor
  · rw [← h.listed]
    exact congrArg (Option.map _) (same.lookup?_eq layouts Layout.entries)
  · rw [← h.given]
    unfold givenFields
    rw [initializer]

/-- Instances can be copied while all layouts stay. -/
theorem Copyable.of_layouts (h : t.Copyable c fields) (same : SameDeclared t t')
    (layouts : ∀ k ∈ t.lineage c.id, SameLayout t t' k) : t'.Copyable c fields := by
  have makes := h.toMakesOfGiven.of_layouts same layouts
  have initializer : t'.initializer? c.id = t.initializer? c.id :=
    same.lookup?_eq layouts Layout.initializer
  have given : t'.givenFields c.id = t.givenFields c.id := makes.given.trans h.given.symm
  have accepts : Instance.accepts t' c (givenNames fields) =
      Instance.accepts t c (givenNames fields) := by
    unfold Instance.accepts
    simp only [given, initializer, same.guards_eq layouts]
  exact ⟨makes, h.distinct, accepts.trans h.accepted⟩

/-- For a class that lasts, its own layout is enough. -/
theorem Copyable.of_lasting (h : t.Copyable c fields) (lasting : t.Lasting c.id)
    (same : SameDeclared t t') (layout : SameLayout t t' c.id) :
    t'.Lasting c.id ∧ t'.Copyable c fields := by
  obtain ⟨i, own, privileged⟩ := lasting.initializer
  have record := lasting.record.congr same (layout.bind Layout.entries)
  have own' : (t'.info? c.id).bind (·.layout.initializer) = some i :=
    (layout.bind Layout.initializer).trans own
  have initializer : t'.initializer? c.id = t.initializer? c.id := by
    rw [record.initializer?_eq own', lasting.record.initializer?_eq own]
  have given : t'.givenFields c.id = t.givenFields c.id := by
    unfold givenFields
    rw [initializer]
  have free : ((t.initializer? c.id).any Initializer.isPrivileged) = true := by
    rw [lasting.record.initializer?_eq own]
    exact privileged
  have accepts : Instance.accepts t' c (givenNames fields) =
      Instance.accepts t c (givenNames fields) := by
    unfold Instance.accepts
    simp only [given, initializer, free, Bool.not_true, Bool.false_and]
  refine ⟨⟨record, i, own', privileged⟩, ⟨?_, given.trans h.given⟩, h.distinct,
    accepts.trans h.accepted⟩
  rw [← h.listed]
  unfold fields?
  rw [record.entries_eq, lasting.record.entries_eq, layout.bind Layout.entries]

/-! ### What happens to the slot -/

/-- The slot is found again, if what is kept is that slot. -/
theorem Operable.slotOf_eq (h : t.Operable c s fields) (same : SameDeclared t t')
    (listed : t'.fields? c.id = some fields)
    (kept : t'.keptSlot c.id = some s ∨ t'.keptSlot c.id = none ∧ t.keptSlot c.id = none) :
    t'.slotOf c.id = .ok s := by
  rcases kept with kept | ⟨none', none⟩
  · exact slotOf_of_kept kept
  · -- It was derived before, and the fields that derivation looks at are the same.
    have fields' : t'.fields? c.id = t.fields? c.id := listed.trans h.copyable.listed.symm
    have record : t'.isRecord c.id = t.isRecord c.id := by
      have entries := congrArg Option.isSome fields'
      simpa only [fields?, Option.isSome_map, isRecord] using entries
    have found := h.slot
    rw [slotOf_of_none none] at found
    rw [slotOf_of_none none', same.ref_eq, record, same.deriveSlot_eq fields']
    exact found

/-- What is written down before a registration is the slot. -/
theorem Operable.keptSlot_settle (h : t.Operable c s fields) (asked : Consultations) :
    (t.settle asked).keptSlot c.id = some s ∨
      (t.settle asked).keptSlot c.id = none ∧ t.keptSlot c.id = none := by
  rw [ClassTable.keptSlot_settle, h.slot]
  split
  · exact .inl rfl
  · cases kept : t.keptSlot c.id with
    | none => exact .inr ⟨rfl, rfl⟩
    | some s' =>
      left
      have found := slotOf_of_kept kept
      rw [h.slot] at found
      rw [Except.ok.inj found]

/-- The constructor stays in good order if its fields do and its slot is kept. -/
theorem Operable.congr (h : t.Operable c s fields) (same : SameDeclared t t')
    (copyable : t'.Copyable c fields)
    (kept : t'.keptSlot c.id = some s ∨ t'.keptSlot c.id = none ∧ t.keptSlot c.id = none) :
    t'.Operable c s fields := by
  refine ⟨?_, h.slotOf_eq same copyable.listed kept, ?_, copyable⟩
  · rw [same.lineage_eq]
    exact h.head
  · obtain ⟨declared, derives⟩ := h.derived
    refine ⟨declared, ?_⟩
    rw [same.deriveSlot_eq (copyable.listed.trans h.copyable.listed.symm)]
    exact derives

/-! ### Registrations -/

variable {declared : Option String} {r : Except RegistrationFault Unit} {asked : Consultations}

/-- **A class that is no ancestor** may be registered. -/
theorem Operable.register_other (h : t.Operable c s fields)
    (registers : Registers (t.settle asked) k declared t' r) (apart : k ∉ t.lineage c.id) :
    t'.Operable c s fields := by
  have same := (t.sameDeclared_settle asked).trans registers.sameDeclared
  have layouts : ∀ j ∈ t.lineage c.id, SameLayout t t' j := fun j mem => by
    have other : j ≠ k := ne_of_mem_of_not_mem mem apart
    unfold SameLayout
    rw [registers.info?_of_ne other]
    exact t.sameLayout_settle asked j
  have slot : t'.keptSlot c.id = (t.settle asked).keptSlot c.id :=
    congrArg (Option.bind · ClassInfo.slot)
      (registers.info?_of_ne (ne_of_mem_of_not_mem h.head apart))
  refine h.congr same (h.copyable.of_layouts same layouts) ?_
  rw [slot]
  exact h.keptSlot_settle asked

/-- **If the class lasts, any class** may be registered, the class itself among them: the slot is
derived as before. -/
theorem Operable.register_lasting (h : t.Operable c s fields) (lasting : t.Lasting c.id)
    (registers : Registers (t.settle asked) k declared t' r) :
    t'.Lasting c.id ∧ t'.Operable c s fields := by
  have settled := t.sameDeclared_settle asked
  have same := settled.trans registers.sameDeclared
  have before := h.copyable.of_lasting lasting settled (t.sameLayout_settle asked c.id)
  have after : SameLayout (t.settle asked) t' c.id ∧ (t'.keptSlot c.id = some s ∨
      t'.keptSlot c.id = (t.settle asked).keptSlot c.id) := by
    by_cases itself : k = c.id
    · subst itself
      rcases before.1.record.of_registers registers with rfl | ⟨s', derives, rfl⟩
      · exact ⟨rfl, .inr rfl⟩
      · -- Whatever name was declared, the slot is the only one there is.
        obtain ⟨declared, derives₀⟩ :=
          (h.congr settled before.2 (h.keptSlot_settle asked)).derived
        obtain rfl := deriveSlot_unique derives₀ derives
        obtain ⟨info, known⟩ := Option.isSome_iff_exists.mp
          (Option.isSome_of_isSome_bind before.1.record.entries)
        refine ⟨sameLayout_assign _ c.id _ c.id, .inl ?_⟩
        rw [keptSlot, info?_update, if_pos rfl, known]
        rfl
    · have alone := registers.info?_of_ne (Ne.symm itself)
      exact ⟨by rw [SameLayout, alone], .inr (by rw [keptSlot, alone, keptSlot])⟩
  obtain ⟨layout, kept⟩ := after
  have still := before.2.of_lasting before.1 registers.sameDeclared layout
  refine ⟨still.1, h.congr same still.2 ?_⟩
  rcases kept with kept | kept
  · exact .inl kept
  · rw [kept]
    exact h.keptSlot_settle asked

/-! ### Constructors -/

/-- **A class that is made a record for the first time** makes its instances from the fields that are
given. If it is frozen, it lasts. -/
theorem Reachable.of_makeRecord (reachable : t.Reachable) {info : ClassInfo} {frozen : Bool}
    (known : t.info? id = some info) (first : info.layout.initializer = none)
    (made : (t.makeRecord id frozen).2 = true) :
    (∃ fields, (t.makeRecord id frozen).1.MakesOfGiven id fields) ∧
    (frozen = true → (t.makeRecord id frozen).1.Lasting id) := by
  have listed := entries_makeRecord made
  have record : (t.makeRecord id frozen).1.OwnRecord id :=
    ⟨(reachable.makeRecord id frozen).exists_lineage (Option.isSome_of_isSome_bind listed), listed⟩
  obtain ⟨info', after, entries, initializer⟩ := layout_makeRecord known made
  rw [first, Option.none_or] at initializer
  let fields := (t.entriesOf id info).filter fun f => !f.isConstant
  have own : ((t.makeRecord id frozen).1.info? id).bind (·.layout.initializer) =
      some ⟨fields.filter Field.isGiven, frozen⟩ := by
    rw [after]
    exact initializer
  refine ⟨⟨fields, ?_, ?_⟩, fun isFrozen => ⟨record, _, own, isFrozen⟩⟩
  · rw [fields?, record.entries_eq, after, Option.bind_some, entries]
    rfl
  · rw [givenFields, record.initializer?_eq own]
    rfl

/-- **A constructor**: a record of an effect that makes its instances from the fields that are given,
with a derived slot. -/
structure Constructs (t : ClassTable) (c : ClassRef) (s : Slot) : Prop where
  effect : c.isEffect
  slot : t.slotOf c.id = .ok s
  derived : ∃ declared, t.deriveSlot c.id declared = .ok s
  makes : ∃ fields, t.MakesOfGiven c.id fields

/-- **A class that is registered is a constructor**, if it has not been made a record before or once
only. -/
theorem Registers.constructs (reachable : t.Reachable) {info : ClassInfo}
    (known : t.info? id = some info)
    (once : info.layout = .unsettled ∨ t.OwnRecord id ∧ ∃ fields, t.MakesOfGiven id fields)
    (registers : t.Registers id declared t' (.ok ())) : ∃ s, t'.Constructs (t.ref id) s := by
  obtain ⟨s, registered⟩ := registers.exists_registered reachable
  have same := registers.sameDeclared
  have effect : (t.ref id).isEffect := by
    rw [← same.ref_eq]
    exact registered.effect
  refine ⟨s, effect, slotOf_of_kept registered.kept, ⟨declared, registered.derives⟩, ?_⟩
  -- The class makes its instances in this way when the slot is derived.
  generalize outcome : (Except.ok () : Except RegistrationFault Unit) = r at registers
  cases registers with
  | notEffect _ | notRecord _ _ | refused _ _ _ => cases outcome
  | @derived s' _ record _ =>
    have makes : ∃ fields, (t.ensureRecord id).1.MakesOfGiven id fields := by
      rcases once with unsettled | ⟨own, makes⟩
      · have unlisted : (t.info? id).bind (·.layout.entries) = none := by
          rw [known, Option.bind_some, unsettled]
          rfl
        unfold ensureRecord at record ⊢
        rw [unlisted] at record ⊢
        exact (reachable.of_makeRecord known (by rw [unsettled]; rfl) record).1
      · obtain ⟨entries, listed⟩ := Option.isSome_iff_exists.mp own.entries
        unfold ensureRecord
        rw [listed]
        exact makes
    obtain ⟨fields, makes⟩ := makes
    have assigned := (t.ensureRecord id).1.sameDeclared_assign id s'
    exact ⟨fields, makes.of_layouts assigned fun k _ => sameLayout_assign _ id s' k⟩

end ClassTable

/-! ### Whatever happens -/

open ClassTable (Operable Lasting)

/-- **A function does the class no harm**: the class lasts, so that nothing does, or the function
registers neither the class nor an ancestor of it. -/
def ClassTable.Unharmed (t : ClassTable) (c : ClassRef) (f : Value) : Prop :=
  t.Lasting c.id ∨ ∀ v w, (Machine.limit f [v]).Spares w (t.lineage c.id)

namespace World

variable {t : ClassTable} {c : ClassRef} {s : Slot} {fields : List Field} {f : Value} {w w' : World}
  {e : Event} {es : List Event}

/-- **The constructor is in good order** in a world that came about from a table, and it lasts if it
did then. -/
structure Upholds (w : World) (t : ClassTable) (c : ClassRef) (s : Slot) (fields : List Field) :
    Prop where
  operable : w.classes.Operable c s fields
  lineage : w.classes.lineage c.id = t.lineage c.id
  lasting : t.Lasting c.id → w.classes.Lasting c.id

/-- **One event** leaves it in good order, if it lasts or is spared. -/
theorem Upholds.step (h : w.Upholds t c s fields) (step : Step w e w')
    (calm : t.Lasting c.id ∨ ∀ k ∈ t.lineage c.id, ¬ e.Registers k) : w'.Upholds t c s fields := by
  have lineage := (step.sameDeclared.lineage_eq c.id).trans h.lineage
  cases step with
  | ask _ => exact ⟨h.operable, lineage, h.lasting⟩
  | register k declared =>
    have registers := ClassTable.registers (w.classes.settle w.asked) k declared
    by_cases lasting : t.Lasting c.id
    · have still := h.operable.register_lasting (h.lasting lasting) registers
      exact ⟨still.2, lineage, fun _ => still.1⟩
    · have apart : k ∉ w.classes.lineage c.id := by
        rw [h.lineage]
        exact fun mem => calm.resolve_left lasting k mem rfl
      exact ⟨h.operable.register_other registers apart, lineage, fun now => absurd now lasting⟩
  | note classes _ =>
    refine ⟨?_, lineage, ?_⟩
    · rw [classes]
      exact h.operable
    · rw [classes]
      exact h.lasting

theorem Upholds.history (h : w.Upholds t c s fields) (history : History w es w')
    (calm : t.Lasting c.id ∨ ∀ e ∈ es, ∀ k ∈ t.lineage c.id, ¬ e.Registers k) :
    w'.Upholds t c s fields :=
  history.invariant (P := fun w => w.Upholds t c s fields) h fun e mem _ _ step before =>
    before.step step (calm.imp_right fun spared => spared e mem)

/-- **A call of a harmless function** leaves it in good order, however the call ends. -/
theorem Upholds.call (h : w.Upholds t c s fields) (unharmed : t.Unharmed c f) {v : Value}
    {r : Except Signal Value} (run : (Machine.limit f [v]).runIn w = some (r, w')) :
    w'.Upholds t c s fields := by
  rcases unharmed with lasting | spares
  · obtain ⟨es, history⟩ := Act.Traceable.history run
    exact h.history history (.inl lasting)
  · obtain ⟨es, history, spared⟩ := spares v w r w' run
    exact h.history history (.inr spared)

/-- A class that has been asked for its slot has been asked from then on. -/
theorem asked_of_history (history : History w es w') {k : Nat} (asked : w.asked k = true) :
    w'.asked k = true := by
  refine history.invariant (P := fun w => w.asked k = true) asked fun e _ u u' step before => ?_
  cases step with
  | ask _ => simp [Consultations.add_apply, before]
  | register _ _ => exact before
  | note _ same =>
    rw [same]
    exact before

end World

end EffectTrees
