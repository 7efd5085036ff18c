import EffectTrees.Proofs.Family.Subclass

/-!
# The slot of a plain subclass

A plain subclass of a registered constructor is no constructor of its own, and keeps no slot. When
it is asked for its slot, the slot is derived from what it inherits, and without the name that the
registration of the constructor may have declared.

* `ClassTable.deriveSlot_none` — a slot that was found with a declared name is found without it if
  it is the last field that is given, and no other slot is.
* `ClassTable.Registered` — what is known of a constructor once it has been registered successfully.
  It stays so, since a class that lists its entries is described no more.
* `ClassTable.Continues` — no later event has a consequence for the slot of the subclass, unless a
  class between the two is registered (`Continues.step`). So the slot is derived as at the time of
  the registration (`Continues.slotOf_eq`).
-/

namespace EffectTrees

open World (Event Step History)

/-! ### The derivation without the declared name -/

namespace Slot

variable {v : TypeVar} {fields : List TypedField} {declared : Option String} {s : Slot}

/-- What is declared decides whether there is a slot, not which. -/
theorem eq_of_checkDeclared {s' : Slot} (h : checkDeclared v fields declared s = .ok s') :
    s' = s := by
  unfold checkDeclared at h
  split at h
  · split_ifs at h
    exact (Except.ok.inj h).symm
  · split_ifs at h
    exact (Except.ok.inj h).symm

/-- If there is a slot, it is the only candidate, and other declarations are checked against it. -/
theorem ofFields_of_ok (h : ofFields v fields declared = .ok s) (other : Option String) :
    ofFields v fields other = checkDeclared v fields other s := by
  unfold ofFields at h ⊢
  split at h
  · cases h
  · split at h
    · cases h
    · next slot sole =>
      obtain rfl := eq_of_checkDeclared h
      rfl
    · cases h

end Slot

namespace ClassTable

variable {t t' u u' : ClassTable} {c d k : Nat} {chain : List Nat} {declared : Option String}
  {s : Slot}

/-- The name of the last field that is given. -/
def lastGiven? (t : ClassTable) (id : Nat) : Option String :=
  ((((t.fields? id).getD []).filter Field.isGiven).getLast?).map Field.name

/-- Whatever is declared, a derivation comes to the same slot if it succeeds. -/
theorem deriveSlot_unique (h : t.deriveSlot c declared = .ok s) {other : Option String} {s' : Slot}
    (h' : t.deriveSlot c other = .ok s') : s' = s := by
  obtain ⟨v, fields, param, typed, found⟩ := exists_of_deriveSlot h
  rw [deriveSlot_eq param typed, Slot.ofFields_of_ok found] at h'
  cases checked : Slot.checkDeclared v fields other s with
  | error f => simp [checked, Except.mapError] at h'
  | ok s'' =>
    rw [checked] at h'
    rw [← Except.ok.inj h', Slot.eq_of_checkDeclared checked]

/-- **Without a declared name** it succeeds if the slot is the last field. -/
theorem deriveSlot_none (h : t.deriveSlot c declared = .ok s) :
    t.deriveSlot c none =
      if t.lastGiven? c = some s.name then .ok s else .error (.derivation (.notLast s.name)) := by
  obtain ⟨v, fields, param, typed, found⟩ := exists_of_deriveSlot h
  have last : fields.getLast?.map Prod.fst = t.lastGiven? c := by
    obtain ⟨types, -, given⟩ := exists_of_bind_eq_ok typed
    obtain rfl := Except.ok.inj given
    rw [List.getLast?_map, Option.map_map]
    rfl
  rw [deriveSlot_eq param typed, Slot.ofFields_of_ok found, Slot.checkDeclared, last]
  by_cases isLast : t.lastGiven? c = some s.name
  · rw [if_neg (not_not_intro isLast), if_pos isLast]
    rfl
  · rw [if_pos isLast, if_neg isLast]
    rfl

/-! ### Registered constructors -/

/-- **A registered constructor**: it lists its entries itself, it keeps a slot, and the registration
that the slot is from, with the declared name if there was one, would find it again. -/
structure Registered (t : ClassTable) (c : Nat) (declared : Option String) (s : Slot) : Prop where
  effect : (t.ref c).isEffect = true
  record : t.OwnRecord c
  kept : t.keptSlot c = some s
  derives : t.deriveSlot c declared = .ok s

/-- A class is a registered constructor once it has been registered successfully. -/
theorem Registers.exists_registered (reachable : t.Reachable)
    (h : t.Registers c declared t' (.ok ())) : ∃ s, t'.Registered c declared s := by
  have same := h.sameDeclared
  generalize outcome : (Except.ok () : Except RegistrationFault Unit) = r at h
  cases h with
  | notEffect _ | notRecord _ _ | refused _ _ _ => cases outcome
  | @derived s effect record derives =>
    have listed := entries_ensureRecord record
    obtain ⟨info, known⟩ := Option.isSome_iff_exists.mp (Option.isSome_of_isSome_bind listed)
    -- To write the slot down changes neither the entries nor what has been declared.
    have known' : ((t.ensureRecord c).1.update c fun c => { c with slot := some s }).info? c =
        some { info with slot := some s } := by
      rw [info?_update, if_pos rfl, known]
      rfl
    have entries := ((t.ensureRecord c).1.sameLayout_assign c s c).bind Layout.entries
    have reachable' := reachable.ensureRecord c
    have own : (t.ensureRecord c).1.OwnRecord c :=
      ⟨reachable'.exists_lineage (by rw [known]; rfl), listed⟩
    have written := (t.ensureRecord c).1.sameDeclared_assign c s
    refine ⟨s, ?_, own.congr written entries, ?_, ?_⟩
    · rw [same.ref_eq]
      exact effect
    · rw [keptSlot, known']
      rfl
    · rw [own.deriveSlot_eq written entries]
      exact derives

/-- It stays one while nothing happens to the class and its annotations read the same. -/
theorem Registered.congr (h : t.Registered c declared s) (same : t'.info? c = t.info? c)
    (reads : t'.fieldTypes c = t.fieldTypes c) : t'.Registered c declared s := by
  have lineage : t'.lineage c = t.lineage c := by
    unfold ClassTable.lineage
    rw [same]
  have ref : t'.ref c = t.ref c := by
    unfold ClassTable.ref
    rw [same, lineage]
  have record : t'.OwnRecord c :=
    ⟨by rw [lineage]; exact h.record.head, by rw [same]; exact h.record.entries⟩
  have fields : t'.fields? c = t.fields? c := by
    unfold fields?
    rw [record.entries_eq, h.record.entries_eq, same]
  refine ⟨by rw [ref]; exact h.effect, record, by rw [keptSlot, same]; exact h.kept, ?_⟩
  rw [← h.derives]
  unfold deriveSlot search typedFields
  rw [same, reads, fields]

theorem Registered.isSome (h : t.Registered c declared s) : (t.info? c).isSome :=
  Option.isSome_of_isSome_bind h.record.entries

/-! ### What happens later -/

/-- A class that lists its entries is registered as it is. -/
theorem OwnRecord.of_registers (h : t.OwnRecord c) {r : Except RegistrationFault Unit}
    (registers : t.Registers c declared t' r) :
    t' = t ∨ ∃ s, t.deriveSlot c declared = .ok s ∧
      t' = t.update c fun c => { c with slot := some s } := by
  have unchanged : (t.ensureRecord c).1 = t := by
    obtain ⟨entries, listed⟩ := Option.isSome_iff_exists.mp h.entries
    unfold ensureRecord
    rw [listed]
  cases registers with
  | notEffect _ => exact .inl rfl
  | notRecord _ _ | refused _ _ _ => exact .inl unchanged
  | @derived s _ _ derives =>
    rw [unchanged] at derives ⊢
    exact .inr ⟨s, derives, rfl⟩

theorem Registers.reachable (reachable : t.Reachable) {r : Except RegistrationFault Unit}
    (h : t.Registers c declared t' r) : t'.Reachable := by
  have recorded := reachable.ensureRecord c
  cases h with
  | notEffect _ => exact reachable
  | notRecord _ _ | refused _ _ _ => exact recorded
  | derived _ _ _ => exact recorded.assign c _

/-- The way from one class to the other is the same if its classes differ in their slots at most. -/
theorem PlainlyBelow.congr (h : t.PlainlyBelow c d chain)
    (same : ∀ k ∈ chain, ∀ info, t.info? k = some info →
      ∃ slot, t'.info? k = some { info with slot := slot }) : t'.PlainlyBelow c d chain := by
  induction h with
  | child known plain =>
    obtain ⟨slot, known'⟩ := same _ (List.mem_singleton_self _) _ known
    exact .child known' ⟨plain.parents, plain.typeVars, plain.annotations, plain.attributes,
      plain.layout⟩
  | further known plain _ ih =>
    obtain ⟨slot, known'⟩ := same _ List.mem_cons_self _ known
    exact .further known' ⟨plain.parents, plain.typeVars, plain.annotations, plain.attributes,
      plain.layout⟩ (ih fun k mem => same k (List.mem_cons_of_mem _ mem))

theorem PlainlyBelow.mem_chain (h : t.PlainlyBelow c d chain) : d ∈ chain := by
  cases h with
  | child _ _ => exact List.mem_singleton_self d
  | further _ _ _ => exact List.mem_cons_self

/-- **Nothing has happened** between two tables that matters for the slot of a plain subclass: the
constructor keeps its slot, and the slot of the subclass has been written down at most, as it is
derived. -/
structure Continues (t u : ClassTable) (c d : Nat) (chain : List Nat) (s : Slot) : Prop where
  reachable : u.Reachable
  same : SameDeclared t u
  layout : (u.info? c).map ClassInfo.layout = (t.info? c).map ClassInfo.layout
  kept : u.keptSlot c = some s
  plain : u.PlainlyBelow c d chain
  lazy : u.keptSlot d = none ∨ u.keptSlot d = (t.deriveSlot c none).toOption

namespace Continues

variable (continues : Continues t u c d chain s)
include continues

theorem layout_bind {α : Type} (f : Layout → Option α) :
    (u.info? c).bind (fun c => f c.layout) = (t.info? c).bind fun c => f c.layout :=
  SameLayout.bind continues.layout f

/-- The constructor is still one. -/
theorem registered (registered : t.Registered c declared s) : u.Registered c declared s := by
  have entries := continues.layout_bind Layout.entries
  refine ⟨?_, registered.record.congr continues.same entries, continues.kept, ?_⟩
  · rw [continues.same.ref_eq]
    exact registered.effect
  · rw [registered.record.deriveSlot_eq continues.same entries]
    exact registered.derives

/-- **The slot of the subclass** is derived as that of the constructor, without a name. -/
theorem slotOf_eq (registered : t.Registered c declared s) :
    u.slotOf d = t.deriveSlot c none := by
  have still := continues.registered registered
  have top := still.isSome
  cases kept : u.keptSlot d with
  | none =>
    have effect : (u.ref d).isEffect = true :=
      continues.plain.isA_of_top continues.reachable top still.effect
    have record : u.isRecord d = true := by
      rw [continues.plain.isRecord_eq continues.reachable top]
      exact still.record.isRecord
    rw [slotOf_of_none kept, effect, record, Bool.and_true, if_pos rfl,
      continues.plain.deriveSlot_eq continues.reachable top,
      registered.record.deriveSlot_eq continues.same (continues.layout_bind Layout.entries)]
  | some s' =>
    -- What has been written down is what is derived.
    have written : (t.deriveSlot c .none).toOption = some s' := by
      rcases continues.lazy with none | written
      · simp [none] at kept
      · exact written.symm.trans kept
    rw [slotOf_of_kept kept]
    cases derived : t.deriveSlot c .none with
    | error f => simp [derived, Except.toOption] at written
    | ok s'' =>
      obtain rfl : s'' = s' := by simpa [derived, Except.toOption] using written
      rfl

/-- Slots that have been asked for may be written down. -/
theorem settle (registered : t.Registered c declared s) (asked : Consultations) :
    Continues t (u.settle asked) c d chain s where
  reachable := continues.reachable.settle asked
  same := continues.same.trans (u.sameDeclared_settle asked)
  layout := (u.sameLayout_settle asked c).trans continues.layout
  kept := by
    rw [keptSlot_settle, slotOf_of_kept continues.kept, continues.kept]
    split <;> rfl
  plain := continues.plain.congr fun k _ info known => by
    rw [info?_settle, known, Option.map_some]
    split
    · exact ⟨_, rfl⟩
    · exact ⟨info.slot, rfl⟩
  lazy := by
    rw [keptSlot_settle, continues.slotOf_eq registered]
    split
    · exact .inr rfl
    · exact continues.lazy

/-- Classes that are not on the way may be registered, the constructor among them: it has the slot
then that it had before. -/
theorem register (registered : t.Registered c declared s) {other : Option String}
    {r : Except RegistrationFault Unit} (registers : u.Registers k other u' r) (apart : k ∉ chain) :
    Continues t u' c d chain s := by
  have still := continues.registered registered
  have elsewhere : ∀ j ∈ chain, u'.info? j = u.info? j := fun j mem =>
    registers.info?_of_ne fun same => apart (same ▸ mem)
  have top : (u'.info? c).map ClassInfo.layout = (u.info? c).map ClassInfo.layout ∧
      u'.keptSlot c = some s := by
    by_cases itself : k = c
    · subst itself
      rcases still.record.of_registers registers with rfl | ⟨s', derives, rfl⟩
      · exact ⟨rfl, continues.kept⟩
      · obtain rfl := deriveSlot_unique still.derives derives
        obtain ⟨info, known⟩ := Option.isSome_iff_exists.mp still.isSome
        simp [keptSlot, info?_update, known]
    · have alone := registers.info?_of_ne (Ne.symm itself)
      exact ⟨by rw [alone], by rw [keptSlot, alone]; exact continues.kept⟩
  refine ⟨registers.reachable continues.reachable, continues.same.trans registers.sameDeclared,
    top.1.trans continues.layout, top.2, ?_, ?_⟩
  · refine continues.plain.congr fun j mem info known => ⟨info.slot, ?_⟩
    rw [elsewhere j mem, known]
  · rw [keptSlot, elsewhere d continues.plain.mem_chain]
    exact continues.lazy

end Continues

/-- It has not if there is nothing between them. -/
theorem Continues.refl (reachable : t.Reachable) (registered : t.Registered c declared s)
    (plain : t.PlainlyBelow c d chain) (unasked : t.keptSlot d = none) :
    Continues t t c d chain s :=
  ⟨reachable, .refl t, rfl, registered.kept, plain, .inl unasked⟩

/-- **An event** is of no consequence unless it registers a class on the way. -/
theorem Continues.step {w w' : World} {e : Event} (continues : Continues t w.classes c d chain s)
    (registered : t.Registered c declared s) (step : World.Step w e w')
    (apart : ∀ k ∈ chain, ¬ e.Registers k) : Continues t w'.classes c d chain s := by
  cases step with
  | ask _ => exact continues
  | register k other =>
    exact (continues.settle registered w.asked).register registered
      (registers (w.classes.settle w.asked) k other) fun mem => apart k mem rfl
  | note classes _ =>
    rw [classes]
    exact continues

theorem Continues.history {w w' : World} {es : List Event}
    (continues : Continues t w.classes c d chain s) (registered : t.Registered c declared s)
    (history : History w es w') (apart : ∀ e ∈ es, ∀ k ∈ chain, ¬ e.Registers k) :
    Continues t w'.classes c d chain s :=
  history.invariant (P := fun w => Continues t w.classes c d chain s) continues
    fun e mem _ _ step before => before.step registered step (apart e mem)

theorem Continues.constructible_iff (continues : Continues t u c d chain s) :
    u.Constructible c ↔ t.Constructible c := by
  unfold Constructible
  rw [continues.layout_bind Layout.guarded, continues.layout_bind Layout.initializer]

end ClassTable

end EffectTrees
