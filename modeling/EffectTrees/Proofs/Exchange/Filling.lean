import EffectTrees.Proofs.Exchange.Machine

/-!
# Computations that fill slots

There is more than one way to replace what is in the slots of a descriptor. What they have in common
is said here: a computation fills the slots of a descriptor (`Fills`) if it replaces what is at hand
by what some computation gives, changes the function of a function slot, and fails where there is
nothing to replace. It may make copies on its way, as long as the last one is made as from the
descriptor itself. Two computations that fill the slots of descriptors that differ in functions only
are matched if the replacements are (`Comparison.Matched.fills`).

To ask for the slot of a class leaves a trace in the world that no program sees, so it does not
matter how often it is done (`Act.ComesTo`).
-/

namespace EffectTrees

/-! ### Asking for slots -/

namespace Act

variable {α β : Type} {T : ClassTable} {a a' a'' : Act α}

/-- **The first computation does what the second one does**, at given classes, but that it may have
asked for slots before. -/
def ComesTo (T : ClassTable) (a a' : Act α) : Prop :=
  ∀ w, w.classes = T → ∃ asked, a.runIn w = a'.runIn { w with asked := asked }

theorem ComesTo.of_runs (h : ∀ w, w.classes = T → a.runIn w = a'.runIn w) : ComesTo T a a' :=
  fun w hw => ⟨w.asked, h w hw⟩

theorem ComesTo.refl (a : Act α) : ComesTo T a a := .of_runs fun _ _ => rfl

theorem ComesTo.trans (h : ComesTo T a a') (h' : ComesTo T a' a'') : ComesTo T a a'' := by
  intro w hw
  obtain ⟨asked, hr⟩ := h w hw
  obtain ⟨asked', hr'⟩ := h' { w with asked := asked } hw
  exact ⟨asked', hr.trans hr'⟩

theorem ComesTo.bind (h : ComesTo T a a') (f : α → Act β) : ComesTo T (a >>= f) (a' >>= f) := by
  intro w hw
  obtain ⟨asked, hr⟩ := h w hw
  exact ⟨asked, by rw [runIn_bind, runIn_bind, hr]⟩

/-- A step that gives a value. -/
theorem ComesTo.step {x : α} {f : α → Act β} {b : Act β} (h : ComesTo T a (pure x))
    (h' : ComesTo T (f x) b) : ComesTo T (a >>= f) b :=
  (h.bind f).trans (by rwa [pure_bind])

/-- A step that fails. -/
theorem ComesTo.fails {f : Fault} (h : ComesTo T a (Act.fail f)) (g : α → Act β) :
    ComesTo T (a >>= g) (Act.fail f) := h.bind g

end Act

open Act (ComesTo)

section

variable {T : ClassTable} {c : ClassRef} {own : List (String × Value)} {s : Slot}
  {fill : Value → List (String × Value)}

theorem comesTo_slotOf (slot : T.slotOf c.id = .ok s) : ComesTo T (Act.slotOf c) (pure s) := by
  rintro w rfl
  exact ⟨w.asked.add c.id, by rw [runIn_slotOf, slot]; rfl⟩

theorem comesTo_slotOf_fail {f : SlotFault} (slot : T.slotOf c.id = .error f) :
    ComesTo T (Act.slotOf c) (Act.fail (.ofRegistration (.ofSlot c.name f))) := by
  rintro w rfl
  exact ⟨w.asked, by rw [runIn_slotOf, slot]; rfl⟩

theorem comesTo_lookup {n : String} {x : Value} (h : T.memberOf? c.id own .scalar n = some x) :
    ComesTo T ((Value.descriptor c own).lookup n) (pure x) := by
  rintro w rfl
  exact ⟨w.asked, by rw [runIn_lookup, h]; rfl⟩

theorem comesTo_lookup_fail {n : String} (h : T.memberOf? c.id own .scalar n = none) :
    ComesTo T ((Value.descriptor c own).lookup n) (Act.fail .missingMember) := by
  rintro w rfl
  exact ⟨w.asked, by rw [runIn_lookup, h]; rfl⟩

theorem Slotted.comesTo_replaceMember (h : Slotted T c own s fill) (x : Value) :
    ComesTo T ((Value.descriptor c own).replaceMember s.name x)
      (pure (.descriptor c (fill x))) := by
  rintro w rfl
  exact ⟨w.asked, by rw [replaceMember_descriptor, Instance.runIn_replace, h.fills]; rfl⟩

/-- A slot that has been filled before is filled as if it had not been. -/
theorem Slotted.refill_comesTo (h : Slotted T c own s fill) (x y : Value) :
    ComesTo T ((Value.descriptor c (fill x)).replaceMember s.name y)
      ((Value.descriptor c own).replaceMember s.name y) := by
  refine .of_runs fun w hw => ?_
  subst hw
  rw [replaceMember_descriptor, replaceMember_descriptor, Instance.runIn_replace,
    Instance.runIn_replace, h.fills, (h.refill x).fills]

end

namespace Comparison.Matched

variable {K : Comparison} {α β : Type} {Q : α → β → Prop} {a a' : Act α} {b b' : Act β}

theorem comesTo (ha : ComesTo K.classes a a') (hb : ComesTo K.classes b b')
    (h : K.Matched Q a' b') : K.Matched Q a b := by
  intro w w' alike r w₁ hr
  obtain ⟨asked, hasked⟩ := ha w alike.left
  obtain ⟨asked', hasked'⟩ := hb w' alike.right
  rw [hasked] at hr
  obtain ⟨r', w₁', hr', after, ends⟩ := h { w with asked := asked } { w' with asked := asked' }
    ⟨alike.left, alike.right, alike.log, alike.remarks⟩ r w₁ hr
  exact ⟨r', w₁', by rw [hasked', hr'], after, ends⟩

end Comparison.Matched

/-! ### Ways to fill slots -/

/-- **The computation fills the slots** of a descriptor: what is at hand is replaced by what `b`
gives, and the function of a function slot is changed by `F`. -/
structure Fills (T : ClassTable) (b : Value → Act Value) (F : Value → Value) (d : Value)
    (a : Act Value) : Prop where
  list {items : List Value} (isList : d = .list items) :
    ComesTo T a (do return .list (← items.mapM b))
  direct {c : ClassRef} {own : List (String × Value)} {s : Slot} {x : Value}
    (isDescriptor : d = .descriptor c own) (slot : T.slotOf c.id = .ok s) (kind : s.kind = .direct)
    (holds : SlotHolds T c own s x) (fillable : Fillable T d) :
    ∃ own', (∀ y, ComesTo T ((Value.descriptor c own').replaceMember s.name y)
        (d.replaceMember s.name y)) ∧
      ComesTo T a (do
        let y ← b x
        (Value.descriptor c own').replaceMember s.name y)
  function {c : ClassRef} {own : List (String × Value)} {s : Slot} {n : Nat} {g : Value}
    (isDescriptor : d = .descriptor c own) (effect : c.isEffect) (slot : T.slotOf c.id = .ok s)
    (kind : s.kind = .function n) (holds : SlotHolds T c own s g) :
    ∃ rest : Value → Act Value,
      (∀ own', ComesTo T (rest (.descriptor c own')) (pure (.descriptor c own'))) ∧
        ComesTo T a (d.replaceMember s.name (F g) >>= rest)
  missing {c : ClassRef} {own : List (String × Value)} {s : Slot}
    (isDescriptor : d = .descriptor c own) (effect : c.isEffect) (slot : T.slotOf c.id = .ok s)
    (none : T.memberOf? c.id own .scalar s.name = none) : ComesTo T a (Act.fail .missingMember)
  noSlot {c : ClassRef} {own : List (String × Value)} {f : SlotFault}
    (isDescriptor : d = .descriptor c own) (effect : c.isEffect)
    (none : T.slotOf c.id = .error f) :
    ComesTo T a (Act.fail (.ofRegistration (.ofSlot c.name f)))
  noEffect {c : ClassRef} {own : List (String × Value)} (isDescriptor : d = .descriptor c own)
    (other : c.isEffect = false) : a = Act.fail (.noSlots c.name)
  noDescriptor (noList : ∀ items, d ≠ .list items) (noInstance : ∀ c own, d ≠ .descriptor c own) :
    a = Act.fail (.noSlots d.typeName)

section

variable {T : ClassTable} {call : Caller} {c : ClassRef} {own : List (String × Value)} {s : Slot}
  {f d : Value}

theorem comesTo_fmap (effect : c.isEffect) (slot : T.slotOf c.id = .ok s) :
    ComesTo T (fmap call (.descriptor c own) f) (s.map call (.descriptor c own) f) := by
  unfold fmap
  dsimp only
  rw [if_pos effect]
  exact (comesTo_slotOf slot).step (.refl _)

theorem comesTo_fmap_direct {x : Value} (effect : c.isEffect) (slot : T.slotOf c.id = .ok s)
    (kind : s.kind = .direct) (holds : SlotHolds T c own s x) :
    ComesTo T (fmap call (.descriptor c own) f) (do
      let y ← call f [x]
      (Value.descriptor c own).replaceMember s.name y) := by
  refine (comesTo_fmap effect slot).trans ?_
  unfold Slot.map
  rw [kind]
  exact (comesTo_lookup holds).step (.refl _)

theorem comesTo_fmap_function {n : Nat} {g : Value} (effect : c.isEffect)
    (slot : T.slotOf c.id = .ok s) (kind : s.kind = .function n) (holds : SlotHolds T c own s g) :
    ComesTo T (fmap call (.descriptor c own) f)
      ((Value.descriptor c own).replaceMember s.name (.after f g)) := by
  refine (comesTo_fmap effect slot).trans ?_
  unfold Slot.map
  rw [kind]
  exact (comesTo_lookup holds).step (.refl _)

theorem fmap_of_not_effect (other : c.isEffect = false) :
    fmap call (.descriptor c own) f = Act.fail (.noSlots c.name) := by
  unfold fmap
  simp [other]

theorem comesTo_fmap_fail (effect : c.isEffect) {e : SlotFault} (none : T.slotOf c.id = .error e) :
    ComesTo T (fmap call (.descriptor c own) f)
      (Act.fail (.ofRegistration (.ofSlot c.name e))) := by
  unfold fmap
  dsimp only
  rw [if_pos effect]
  exact (comesTo_slotOf_fail none).fails _

theorem fmap_of_not_descriptor (noList : ∀ items, d ≠ .list items)
    (noInstance : ∀ c own, d ≠ .descriptor c own) :
    fmap call d f = Act.fail (.noSlots d.typeName) := by
  unfold fmap
  split
  · exact absurd rfl (noList _)
  · exact absurd rfl (noInstance _ _)
  · rfl

/-- To map over the slots fills them with what the function gives. -/
theorem fills_fmap (T : ClassTable) (call : Caller) (d f : Value) :
    Fills T (fun x => call f [x]) (.after f) d (fmap call d f) where
  list := by
    rintro items rfl
    exact .refl _
  direct := by
    rintro c own s x rfl slot kind holds fillable
    cases fillable with
    | effect slotted _ =>
      obtain rfl := slotOf_unique slotted.slot slot
      exact ⟨own, fun _ => .refl _, comesTo_fmap_direct slotted.effect slot kind holds⟩
  function := by
    rintro c own s n g rfl effect slot kind holds
    refine ⟨pure, fun _ => .refl _, ?_⟩
    rw [bind_pure]
    exact comesTo_fmap_function effect slot kind holds
  missing := by
    rintro c own s rfl effect slot none
    exact (comesTo_fmap effect slot).trans ((comesTo_lookup_fail none).fails _)
  noSlot := by
    rintro c own f rfl effect none
    exact comesTo_fmap_fail effect none
  noEffect := by
    rintro c own rfl other
    exact fmap_of_not_effect other
  noDescriptor := fmap_of_not_descriptor

/-- To map over slots that have been filled before fills the slots of the first descriptor. -/
theorem fills_refilled {Y G : Value → Value} {d' : Value}
    (refills : Refills T (fun x y => y = Y x) G d d') :
    Fills T (fun x => call f [Y x]) (fun g => .after f (G g)) d (fmap call d' f) where
  list := by
    rintro items rfl
    cases refills with
    | @list _ items' each =>
      obtain rfl : items' = items.map Y := by
        have same : List.Forall₂ (fun y x => y = Y x) items' items := each.flip
        rwa [← List.forall₂_eq_eq_eq, List.forall₂_map_right_iff]
      change ComesTo T (do return Value.list (← (items.map Y).mapM fun y => call f [y])) _
      rw [List.mapM_map]
      exact .refl _
  direct := by
    rintro c own s x rfl slot kind holds fillable
    cases refills with
    | @direct _ _ s' fill x' y slotted kind' holds' content =>
      obtain rfl := slotOf_unique slotted.slot slot
      obtain rfl := holds'.unique holds
      subst content
      exact ⟨_, slotted.refill_comesTo _,
        comesTo_fmap_direct slotted.effect slot kind (slotted.holds_fill _)⟩
    | function slotted kind' holds' =>
      exact (slotOf_exclusive slot kind slotted.slot kind').elim
  function := by
    rintro c own s n g rfl effect slot kind holds
    cases refills with
    | direct slotted kind' holds' content =>
      exact (slotOf_exclusive slotted.slot kind' slot kind).elim
    | function slotted kind' holds' =>
      obtain rfl := slotOf_unique slotted.slot slot
      obtain rfl := holds'.unique holds
      refine ⟨pure, fun _ => .refl _, ?_⟩
      rw [bind_pure]
      exact (comesTo_fmap_function effect slot kind (slotted.holds_fill _)).trans
        (slotted.refill_comesTo _ _)
  missing := by
    rintro c own s rfl effect slot none
    cases refills.fillable with
    | effect slotted holds =>
      obtain rfl := slotOf_unique slotted.slot slot
      simp [show T.memberOf? c.id own .scalar _ = _ from holds] at none
  noSlot := by
    rintro c own f rfl effect none
    cases refills.fillable with
    | effect slotted holds => simp [slotted.slot] at none
  noEffect := by
    rintro c own rfl other
    cases refills.fillable with
    | effect slotted holds => simp [slotted.effect] at other
  noDescriptor noList noInstance := by
    cases refills.fillable with
    | list => exact absurd rfl (noList _)
    | effect => exact absurd rfl (noInstance _ _)

end

/-- A copy of an instance is one of the same class. -/
theorem copy_of_replaceMember {c : ClassRef} {own : List (String × Value)} {n : String} {x d : Value}
    {w w' : World}
    (run : ((Value.descriptor c own).replaceMember n x).runIn w = some (.ok d, w')) :
    ∃ own', d = .descriptor c own' := by
  rw [replaceMember_descriptor, Instance.runIn_replace] at run
  cases copied : Instance.replaced w.classes c own n x with
  | error f => simp [copied] at run
  | ok own' =>
    obtain ⟨rfl, -⟩ := by simpa [copied] using run
    exact ⟨own', rfl⟩

namespace Comparison

variable {K : Comparison} {d d' : Value}

/-- Of descriptors that differ in their slots, both can be filled or neither. -/
theorem Slots.fillable_left {D B : Value → Value → Prop} (h : K.Slots D B d d')
    (fillable : Fillable K.classes d') : Fillable K.classes d := by
  cases fillable with
  | list items =>
    cases h with
    | list each => exact .list _
    | other related notList _ =>
      cases related.shape
      exact absurd rfl (notList _)
  | @effect c own' s fill x' slotted holds =>
    cases h with
    | @slotted _ own _ s' slot fields content =>
      obtain rfl := slotOf_unique slot slotted.slot
      rw [show K.classes.memberOf? c.id own' .scalar s'.name = some x' from holds] at content
      obtain ⟨x, found, -⟩ := content.flip.exists_right
      -- Whether there is a copy, and under which names, does not depend on the slot.
      obtain ⟨names, _, copied, -⟩ := Instance.replaced_eq_ok (slotted.fills .null)
      have named := Instance.copyNames_eq_ok_iff.mpr ⟨_, copied⟩
      rw [← Instance.copyNames_eq (P := fun _ => K.Rel) fields fun _ s _ => .scalar s] at named
      obtain ⟨_, copied'⟩ := Instance.copyNames_eq_ok_iff.mp named
      exact .effect ⟨slotted.effect, slotted.slot, copied'.replaced⟩ found
    | other related notList noSlot =>
      cases related.shape with
      | descriptor _ fields =>
        obtain ⟨f, none⟩ := noSlot _ _ rfl
        simp [slotted.slot] at none

namespace Matched

/-- **Two ways of filling the slots** of descriptors that differ in functions only. -/
theorem fills {b b' : Value → Act Value} {F F' : Value → Value} {a a' : Act Value}
    (h : K.Rel d d') (ha : Fills K.classes b F d a) (ha' : Fills K.classes b' F' d' a')
    (copy : ∀ x, AtHand K.classes d' x → Fillable K.classes d')
    (content : ∀ x x', AtHand K.classes d x → AtHand K.classes d' x' → K.Rel x x' →
      K.Matched K.Rel (b x) (b' x'))
    (behind : ∀ n g g', Behind K.classes d n g → Behind K.classes d' n g' → K.Rel g g' →
      K.Rel (F g) (F' g')) : K.Matched K.Rel a a' := by
  cases slots_of_rel h with
  | @list items items' each =>
    have right : List.Forall₂ (fun x x' => x' ∈ items' ∧ K.Rel x x') items items' :=
      ((List.forall₂_and_left _ _).mpr ⟨fun _ mem => mem, each.flip⟩).flip
    have both : List.Forall₂ (fun x x' => x ∈ items ∧ x' ∈ items' ∧ K.Rel x x') items items' :=
      (List.forall₂_and_left _ _).mpr ⟨fun _ mem => mem, right⟩
    have filled := Matched.mapM both fun x x' ⟨mem, mem', related⟩ =>
      content x x' (.item mem) (.item mem') related
    exact .comesTo (ha.list rfl) (ha'.list rfl) (filled.bind fun _ _ filled => .pure (.list filled))
  | @slotted c own own' s slot fields held =>
    cases effect : c.isEffect with
    | false =>
      rw [ha.noEffect rfl effect, ha'.noEffect rfl effect]
      exact .fail _
    | true =>
      have again := Slots.slotted slot fields held
      revert held
      generalize found : K.classes.memberOf? c.id own .scalar s.name = x
      generalize found' : K.classes.memberOf? c.id own' .scalar s.name = x'
      intro held
      cases held with
      | none =>
        exact .comesTo (ha.missing rfl effect slot found) (ha'.missing rfl effect slot found')
          (.fail _)
      | @some x x' related =>
        unfold AtSlot at related
        cases kind : s.kind with
        | direct =>
          rw [kind] at related
          have at_hand : AtHand K.classes (.descriptor c own) x := .content effect slot kind found
          have at_hand' : AtHand K.classes (.descriptor c own') x' := .content effect slot kind found'
          have fillable' := copy x' at_hand'
          obtain ⟨_, copies, comes⟩ := ha.direct rfl slot kind found (again.fillable_left fillable')
          obtain ⟨_, copies', comes'⟩ := ha'.direct rfl slot kind found' fillable'
          -- The copies that are filled last are filled like the descriptors themselves.
          refine .comesTo comes comes' ((content _ _ at_hand at_hand' related).bind
            fun y y' filled => ?_)
          refine .comesTo (copies y) (copies' y') ((Matched.fill (E := K.Rel) (F := K.Rel) slot
            fields ?_).imp fun _ _ done => done.rel (fun _ _ => id) fun _ _ => id)
          unfold AtSlot
          rwa [kind]
        | function n =>
          rw [kind] at related
          obtain ⟨rest, stays, comes⟩ := ha.function rfl effect slot kind found
          obtain ⟨rest', stays', comes'⟩ := ha'.function rfl effect slot kind found'
          have filled : K.Matched (K.Filled K.Rel K.Rel)
              ((Value.descriptor c own).replaceMember s.name (F x))
              ((Value.descriptor c own').replaceMember s.name (F' x')) := by
            refine .fill slot fields ?_
            unfold AtSlot
            rw [kind]
            exact behind n _ _ (.slot effect slot kind found) (.slot effect slot kind found') related
          have copied := (filled.and_right fun _ _ _ _ => copy_of_replaceMember).and_left
            fun _ _ _ _ => copy_of_replaceMember
          refine .comesTo comes comes' (copied.bind ?_)
          rintro _ _ ⟨⟨own₁, rfl⟩, done, own₁', rfl⟩
          exact .comesTo (stays own₁) (stays' own₁')
            (.pure (done.rel (fun _ _ => id) fun _ _ => id))
  | other related notList noSlot =>
    cases related.shape with
    | list items => exact absurd rfl (notList _)
    | descriptor c fields =>
      cases effect : c.isEffect with
      | false =>
        rw [ha.noEffect rfl effect, ha'.noEffect rfl effect]
        exact .fail _
      | true =>
        obtain ⟨f, none⟩ := noSlot c _ rfl
        exact .comesTo (ha.noSlot rfl effect none) (ha'.noSlot rfl effect none) (.fail _)
    | _ =>
      rw [ha.noDescriptor (fun _ => by simp) fun _ _ => by simp,
        ha'.noDescriptor (fun _ => by simp) fun _ _ => by simp, related.typeName_eq]
      exact .fail _

end Matched

end Comparison

end EffectTrees
