import Mathlib.Tactic.SplitIfs
import EffectTrees.Proofs.Act.Ending
import EffectTrees.Proofs.Depth.Limit
import EffectTrees.Proofs.Descriptor.Replace
import EffectTrees.Proofs.Lists

/-!
# Descriptors with a slot

At given classes `T`, a descriptor of an effect class has a slot that can be filled, `Slotted`: a
function says what the descriptor holds with any content in the slot. The slot behaves as a lens.
What is put there is found there (`Slotted.holds_fill`), it is put there again in what has been
filled before (`Slotted.refill`), and the other members do not notice (`Slotted.fieldAt?_fill`).

The operations on slots are described by relations:

* `Refills T C F d d'` — `d'` is `d` with every content `x` that is at hand replaced by some `y`
  with `C x y`, and with `F g` for the function `g` of a function slot. It is what `fmap` comes to,
  if `C` is what the mapped function comes to on the contents and `F` composes with it
  (`Refills.yields_fmap`, `faultOr_fmap`).
* `Erased T d e` — `e` is `d` with the unit in its slots. It is what `erase` comes to
  (`Erased.yields_erase`, `faultOr_erase`).
-/

namespace EffectTrees

open Act (Yields FaultOr Lost)

variable {T : ClassTable} {c : ClassRef} {own : List (String × Value)} {s : Slot}
  {fill : Value → List (String × Value)}

theorem slotOf_unique {s s' : Slot} (h : T.slotOf c.id = .ok s) (h' : T.slotOf c.id = .ok s') :
    s = s' := by
  simpa [h] using h'

/-- The slot of a class is of one kind. -/
theorem slotOf_exclusive {s s' : Slot} {n : Nat} (h : T.slotOf c.id = .ok s)
    (direct : s.kind = .direct) (h' : T.slotOf c.id = .ok s') (function : s'.kind = .function n) :
    False := by
  obtain rfl := slotOf_unique h h'
  simp [direct] at function

/-- The slot of an effect class, and what a descriptor of the class holds with any content in it. -/
structure Slotted (T : ClassTable) (c : ClassRef) (own : List (String × Value)) (s : Slot)
    (fill : Value → List (String × Value)) : Prop where
  effect : c.isEffect
  slot : T.slotOf c.id = .ok s
  fills : ∀ x, Instance.replaced T c own s.name x = .ok (fill x)

/-- The descriptor has `x` in its slot. -/
def SlotHolds (T : ClassTable) (c : ClassRef) (own : List (String × Value)) (s : Slot)
    (x : Value) : Prop :=
  T.memberOf? c.id own .scalar s.name = some x

theorem SlotHolds.unique {x y : Value} (h : SlotHolds T c own s x) (h' : SlotHolds T c own s y) :
    x = y := Option.some.inj (h.symm.trans h')

/-! ### The laws of slots -/

namespace Slotted

/-- What is put into the slot is found there. -/
theorem holds_fill (h : Slotted T c own s fill) (x : Value) : SlotHolds T c (fill x) s x := by
  change (Value.fieldAt? _ _).or _ = _
  rw [Instance.fieldAt?_copy_self (h.fills x), Option.some_or]

/-- What is put into a slot that has been filled before replaces what was there. -/
theorem refill (h : Slotted T c own s fill) (x : Value) : Slotted T c (fill x) s fill :=
  ⟨h.effect, h.slot, fun y => by rw [Instance.replaced_copy (h.fills x), h.fills]⟩

/-- The other members do not depend on what is in the slot. -/
theorem fieldAt?_fill (h : Slotted T c own s fill) (x y : Value) {n : String} (other : n ≠ s.name) :
    Value.fieldAt? (fill x) n = Value.fieldAt? (fill y) n :=
  Instance.fieldAt?_copy_other (h.fills x) (h.fills y) other

theorem unique (h : Slotted T c own s fill) {s' : Slot} {fill' : Value → List (String × Value)}
    (h' : Slotted T c own s' fill') : s = s' ∧ fill = fill' := by
  obtain rfl := slotOf_unique h.slot h'.slot
  exact ⟨rfl, funext fun x => by simpa [h.fills] using h'.fills x⟩

end Slotted

/-! ### Reading and changing a slot -/

/-- Asking a second time is not noted again. -/
theorem Consultations.add_add (a : Consultations) (i : Nat) : (a.add i).add i = a.add i := by
  funext k
  simp only [Consultations.add_apply]
  cases decide (k = i) <;> rfl

theorem runIn_slotOf (c : ClassRef) (w : World) :
    (Act.slotOf c).runIn w =
      match w.classes.slotOf c.id with
      | .error f => some (.error (.fault (.ofRegistration (.ofSlot c.name f))), w)
      | .ok s => some (.ok s, { w with asked := w.asked.add c.id }) := by
  unfold Act.slotOf
  rw [Act.runIn_bind, Act.runIn_classes]
  dsimp only
  cases w.classes.slotOf c.id <;> rfl

theorem yields_slotOf (h : T.slotOf c.id = .ok s) : (Act.slotOf c).Yields T s := by
  rintro w rfl
  exact ⟨{ w with asked := w.asked.add c.id }, by rw [runIn_slotOf, h], rfl⟩

theorem faultOr_slotOf : (Act.slotOf c).FaultOr T fun s => T.slotOf c.id = .ok s := by
  rintro w rfl r w' hr
  rw [runIn_slotOf] at hr
  cases hs : w.classes.slotOf c.id with
  | error f =>
    obtain ⟨rfl, -⟩ := by simpa [hs] using hr
    exact .inl ⟨_, rfl⟩
  | ok s =>
    obtain ⟨rfl, rfl⟩ := by simpa [hs] using hr
    exact .inr ⟨s, rfl, rfl, rfl⟩

theorem runIn_lookup (c : ClassRef) (own : List (String × Value)) (n : String) (w : World) :
    ((Value.descriptor c own).lookup n).runIn w =
      match w.classes.memberOf? c.id own .scalar n with
      | some x => some (.ok x, w)
      | none => some (.error (.fault .missingMember), w) := by
  -- What the class table finds is what the value itself has, or else what its class has.
  have hmember : w.classes.memberOf? c.id own .scalar n =
      (Value.fieldAt? own n).or ((w.classes.valueAt? c.id n).map .scalar) := rfl
  have hown : (Value.descriptor c own).member? n = Value.fieldAt? own n := by
    unfold Value.member?
    rfl
  rw [hmember]
  unfold Value.lookup
  rw [hown]
  cases Value.fieldAt? own n with
  | some x => rfl
  | none =>
    dsimp only
    rw [Act.runIn_bind, Act.runIn_classes]
    dsimp only
    cases w.classes.valueAt? c.id n <;> rfl

theorem yields_lookup {n : String} {x : Value}
    (h : T.memberOf? c.id own .scalar n = some x) :
    ((Value.descriptor c own).lookup n).Yields T x := by
  rintro w rfl
  exact ⟨w, by rw [runIn_lookup, h], rfl⟩

theorem faultOr_lookup (n : String) :
    ((Value.descriptor c own).lookup n).FaultOr T fun x =>
      T.memberOf? c.id own .scalar n = some x := by
  rintro w rfl r w' hr
  rw [runIn_lookup] at hr
  cases hx : w.classes.memberOf? c.id own .scalar n with
  | none =>
    obtain ⟨rfl, -⟩ := by simpa [hx] using hr
    exact .inl ⟨_, rfl⟩
  | some x =>
    obtain ⟨rfl, rfl⟩ := by simpa [hx] using hr
    exact .inr ⟨x, rfl, rfl, rfl⟩

theorem replaceMember_descriptor (c : ClassRef) (own : List (String × Value)) (n : String)
    (x : Value) : (Value.descriptor c own).replaceMember n x = Instance.replace c own n x := by
  unfold Value.replaceMember
  rfl

theorem Slotted.yields_replaceMember (h : Slotted T c own s fill) (x : Value) :
    ((Value.descriptor c own).replaceMember s.name x).Yields T (.descriptor c (fill x)) := by
  rintro w rfl
  exact ⟨w, by rw [replaceMember_descriptor, Instance.runIn_replace, h.fills], rfl⟩

/-- A member that can be changed can be changed to any value. -/
theorem faultOr_replaceMember (effect : c.isEffect) (slot : T.slotOf c.id = .ok s) (x : Value) :
    ((Value.descriptor c own).replaceMember s.name x).FaultOr T fun d =>
      ∃ fill, Slotted T c own s fill ∧ d = .descriptor c (fill x) := by
  rintro w rfl r w' hr
  rw [replaceMember_descriptor, Instance.runIn_replace] at hr
  cases hx : Instance.replaced w.classes c own s.name x with
  | error f =>
    obtain ⟨rfl, -⟩ := by simpa [hx] using hr
    exact .inl ⟨_, rfl⟩
  | ok copy =>
    obtain ⟨rfl, rfl⟩ := by simpa [hx] using hr
    obtain ⟨fill, rfl, hfill⟩ := Instance.exists_fill hx
    exact .inr ⟨_, rfl, ⟨fill, ⟨effect, slot, hfill⟩, rfl⟩, rfl⟩

/-! ### Mapping over slots -/

/-- `x` is a content that mapping over a descriptor works on at once: an item of a list, or what a
direct slot holds. -/
inductive AtHand (T : ClassTable) : Value → Value → Prop where
  | item {items : List Value} {x : Value} (mem : x ∈ items) : AtHand T (.list items) x
  | content {c : ClassRef} {own : List (String × Value)} {s : Slot} {x : Value}
      (effect : c.isEffect) (slot : T.slotOf c.id = .ok s) (direct : s.kind = .direct)
      (holds : SlotHolds T c own s x) : AtHand T (.descriptor c own) x

/-- `g` is the function of so many arguments that a descriptor holds in its function slot. -/
inductive Behind (T : ClassTable) : Value → Nat → Value → Prop where
  | slot {c : ClassRef} {own : List (String × Value)} {s : Slot} {n : Nat} {g : Value}
      (effect : c.isEffect) (slot : T.slotOf c.id = .ok s) (kind : s.kind = .function n)
      (holds : SlotHolds T c own s g) : Behind T (.descriptor c own) n g

/-- A descriptor whose slots can be filled. -/
inductive Fillable (T : ClassTable) : Value → Prop where
  | list (items : List Value) : Fillable T (.list items)
  | effect {c : ClassRef} {own : List (String × Value)} {s : Slot}
      {fill : Value → List (String × Value)} {x : Value} (slotted : Slotted T c own s fill)
      (holds : SlotHolds T c own s x) : Fillable T (.descriptor c own)

/-- The second descriptor is the first one with contents at hand replaced by what `C` relates them
to, and with the function of a function slot changed by `F`. -/
inductive Refills (T : ClassTable) (C : Value → Value → Prop) (F : Value → Value) :
    Value → Value → Prop where
  | list {items items' : List Value} (each : List.Forall₂ C items items') :
      Refills T C F (.list items) (.list items')
  | direct {c : ClassRef} {own : List (String × Value)} {s : Slot}
      {fill : Value → List (String × Value)} {x y : Value} (slotted : Slotted T c own s fill)
      (kind : s.kind = .direct) (holds : SlotHolds T c own s x) (content : C x y) :
      Refills T C F (.descriptor c own) (.descriptor c (fill y))
  | function {c : ClassRef} {own : List (String × Value)} {s : Slot}
      {fill : Value → List (String × Value)} {g : Value} {n : Nat}
      (slotted : Slotted T c own s fill)
      (kind : s.kind = .function n) (holds : SlotHolds T c own s g) :
      Refills T C F (.descriptor c own) (.descriptor c (fill (F g)))

/-- The function that passes its arguments to `inner` and the result to `next`. -/
def Value.after (next inner : Value) : Value := .function (.after next inner)

namespace Refills

variable {C D : Value → Value → Prop} {F G : Value → Value} {d d' d'' : Value}

theorem mono (h : Refills T C F d d') (hCD : ∀ x y, AtHand T d x → C x y → D x y) :
    Refills T D F d d' := by
  cases h with
  | @list items items' each =>
    have both : List.Forall₂ (fun x y => x ∈ items ∧ C x y) items items' :=
      (List.forall₂_and_left _ _).mpr ⟨fun _ mem => mem, each⟩
    exact .list (both.imp fun x y hxy => hCD x y (.item hxy.1) hxy.2)
  | direct slotted kind holds content =>
    exact .direct slotted kind holds
      (hCD _ _ (.content slotted.effect slotted.slot kind holds) content)
  | function slotted kind holds => exact .function slotted kind holds

theorem fillable (h : Refills T C F d d') : Fillable T d := by
  cases h with
  | list each => exact .list _
  | direct slotted kind holds content => exact .effect slotted holds
  | function slotted kind holds => exact .effect slotted holds

/-- A list stays one. -/
theorem isList (has : ∃ items, d = .list items) (h : Refills T C F d d') :
    ∃ items, d' = .list items := by
  obtain ⟨items, rfl⟩ := has
  cases h with
  | list each => exact ⟨_, rfl⟩

theorem fillable_right (h : Refills T C F d d') : Fillable T d' := by
  cases h with
  | list each => exact .list _
  | direct slotted kind holds content => exact .effect (slotted.refill _) (slotted.holds_fill _)
  | function slotted kind holds => exact .effect (slotted.refill _) (slotted.holds_fill _)

theorem atHand_left (h : Refills T C F d d') {x : Value} (hx : AtHand T d x) :
    ∃ y, AtHand T d' y ∧ C x y := by
  cases h with
  | list each =>
    cases hx with
    | item mem =>
      obtain ⟨y, hy, hxy⟩ := each.exists_right mem
      exact ⟨y, .item hy, hxy⟩
  | @direct c own s fill x' y slotted kind holds content =>
    cases hx with
    | @content _ _ s' _ effect slot direct holds' =>
      obtain rfl := slotOf_unique slotted.slot slot
      obtain rfl := holds.unique holds'
      exact ⟨y, .content effect slot kind (slotted.holds_fill y), content⟩
  | @function c own s fill g n slotted kind holds =>
    cases hx with
    | @content _ _ s' _ effect slot direct holds' =>
      exact (slotOf_exclusive slot direct slotted.slot kind).elim

theorem atHand_right (h : Refills T C F d d') {y : Value} (hy : AtHand T d' y) :
    ∃ x, AtHand T d x ∧ C x y := by
  cases h with
  | list each =>
    cases hy with
    | item mem =>
      obtain ⟨x, hx, hxy⟩ := each.exists_left mem
      exact ⟨x, .item hx, hxy⟩
  | @direct c own s fill x y' slotted kind holds content =>
    cases hy with
    | @content _ _ s' _ effect slot direct holds' =>
      obtain rfl := slotOf_unique slotted.slot slot
      obtain rfl := (slotted.holds_fill y').unique holds'
      exact ⟨x, .content effect slot kind holds, content⟩
  | @function c own s fill g n slotted kind holds =>
    cases hy with
    | @content _ _ s' _ effect slot direct holds' =>
      exact (slotOf_exclusive slot direct slotted.slot kind).elim

/-- What is behind a function slot now was there before, with the function changed. -/
theorem behind_right {own : List (String × Value)} {n : Nat} {g' : Value}
    (h : Refills T C F d (.descriptor c own)) (hg : Behind T (.descriptor c own) n g') :
    ∃ own' g, d = .descriptor c own' ∧ Behind T d n g ∧ g' = F g := by
  cases h with
  | direct slotted direct holds content =>
    cases hg with
    | slot effect slot kind holds' =>
      exact (slotOf_exclusive slotted.slot direct slot kind).elim
  | @function _ _ _ _ g _ slotted kind holds =>
    cases hg with
    | slot effect slot kind' holds' =>
      obtain rfl := slotOf_unique slotted.slot slot
      obtain rfl := (slotted.holds_fill _).unique holds'
      obtain rfl := SlotKind.function.inj (kind.symm.trans kind')
      exact ⟨_, g, rfl, .slot effect slot kind holds, rfl⟩

/-- A descriptor that can be filled is refilled if there is something for each content. -/
theorem exists_of_fillable (h : Fillable T d) (F : Value → Value)
    (hC : ∀ x, AtHand T d x → ∃ y, C x y) : ∃ d', Refills T C F d d' := by
  cases h with
  | list items =>
    obtain ⟨items', each⟩ := List.Forall₂.exists_of_forall fun x hx => hC x (.item hx)
    exact ⟨_, .list each⟩
  | @effect c own s fill x slotted holds =>
    cases kind : s.kind with
    | direct =>
      obtain ⟨y, hy⟩ := hC x (.content slotted.effect slotted.slot kind holds)
      exact ⟨_, .direct slotted kind holds hy⟩
    | function n => exact ⟨_, .function slotted kind holds⟩

/-- Two refills, one after the other, are one. -/
theorem comp (h : Refills T C F d d') (h' : Refills T D G d' d'') :
    Refills T (Relation.Comp C D) (G ∘ F) d d'' := by
  cases h with
  | list each =>
    cases h' with
    | list each' => exact .list (each.comp each')
  | @direct c own s fill x y slotted kind holds content =>
    cases h' with
    | direct slotted' kind' holds' content' =>
      obtain ⟨rfl, rfl⟩ := (slotted.refill y).unique slotted'
      obtain rfl := (slotted.holds_fill y).unique holds'
      exact .direct slotted kind holds ⟨y, content, content'⟩
    | function slotted' kind' holds' =>
      exact (slotOf_exclusive slotted.slot kind slotted'.slot kind').elim
  | @function c own s fill g n slotted kind holds =>
    cases h' with
    | direct slotted' kind' holds' content' =>
      exact (slotOf_exclusive slotted'.slot kind' slotted.slot kind).elim
    | function slotted' kind' holds' =>
      obtain ⟨rfl, rfl⟩ := (slotted.refill _).unique slotted'
      obtain rfl := (slotted.holds_fill _).unique holds'
      exact .function (F := G ∘ F) slotted kind holds

end Refills

/-- The second descriptor is the first one with its slots filled anew, no matter with what. -/
def Refilled (T : ClassTable) (d d' : Value) : Prop := ∃ F, Refills T (fun _ _ => True) F d d'

theorem Refilled.list {items items' : List Value} (length : items'.length = items.length) :
    Refilled T (.list items) (.list items') :=
  ⟨id, .list (List.forall₂_iff_zip.mpr ⟨length.symm, fun _ => trivial⟩)⟩

variable {call : Caller} {C : Value → Value → Prop} {f d d' : Value}

/-- Mapping over a descriptor gives what it refills to. -/
theorem Refills.yields_fmap (h : Refills T C (.after f) d d')
    (hC : ∀ x y, C x y → (call f [x]).Yields T y) : (fmap call d f).Yields T d' := by
  cases h with
  | list each => exact (Act.Yields.mapM each hC).bind (Act.yields_pure _)
  | direct slotted kind holds content =>
    unfold fmap Slot.map
    dsimp only
    rw [if_pos slotted.effect]
    refine (yields_slotOf slotted.slot).bind ((yields_lookup holds).bind ?_)
    rw [kind]
    exact (hC _ _ content).bind (slotted.yields_replaceMember _)
  | function slotted kind holds =>
    unfold fmap Slot.map
    dsimp only
    rw [if_pos slotted.effect]
    refine (yields_slotOf slotted.slot).bind ((yields_lookup holds).bind ?_)
    rw [kind]
    exact slotted.yields_replaceMember _

/-- If mapping over a descriptor comes to anything but a fault, it refills the descriptor. -/
theorem faultOr_fmap (hC : ∀ x, AtHand T d x → (call f [x]).FaultOr T (C x)) :
    (fmap call d f).FaultOr T (Refills T C (.after f) d) := by
  unfold fmap
  split
  · exact (Act.FaultOr.mapM fun x hx => hC x (.item hx)).bind fun ys hys =>
      Act.faultOr_pure (.list hys)
  · rename_i c own
    split_ifs with effect
    · refine faultOr_slotOf.bind fun s slot => ?_
      refine (faultOr_lookup s.name).bind fun x holds => ?_
      cases kind : s.kind with
      | direct =>
        -- The content is mapped before it turns out whether the slot can be filled.
        refine (hC x (.content effect slot kind holds)).bind fun y hy => ?_
        refine (faultOr_replaceMember effect slot y).mono fun d' hd' => ?_
        obtain ⟨fill, slotted, rfl⟩ := hd'
        exact .direct slotted kind holds hy
      | function n =>
        refine (faultOr_replaceMember effect slot _).mono fun d' hd' => ?_
        obtain ⟨fill, slotted, rfl⟩ := hd'
        exact .function slotted kind holds
    · exact Act.faultOr_fail _
  · exact Act.faultOr_fail _

theorem responds_slotOf : (Act.slotOf c).Responds T fun s => T.slotOf c.id = .ok s := by
  refine ⟨faultOr_slotOf, fun w _ => ?_⟩
  rw [runIn_slotOf]
  cases w.classes.slotOf c.id <;> exact ⟨_, rfl⟩

theorem responds_lookup (n : String) :
    ((Value.descriptor c own).lookup n).Responds T fun x =>
      T.memberOf? c.id own .scalar n = some x := by
  refine ⟨faultOr_lookup n, fun w _ => ?_⟩
  rw [runIn_lookup]
  cases w.classes.memberOf? c.id own .scalar n <;> exact ⟨_, rfl⟩

theorem responds_replaceMember (effect : c.isEffect) (slot : T.slotOf c.id = .ok s) (x : Value) :
    ((Value.descriptor c own).replaceMember s.name x).Responds T fun _ => True := by
  refine ⟨(faultOr_replaceMember effect slot x).mono fun _ _ => trivial, fun w _ => ?_⟩
  rw [replaceMember_descriptor, Instance.runIn_replace]
  cases Instance.replaced w.classes c own s.name x <;> exact ⟨_, rfl⟩

/-- To map over a descriptor responds if the function does on what is at hand. -/
theorem responds_fmap {C : Value → Value → Prop}
    (hC : ∀ x, AtHand T d x → (call f [x]).Responds T (C x)) :
    (fmap call d f).Responds T fun _ => True := by
  unfold fmap
  split
  · exact (Act.Responds.mapM fun x hx => hC x (.item hx)).bind fun _ _ =>
      Act.responds_pure trivial
  · rename_i c own
    split_ifs with effect
    · refine responds_slotOf.bind fun s slot => (responds_lookup s.name).bind fun x holds => ?_
      cases kind : s.kind with
      | direct =>
        exact (hC x (.content effect slot kind holds)).bind fun y _ =>
          responds_replaceMember effect slot y
      | function n => exact responds_replaceMember effect slot _
    · exact Act.responds_fail _
  · exact Act.responds_fail _

/-! ### Erasing slots -/

/-- The second descriptor is the first one with the unit in its slots. -/
inductive Erased (T : ClassTable) : Value → Value → Prop where
  | list (items : List Value) : Erased T (.list items) (.list (items.map fun _ => .unit))
  | effect {c : ClassRef} {own : List (String × Value)} {s : Slot}
      {fill : Value → List (String × Value)} (slotted : Slotted T c own s fill) :
      Erased T (.descriptor c own) (.descriptor c (fill .unit))

open Machine (limit)

theorem yields_unit (x : Value) : (limit (.frame .unit) [x]).Yields T .unit := by
  rw [Machine.limit_frame]
  exact Act.yields_pure _

theorem forall₂_unit_iff {items items' : List Value} :
    List.Forall₂ (fun _ y => y = Value.unit) items items' ↔ items' = items.map fun _ => .unit := by
  refine ⟨fun h => ?_, fun h => ?_⟩
  · induction h with
    | nil => rfl
    | cons hy _ ih => rw [hy, ih, List.map_cons]
  · rw [h, List.forall₂_map_right_iff]
    exact List.forall₂_same.mpr fun _ _ => rfl

theorem Erased.yields_erase {d e : Value} (h : Erased T d e) : (erase limit d).Yields T e := by
  cases h with
  | list items =>
    have refills : Refills T (fun _ y => y = .unit) (.after (.frame .unit)) (.list items) _ :=
      .list (forall₂_unit_iff.mpr rfl)
    -- A list is erased by mapping, and the function that is mapped gives the unit.
    exact refills.yields_fmap fun x y hy => hy ▸ yields_unit x
  | effect slotted =>
    unfold erase
    dsimp only
    rw [if_pos slotted.effect]
    exact (yields_slotOf slotted.slot).bind (slotted.yields_replaceMember _)

/-- What has no slot of its own is erased by mapping. -/
theorem faultOr_fmap_unit (d : Value) (noEffect : ∀ c own, d = .descriptor c own → ¬ c.isEffect) :
    (fmap limit d (.frame .unit)).FaultOr T (Erased T d) := by
  have units : (fmap limit d (.frame .unit)).FaultOr T
      (Refills T (fun _ y => y = .unit) (.after (.frame .unit)) d) :=
    faultOr_fmap fun x _ => (yields_unit x).faultOr rfl
  refine units.mono fun e he => ?_
  cases he with
  | list each =>
    rw [forall₂_unit_iff.mp each]
    exact .list _
  | direct slotted _ _ _ => exact absurd slotted.effect (noEffect _ _ rfl)
  | function slotted _ _ => exact absurd slotted.effect (noEffect _ _ rfl)

/-- If an erasure comes to anything but a fault, it puts the unit into the slots. -/
theorem faultOr_erase (d : Value) : (erase limit d).FaultOr T (Erased T d) := by
  unfold erase
  split
  · rename_i c own
    split_ifs with effect
    · refine faultOr_slotOf.bind fun s slot => ?_
      refine (faultOr_replaceMember effect slot _).mono fun e he => ?_
      obtain ⟨fill, slotted, rfl⟩ := he
      exact .effect slotted
    · refine faultOr_fmap_unit _ fun c' own' h => ?_
      obtain ⟨rfl, -⟩ := Value.descriptor.inj h
      exact effect
  · rename_i noDescriptor
    exact faultOr_fmap_unit _ fun c own h => absurd h (noDescriptor c own)

/-- Erasure keeps the type of a descriptor. -/
theorem Erased.typeName {d e : Value} (h : Erased T d e) : e.typeName = d.typeName := by
  cases h <;> rfl

/-- What can be erased can be filled. -/
theorem Erased.exists_slotted {e : Value} (h : Erased T (.descriptor c own) e)
    (slot : T.slotOf c.id = .ok s) :
    ∃ fill, Slotted T c own s fill ∧ e = .descriptor c (fill .unit) := by
  cases h with
  | @effect _ _ s' fill slotted =>
    obtain rfl := slotOf_unique slotted.slot slot
    exact ⟨fill, slotted, rfl⟩

/-- The unit in a slot takes the place of whatever is there. -/
theorem Slotted.erased_fill (h : Slotted T c own s fill) (x : Value) :
    Erased T (.descriptor c (fill x)) (.descriptor c (fill .unit)) := .effect (h.refill x)

/-! ### A dialogue

Two effects for examples: `Say` goes on at once, and `Ask` with the answer. -/

namespace Dialogue

/-- An effect class with some fields, all of which are given. -/
def decl (name : String) (fields : List (String × TypeExpr)) : ClassDecl where
  name := name
  params := [("K", false)]
  parents := [⟨"Effect", some [.name "K"]⟩]
  generic := none
  fields := fields.map fun f => ⟨f.1, f.2, none, true⟩
  decorators := [.register]
  continuation := none

/-- What is known of such a class. -/
def info (id : Nat) (name : String) (fields : List (String × Annotation)) (slot : Slot) :
    ClassInfo :=
  let rest : TypeVar := ⟨"K", .family id, .single⟩
  let names := fields.map Prod.fst
  let given := names.map fun n => ⟨n, none, true, false⟩
  { name := name
    parents := [⟨0, some [.var rest]⟩]
    typeVars := [rest]
    parameters := [rest]
    lineage := [id, 0]
    search := .found rest
    annotations := fields
    attributes := []
    layout :=
      { frozen := some true
        entries := some given
        initializer := some ⟨given, true⟩
        shown := some names
        compared := some names
        guarded := some names
        hashing := some (.byFields names) }
    slot := some slot }

/-- The classes of a dialogue. -/
def table : ClassTable where
  classes := [
    ClassTable.root,
    info 1 "Say" [("message", .any), ("next", .var ⟨"K", .family 1, .single⟩)] ⟨"next", .direct⟩,
    info 2 "Ask" [("answer", .function [.any] (.var ⟨"K", .family 2, .single⟩))]
      ⟨"answer", .function 1⟩]
  shared := []
  bound := [("Ask", 2), ("Say", 1)]

example : ((ClassTable.initial []).declareAll [
    decl "Say" [("message", .name "Any"), ("next", .name "K")],
    decl "Ask" [("answer", .function [.name "Any"] (.name "K"))]]).1 = table := by cbv

def sayClass : ClassRef := ⟨1, "Say", [1, 0]⟩

def askClass : ClassRef := ⟨2, "Ask", [2, 0]⟩

/-- What says `message` holds. -/
def saying (message next : Value) : Value :=
  .descriptor sayClass [("message", message), ("next", next)]

def asking (answer : Value) : Value := .descriptor askClass [("answer", answer)]

def say (message next : Value) : Value := .tree (.suspended (saying message next))

def ask (answer : Value) : Value := .tree (.suspended (asking answer))

/-- Says the answer and finishes. -/
def echo : Value :=
  .function (.closure ["n"] (.library "Suspended" [.make "Say"
    [("message", .var "n"), ("next", .library "Done" [.scalar (.int 1)])]]) [])

theorem slotted_say (m x : Value) :
    Slotted table sayClass [("message", m), ("next", x)] ⟨"next", .direct⟩
      fun y => [("message", m), ("next", y)] :=
  ⟨rfl, rfl, fun _ => rfl⟩

theorem slotted_ask (g : Value) :
    Slotted table askClass [("answer", g)] ⟨"answer", .function 1⟩ fun y => [("answer", y)] :=
  ⟨rfl, rfl, fun _ => rfl⟩

theorem holds_say (m x : Value) :
    SlotHolds table sayClass [("message", m), ("next", x)] ⟨"next", .direct⟩ x := rfl

theorem holds_ask (g : Value) :
    SlotHolds table askClass [("answer", g)] ⟨"answer", .function 1⟩ g := rfl

theorem eq_of_atHand_saying {m x y : Value} (h : AtHand table (saying m x) y) : y = x := by
  cases h with
  | content _ slot _ holds =>
    cases slot
    exact SlotHolds.unique holds (holds_say m x)

theorem not_behind_saying {m x g : Value} {n : Nat} : ¬ Behind table (saying m x) n g := by
  rintro ⟨_, slot, kind, _⟩
  cases slot
  cases kind

theorem not_atHand_asking {g y : Value} : ¬ AtHand table (asking g) y := by
  intro h
  cases h with
  | content _ slot direct _ =>
    cases slot
    cases direct

theorem eq_of_behind_asking {g h : Value} {n : Nat} (hb : Behind table (asking g) n h) :
    n = 1 ∧ h = g := by
  cases hb with
  | slot _ slot kind holds =>
    cases slot
    cases kind
    exact ⟨rfl, SlotHolds.unique holds (holds_ask g)⟩

theorem yields_echo (n : Value) :
    (limit echo [n]).Yields table (say n (.tree (Tree.pure (.int 1)))) := by
  rintro ⟨classes, asked, log, remarks⟩ hw
  obtain rfl : classes = table := hw
  rw [echo, Machine.limit_closure]
  exact ⟨_, rfl, rfl⟩

theorem settles_echo {args : List Value} (h : args.length ≠ 1) :
    (limit echo args).Settles T (some (.error (.fault (.expression .arity)))) := by
  rw [echo, Machine.limit_closure, if_neg (by simpa using h.symm)]
  exact Act.settles_fail _

end Dialogue

/-! ### Classes that come apart

Effect classes whose instances are not what their fields say, or are so only until another class is
registered. -/

namespace Torn

/-- An effect class without type parameters of its own. -/
def decl (name : String) (parents : List String) (fields : List (String × TypeExpr))
    (decorators : List Decorator) : ClassDecl where
  name := name
  params := []
  parents := parents.map fun p => ⟨p, some [.name "K"]⟩
  generic := none
  fields := fields.map fun f => ⟨f.1, f.2, none, true⟩
  decorators := decorators
  continuation := none

def declare (decls : List ClassDecl) : ClassTable :=
  ((ClassTable.initial [⟨"K", .shared, .single⟩]).declareAll decls).1

/-- `P` inherits from `A` first, which is no record yet. -/
def mixed : ClassTable :=
  declare [decl "A" ["Effect"] [("next", .name "K")] [],
    decl "B" ["Effect"] [("y", .name "int"), ("next", .name "K")] [.register],
    decl "P" ["A", "B"] [] []]

/-- `C` is made a record twice. Its second field has a value of its own and cannot be given at first;
the second time it can, but instances are still made as they were at first. -/
def remade : ClassTable :=
  declare [{ decl "C" ["Effect"] [] [.mutableRecord, .mutableRecord, .register] with
    fields := [⟨"next", .name "K", none, true⟩, ⟨"tag", .name "int", some (.int 0), false⟩]
    continuation := some "next" }]

/-- What can be seen of a run from outside. -/
def shown (x : Except Signal Value × World) : Except Signal Value × List Value := (x.1, x.2.log)

end Torn

end EffectTrees
