import EffectTrees.Proofs.Exchange.Matched

/-!
# Descriptors side by side

How a descriptor is read, made and copied depends on the classes and on the names of its fields. What
the fields hold is passed on. So operations on descriptors whose fields are related, name by name,
give descriptors whose fields are related in the same way (`Comparison.Matched.make`,
`Comparison.Matched.replace`).

`Comparison.Slots K D B d d'` is the general case for the operations on slots: what is in the slots
is related by `D` or, if it is the function of a function slot, by `B`, and all else differs in
functions that are exchanged only. To map over such descriptors gives descriptors of this kind again
(`Comparison.Matched.fmap_of`).
-/

namespace EffectTrees

namespace Instance

variable {T : ClassTable} {c : ClassRef} {P : String → Value → Value → Prop}
  {own own' : List (String × Value)} {name : String} {new new' : Value}

/-- The members of two instances are related if their fields are, and scalars to themselves. -/
theorem memberOf?_rel (scalars : ∀ n s, P n (.scalar s) (.scalar s))
    (h : List.Forall₂ (NamedBy P) own own') (n : String) :
    Option.Rel (P n) (T.memberOf? c.id own .scalar n) (T.memberOf? c.id own' .scalar n) := by
  change Option.Rel (P n) ((Value.fieldAt? own n).or _) ((Value.fieldAt? own' n).or _)
  rcases (Value.fieldAt?_rel h n).both with ⟨hx, hx'⟩ | ⟨x, x', hx, hx', related⟩
  · rw [hx, hx', Option.none_or]
    cases T.valueAt? c.id n with
    | none => exact .none
    | some s => exact .some (scalars n s)
  · rw [hx, hx', Option.some_or, Option.some_or]
    exact .some related

theorem isNone_eq_of_rel {α β : Type} {R : α → β → Prop} {a : Option α} {b : Option β}
    (h : Option.Rel R a b) : a.isNone = b.isNone := by
  cases h <;> rfl

theorem filterMap_rel {α β γ : Type} {R : β → γ → Prop} {f : α → Option β} {g : α → Option γ}
    (h : ∀ x, Option.Rel R (f x) (g x)) (xs : List α) :
    List.Forall₂ R (xs.filterMap f) (xs.filterMap g) := by
  induction xs with
  | nil => exact .nil
  | cons x xs ih =>
    rw [List.filterMap_cons, List.filterMap_cons]
    rcases (h x).both with ⟨hy, hz⟩ | ⟨y, z, hy, hz, related⟩
    · rw [hy, hz]
      exact ih
    · rw [hy, hz]
      exact .cons related ih

/-- Which names a copy is given does not depend on what they hold. -/
theorem copyNames_eq (h : List.Forall₂ (NamedBy fun n v v' => n ≠ name → P n v v') own own')
    (scalars : ∀ n s, n ≠ name → P n (.scalar s) (.scalar s)) :
    copyNames T c own name = copyNames T c own' name := by
  have missing : (fun n => n ≠ name && (T.memberOf? c.id own .scalar n).isNone) =
      fun n => n ≠ name && (T.memberOf? c.id own' .scalar n).isNone := by
    funext n
    rw [isNone_eq_of_rel (memberOf?_rel (fun n s => scalars n s) h n)]
  unfold copyNames
  simp only [missing]

/-- **Copies of related instances** with related new values are related. What the instances had
under the changed name does not matter. -/
theorem replaced_ends (h : List.Forall₂ (NamedBy fun n v v' => n ≠ name → P n v v') own own')
    (scalars : ∀ n s, n ≠ name → P n (.scalar s) (.scalar s)) (hnew : P name new new') :
    Ends (List.Forall₂ (NamedBy P)) (replaced T c own name new) (replaced T c own' name new') := by
  have value : ∀ n, P n (copyValue T c own name new n) (copyValue T c own' name new' n) := by
    intro n
    unfold copyValue
    by_cases same : n = name
    · subst same
      simpa only [if_true] using hnew
    · simp only [if_neg same]
      have member := memberOf?_rel (T := T) (c := c) (fun n s => scalars n s) h n
      rcases member.both with ⟨hx, hx'⟩ | ⟨x, x', hx, hx', related⟩
      · rw [hx, hx']
        exact scalars n .null same
      · rw [hx, hx']
        exact related same
  unfold replaced
  rw [copyNames_eq h scalars]
  cases hn : copyNames T c own' name with
  | error f => exact .error f
  | ok names =>
    obtain ⟨fields, copied⟩ := copyNames_eq_ok_iff.mp hn
    refine .ok (filterMap_rel (fun f => ?_) _)
    by_cases mem : f.name ∈ names
    · simp only [if_pos mem]
      exact .some ⟨rfl, value f.name⟩
    · -- The changed name is among those that are given a value.
      have other : f.name ≠ name := fun same => mem (same ▸ copied.mem)
      simp only [if_neg mem, Option.none_or]
      cases f.default with
      | none => exact .none
      | some s => exact .some ⟨rfl, scalars f.name s other⟩

end Instance

namespace Comparison

variable {K : Comparison} {c : ClassRef} {P : String → Value → Value → Prop}
  {own own' : List (String × Value)} {n : String} {v v' d d' x x' : Value}

/-- Instances of one class with related fields. -/
inductive Instances (P : String → Value → Value → Prop) (c : ClassRef) : Value → Value → Prop where
  | mk {own own' : List (String × Value)} (fields : List.Forall₂ (NamedBy P) own own') :
      Instances P c (.descriptor c own) (.descriptor c own')

theorem Instances.rel (h : Instances (fun _ => K.Rel) c d d') : K.Rel d d' := by
  cases h with
  | mk fields => exact .of_shape (.descriptor c fields)

namespace Matched

/-! ### Members of values -/

protected theorem poisonMember {α β : Type} {Q : α → β → Prop} (name : String) :
    K.Matched Q (Value.poisonMember name) (Value.poisonMember name) := by
  unfold Value.poisonMember
  split
  · exact .fail _
  · exact .abort

/-- What a class has under a name, if nothing else is found. -/
theorem ofClass (c : ClassRef) (name : String) {Q : Value → Value → Prop}
    (scalars : ∀ s, Q (.scalar s) (.scalar s)) :
    K.Matched Q
      (do match (← Act.classes).valueAt? c.id name with
          | some s => pure (.scalar s)
          | none => Act.fail .missingMember)
      (do match (← Act.classes).valueAt? c.id name with
          | some s => pure (.scalar s)
          | none => Act.fail .missingMember) := by
  refine .classes ?_
  cases K.classes.valueAt? c.id name with
  | some s => exact .pure (scalars s)
  | none => exact .fail _

/-- The member of an instance. -/
theorem lookup_descriptor (h : List.Forall₂ (NamedBy P) own own')
    (scalars : ∀ n s, P n (.scalar s) (.scalar s)) (name : String) :
    K.Matched (P name) ((Value.descriptor c own).lookup name)
      ((Value.descriptor c own').lookup name) := by
  have member : ∀ fields : List (String × Value),
      (Value.descriptor c fields).member? name = Value.fieldAt? fields name := fun fields => by
    unfold Value.member?
    rfl
  unfold Value.lookup
  rw [member, member]
  rcases (Value.fieldAt?_rel h name).both with ⟨hx, hx'⟩ | ⟨x, x', hx, hx', related⟩
  · rw [hx, hx']
    exact .ofClass c name (scalars name)
  · rw [hx, hx']
    exact .pure related

protected theorem lookup (h : K.Rel v v') (name : String) :
    K.Matched K.Rel (v.lookup name) (v'.lookup name) := by
  have held := h.member?_rel name
  cases h.shape with
  | poison => exact .poisonMember name
  | descriptor c fields => exact .lookup_descriptor fields (fun _ => .scalar) name
  | cls c =>
    have none : (Value.cls c).member? name = none := by simp [Value.member?]
    unfold Value.lookup
    rw [none]
    exact .ofClass c name .scalar
  | _ =>
    unfold Value.lookup
    revert held
    generalize Value.member? _ name = a
    generalize Value.member? _ name = b
    intro held
    cases held with
    | some related => exact .pure related
    | none => exact .fail _

/-! ### Making and copying instances -/

protected theorem make (h : List.Forall₂ (NamedBy P) own own')
    (scalars : ∀ n s, P n (.scalar s) (.scalar s)) :
    K.Matched (Instances P c) (Instance.make c own) (Instance.make c own') := by
  refine .classes ?_
  have given : ∀ m, (own.any fun a => a.1 = m) = own'.any fun a => a.1 = m :=
    fun m => any_named_eq h fun n => n = m
  have known := any_named_eq h fun n => !(K.classes.givenFields c.id).any fun f => f.name = n
  dsimp only
  simp only [known, given]
  split_ifs
  · exact .fail _
  · exact .fail _
  · exact .fail _
  · refine .pure (.mk (Instance.filterMap_rel (fun f => ?_) _))
    have held := Value.fieldAt?_rel (List.forall₂_reverse_iff.mpr h) f.name
    rcases held.both with ⟨hx, hx'⟩ | ⟨x, x', hx, hx', related⟩
    · rw [hx, hx']
      cases f.default with
      | some s => exact .some ⟨rfl, scalars f.name s⟩
      | none => exact .none
    · rw [hx, hx']
      exact .some ⟨rfl, related⟩

theorem zip_named {C : Value → Value → Prop} (names : List String) {vs vs' : List Value}
    (h : List.Forall₂ C vs vs') : List.Forall₂ (Named C) (names.zip vs) (names.zip vs') := by
  induction h generalizing names with
  | nil =>
    cases names <;> exact .nil
  | cons head _ ih =>
    cases names with
    | nil => exact .nil
    | cons name names => exact .cons ⟨rfl, head⟩ (ih names)

protected theorem makeInOrder {vs vs' : List Value} (h : List.Forall₂ K.Rel vs vs') :
    K.Matched K.Rel (Instance.makeInOrder c vs) (Instance.makeInOrder c vs') := by
  refine .classes ?_
  rw [h.length_eq]
  dsimp only
  split
  · exact (Matched.make (zip_named _ h) fun _ => .scalar).imp fun _ _ => Instances.rel
  · exact .fail _

/-- **Copies of related instances** with one member changed. -/
protected theorem replace (h : List.Forall₂ (NamedBy fun m v v' => m ≠ n → P m v v') own own')
    (scalars : ∀ m s, m ≠ n → P m (.scalar s) (.scalar s)) (hx : P n x x') :
    K.Matched (fun d d' => Instances P c d d' ∧ ∃ copy copy', d = .descriptor c copy ∧
        d' = .descriptor c copy' ∧ Value.fieldAt? copy n = some x ∧ Value.fieldAt? copy' n = some x')
      (Instance.replace c own n x) (Instance.replace c own' n x') := by
  intro w w' alike r w₁ hr
  have ends := Instance.replaced_ends (T := K.classes) (c := c) h scalars hx
  rw [Instance.runIn_replace, alike.left] at hr
  rw [Instance.runIn_replace, alike.right]
  cases left : Instance.replaced K.classes c own n x with
  | error f =>
    cases right : Instance.replaced K.classes c own' n x' with
    | error g =>
      rw [left, right] at ends
      cases ends
      obtain ⟨rfl, rfl⟩ := by simpa [left] using hr
      exact ⟨_, _, rfl, alike, .error _⟩
    | ok copy' =>
      rw [left, right] at ends
      cases ends
  | ok copy =>
    cases right : Instance.replaced K.classes c own' n x' with
    | error g =>
      rw [left, right] at ends
      cases ends
    | ok copy' =>
      rw [left, right] at ends
      cases ends with
      | ok fields =>
        obtain ⟨rfl, rfl⟩ := by simpa [left] using hr
        exact ⟨_, _, rfl, alike, .ok ⟨.mk fields, copy, copy', rfl, rfl,
          Instance.fieldAt?_copy_self left, Instance.fieldAt?_copy_self right⟩⟩

end Matched

/-! ### What is in the slots -/

/-- The relation for what is held in a slot: the content of a direct slot, or the function of a
function slot. -/
def AtSlot (s : Slot) (D B : Value → Value → Prop) : Value → Value → Prop :=
  match s.kind with
  | .direct => D
  | .function _ => B

/-- **Descriptors that differ in their slots.** Contents at hand are related by `D`, the functions of
function slots by `B`, and all else differs in functions that are exchanged only. -/
inductive Slots (K : Comparison) (D B : Value → Value → Prop) : Value → Value → Prop where
  | list {items items' : List Value} (each : List.Forall₂ D items items') :
      Slots K D B (.list items) (.list items')
  | slotted {c : ClassRef} {own own' : List (String × Value)} {s : Slot}
      (slot : K.classes.slotOf c.id = .ok s)
      (fields : List.Forall₂ (NamedBy fun n v v' => n ≠ s.name → K.Rel v v') own own')
      (content : Option.Rel (AtSlot s D B) (K.classes.memberOf? c.id own .scalar s.name)
        (K.classes.memberOf? c.id own' .scalar s.name)) :
      Slots K D B (.descriptor c own) (.descriptor c own')
  | other {d d' : Value} (related : K.Rel d d') (notList : ∀ items, d ≠ .list items)
      (noSlot : ∀ c own, d = .descriptor c own → ∃ f, K.classes.slotOf c.id = .error f) :
      Slots K D B d d'

/-- Descriptors whose slots have been filled: if the contents differ in functions only, so do the
descriptors. -/
structure Filled (K : Comparison) (D B : Value → Value → Prop) (d d' : Value) : Prop where
  slots : K.Slots D B d d'
  rel : (∀ x x', D x x' → K.Rel x x') → (∀ g g', B g g' → K.Rel g g') → K.Rel d d'

section

variable {D B E F : Value → Value → Prop} {s : Slot}

theorem AtSlot.imp (hD : ∀ x x', D x x' → E x x') (hB : ∀ g g', B g g' → F g g')
    (h : AtSlot s D B x x') : AtSlot s E F x x' := by
  unfold AtSlot at h ⊢
  cases hk : s.kind with
  | direct =>
    rw [hk] at h
    exact hD _ _ h
  | function n =>
    rw [hk] at h
    exact hB _ _ h

theorem Slots.mono (hD : ∀ x x', D x x' → E x x') (hB : ∀ g g', B g g' → F g g')
    (h : K.Slots D B d d') : K.Slots E F d d' := by
  cases h with
  | list each => exact .list (each.imp hD)
  | slotted slot fields content =>
    exact .slotted slot fields (content.imp fun _ _ => AtSlot.imp hD hB)
  | other related notList noSlot => exact .other related notList noSlot

/-- Descriptors that differ in functions differ in functions in their slots. -/
theorem slots_of_rel (h : K.Rel d d') : K.Slots K.Rel K.Rel d d' := by
  cases h.shape with
  | list items => exact .list items
  | descriptor c fields =>
    cases slot : K.classes.slotOf c.id with
    | error f =>
      refine .other h (fun _ => by simp) fun c' own same => ?_
      obtain ⟨rfl, -⟩ := Value.descriptor.inj same
      exact ⟨f, slot⟩
    | ok s =>
      refine .slotted slot (fields.imp fun _ _ => NamedBy.imp fun _ _ _ h _ => h) ?_
      refine (Instance.memberOf?_rel (fun _ => .scalar) fields s.name).imp fun x x' related => ?_
      unfold AtSlot
      cases s.kind <;> exact related
  | _ => exact .other h (fun _ => by simp) fun _ _ => by simp

namespace Matched

theorem lookup_of_member {Q : Value → Value → Prop}
    (h : Option.Rel Q (K.classes.memberOf? c.id own .scalar n)
      (K.classes.memberOf? c.id own' .scalar n)) :
    K.Matched Q ((Value.descriptor c own).lookup n) ((Value.descriptor c own').lookup n) := by
  intro w w' alike r w₁ hr
  rw [runIn_lookup, alike.left] at hr
  rw [runIn_lookup, alike.right]
  rcases h.both with ⟨hx, hx'⟩ | ⟨x, x', hx, hx', related⟩
  · rw [hx] at hr
    rw [hx']
    obtain ⟨rfl, rfl⟩ := by simpa using hr
    exact ⟨_, _, rfl, alike, .error _⟩
  · rw [hx] at hr
    rw [hx']
    obtain ⟨rfl, rfl⟩ := by simpa using hr
    exact ⟨_, _, rfl, alike, .ok related⟩

/-- The slot of a descriptor is filled. -/
theorem fill {y y' : Value} (slot : K.classes.slotOf c.id = .ok s)
    (fields : List.Forall₂ (NamedBy fun n v v' => n ≠ s.name → K.Rel v v') own own')
    (content : AtSlot s E F y y') :
    K.Matched (K.Filled E F) ((Value.descriptor c own).replaceMember s.name y)
      ((Value.descriptor c own').replaceMember s.name y') := by
  -- Copies are compared field by field, by what the name of the field asks for.
  let P : String → Value → Value → Prop := fun n v v' =>
    if n = s.name then AtSlot s E F v v' else K.Rel v v'
  have off : List.Forall₂ (NamedBy fun n v v' => n ≠ s.name → P n v v') own own' :=
    fields.imp fun a b => NamedBy.imp fun n v v' related other => by
      simpa only [P, if_neg other] using related other
  have scalars : ∀ m t, m ≠ s.name → P m (.scalar t) (.scalar t) := fun m t other => by
    simpa only [P, if_neg other] using Exchange.Rel.scalar t
  have at_slot : P s.name y y' := by simpa only [P, if_true] using content
  rw [replaceMember_descriptor, replaceMember_descriptor]
  refine (Matched.replace off scalars at_slot).imp ?_
  rintro _ _ ⟨⟨copied⟩, copy, copy', left, right, held, held'⟩
  obtain ⟨-, rfl⟩ := by simpa using left
  obtain ⟨-, rfl⟩ := by simpa using right
  have member : ∀ {copy : List (String × Value)} {y : Value},
      Value.fieldAt? copy s.name = some y →
        K.classes.memberOf? c.id copy .scalar s.name = some y := fun found => by
    change (Value.fieldAt? _ s.name).or _ = _
    rw [found, Option.some_or]
  refine ⟨.slotted slot (copied.imp fun a b => NamedBy.imp fun n v v' h other => ?_) ?_,
    fun hE hF => .of_shape (.descriptor c (copied.imp fun a b => NamedBy.imp fun n v v' h => ?_))⟩
  · simpa only [P, if_neg other] using h
  · rw [member held, member held']
    exact .some content
  · by_cases same : n = s.name
    · rw [show P n v v' ↔ AtSlot s E F v v' by simp only [P, if_pos same]] at h
      have related := AtSlot.imp hE hF h
      unfold AtSlot at related
      cases hk : s.kind <;> rw [hk] at related <;> exact related
    · simpa only [P, if_neg same] using h

variable {call call' : Caller} {f f' : Value}

/-- A copy that fills the slot is a refill. -/
theorem refilled_of_replaceMember (effect : c.isEffect) (slot : K.classes.slotOf c.id = .ok s)
    (held : SlotHolds K.classes c own s x) {y e : Value} {w w' : World} (hw : w.classes = K.classes)
    (run : ((Value.descriptor c own).replaceMember s.name y).runIn w = some (.ok e, w')) :
    Refilled K.classes (.descriptor c own) e := by
  rw [replaceMember_descriptor, Instance.runIn_replace, hw] at run
  cases copied : Instance.replaced K.classes c own s.name y with
  | error f => simp [copied] at run
  | ok copy =>
    obtain ⟨rfl, -⟩ := by simpa [copied] using run
    obtain ⟨fill, rfl, fills⟩ := Instance.exists_fill copied
    have slotted : Slotted K.classes c own s fill := ⟨effect, slot, fills⟩
    cases kind : s.kind with
    | direct => exact ⟨id, .direct slotted kind held trivial⟩
    | function n => exact ⟨fun _ => y, .function slotted kind held⟩

/-- **To map over descriptors** that differ in their slots, given how the contents are changed. The
slots have been filled anew. -/
theorem fmap_refilled (h : K.Slots D B d d')
    (content : ∀ x x', D x x' → K.Matched E (call f [x]) (call' f' [x']))
    (behind : ∀ g g', B g g' → F (.function (.after f g)) (.function (.after f' g'))) :
    K.Matched (fun e e' => K.Filled E F e e' ∧ Refilled K.classes d e ∧ Refilled K.classes d' e')
      (fmap call d f) (fmap call' d' f') := by
  cases h with
  | list each =>
    have mapped := (Matched.mapM each content).and_left fun _ _ _ _ => Act.length_of_mapM
    refine (mapped.and_right fun _ _ _ _ => Act.length_of_mapM).bind ?_
    rintro ys ys' ⟨⟨length, filled⟩, length'⟩
    exact .pure ⟨⟨.list filled, fun hE _ => .list (filled.imp hE)⟩, .list length, .list length'⟩
  -- The slot is asked for again, which gives the slot that the descriptors are compared by.
  | @slotted c own own' s slot fields held =>
    unfold fmap Slot.map
    dsimp only
    split
    · next effect =>
      refine (Matched.slotOf c).bind ?_
      rintro s' _ ⟨rfl, slot'⟩
      obtain rfl := slotOf_unique slot slot'
      -- To know that the copies are refills, one needs to know what the slots held.
      have kept : Option.Rel (fun x x' => AtSlot s D B x x' ∧ SlotHolds K.classes c own s x ∧
          SlotHolds K.classes c own' s x') (K.classes.memberOf? c.id own .scalar s.name)
          (K.classes.memberOf? c.id own' .scalar s.name) := by
        rcases held.both with ⟨hx, hx'⟩ | ⟨x, x', hx, hx', related⟩
        · rw [hx, hx']
          exact .none
        · rw [hx, hx']
          exact .some ⟨related, hx, hx'⟩
      refine (lookup_of_member kept).bind ?_
      rintro x x' ⟨related, holds, holds'⟩
      have copy : ∀ {y y' : Value}, AtSlot s E F y y' →
          K.Matched (fun e e' => K.Filled E F e e' ∧
              Refilled K.classes (.descriptor c own) e ∧ Refilled K.classes (.descriptor c own') e')
            ((Value.descriptor c own).replaceMember s.name y)
            ((Value.descriptor c own').replaceMember s.name y') := by
        intro y y' filled
        have made := (Matched.fill slot fields filled).and_left fun _ _ _ hw =>
          refilled_of_replaceMember effect slot holds hw
        refine (made.and_right fun _ _ _ hw =>
          refilled_of_replaceMember effect slot holds' hw).imp ?_
        exact fun e e' done => ⟨done.1.2, done.1.1, done.2⟩
      unfold AtSlot at related copy
      cases hk : s.kind with
      | direct =>
        rw [hk] at related copy
        exact (content _ _ related).bind fun y y' filled => copy filled
      | function n =>
        rw [hk] at related copy
        exact copy (behind _ _ related)
    · exact .fail _
  | other related notList noSlot =>
    cases related.shape with
    | list items => exact absurd rfl (notList _)
    | descriptor c fields =>
      unfold fmap
      dsimp only
      cases effect : c.isEffect with
      | false => exact .fail _
      | true =>
        -- Both ask for the slot, and fail in the same way since there is none.
        obtain ⟨f, noSlot⟩ := noSlot c _ rfl
        refine (Matched.slotOf c).bind ?_
        rintro s _ ⟨rfl, slot⟩
        simp [noSlot] at slot
    | _ =>
      unfold fmap
      rw [related.typeName_eq]
      exact .fail _

theorem fmap_of (h : K.Slots D B d d')
    (content : ∀ x x', D x x' → K.Matched E (call f [x]) (call' f' [x']))
    (behind : ∀ g g', B g g' → F (.function (.after f g)) (.function (.after f' g'))) :
    K.Matched (K.Filled E F) (fmap call d f) (fmap call' d' f') :=
  (fmap_refilled h content behind).imp fun _ _ filled => filled.1

/-- To erase what is in the slots leaves no difference but in functions. -/
theorem erase_of (h : K.Slots D B d d')
    (units : ∀ x x', D x x' → K.Matched K.Rel (call (.frame .unit) [x]) (call' (.frame .unit) [x'])) :
    K.Matched K.Rel (erase call d) (erase call' d') := by
  -- The unit is put in the slot, whatever has been there.
  have unit : K.Rel .unit .unit := .tuple .nil
  cases h with
  | list each =>
    exact (Matched.mapM each units).bind fun ys ys' filled => .pure (.list filled)
  | @slotted c own own' s slot fields held =>
    unfold erase
    dsimp only
    split
    · refine (Matched.slotOf c).bind ?_
      rintro s' _ ⟨rfl, slot'⟩
      obtain rfl := slotOf_unique slot slot'
      refine (Matched.fill (E := K.Rel) (F := K.Rel) slot fields ?_).imp fun e e' filled =>
        filled.rel (fun _ _ => id) fun _ _ => id
      unfold AtSlot
      cases s.kind <;> exact unit
    · next plain =>
      unfold EffectTrees.fmap
      dsimp only
      rw [if_neg plain, if_neg plain]
      exact .fail _
  | other related notList noSlot =>
    -- Such values hold no contents, so no relation between contents is needed.
    have mapped : K.Matched K.Rel (EffectTrees.fmap call d (.frame .unit))
        (EffectTrees.fmap call' d' (.frame .unit)) :=
      (fmap_of (E := K.Rel) (F := K.Rel) (B := fun _ _ => False) (D := fun _ _ => False)
        (.other related notList noSlot) (fun _ _ => False.elim) fun _ _ => False.elim).imp
          fun e e' filled => filled.rel (fun _ _ => id) fun _ _ => id
    cases related.shape with
    | list items => exact absurd rfl (notList _)
    | descriptor c fields =>
      unfold erase
      dsimp only
      cases effect : c.isEffect with
      | false => exact mapped
      | true =>
        obtain ⟨f, noSlot⟩ := noSlot c _ rfl
        refine (Matched.slotOf c).bind ?_
        rintro s _ ⟨rfl, slot⟩
        simp [noSlot] at slot
    | _ => exact mapped

/-- To follow a descriptor that belongs to a family leads to what is in its slot. -/
theorem locate_of {Q : Value → Value → Prop} (family : ClassRef) (h : K.Slots D B d d')
    (content : ∀ x x', D x x' → Q x x')
    (behind : ∀ n g g', B g g' →
      K.Matched Q (call g (List.replicate n .poison)) (call' g' (List.replicate n .poison))) :
    K.Matched Q (locate call family d) (locate call' family d') := by
  cases h with
  | list each => exact .fail _
  | @slotted c own own' s slot fields held =>
    unfold locate
    dsimp only
    split
    · refine (Matched.slotOf c).bind ?_
      rintro s' _ ⟨rfl, slot'⟩
      obtain rfl := slotOf_unique slot slot'
      unfold Slot.follow
      refine (lookup_of_member held).bind fun x x' related => ?_
      unfold AtSlot at related
      cases hk : s.kind with
      | direct =>
        rw [hk] at related
        exact .pure (content _ _ related)
      | function n =>
        rw [hk] at related
        exact behind n _ _ related
    · exact .fail _
  | other related notList noSlot =>
    cases related.shape with
    | list items => exact absurd rfl (notList _)
    | descriptor c fields =>
      unfold locate
      dsimp only
      split
      · obtain ⟨f, noSlot⟩ := noSlot c _ rfl
        refine (Matched.slotOf c).bind ?_
        rintro s _ ⟨rfl, slot⟩
        simp [noSlot] at slot
      · exact .fail _
    | _ =>
      unfold locate
      rw [related.typeName_eq]
      exact .fail _

end Matched

end

end Comparison

end EffectTrees
