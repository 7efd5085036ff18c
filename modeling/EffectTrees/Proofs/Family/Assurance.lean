import EffectTrees.Proofs.Analysis.Reach
import EffectTrees.Proofs.Family.Members
import EffectTrees.Proofs.Family.Registration
import EffectTrees.Proofs.Value.Text

/-!
# A validated family stays valid

A locator is derived for a family only if every constructor of the family has a slot
(`succeeds_deriveLocator_iff`). The derivation asks each constructor for its slot, and a slot that has
been asked for once is assured (`World.Assured`): it is looked up from then on, or it has been
written down, and no event takes it away (`World.Assured.step`). So after a locator has been derived,
no later use of effects, whether it succeeds or fails, makes the derivation of a slot of the family
fail.

What can still raise a derivation error is what the program itself raises: a function in a slot, or the
content of a payload. `validated_family` says so of the locator, of erasure and of analyses with the
locator: a derivation error is never on account of an instance of a constructor of the family
(`Unaffected`).
-/

namespace EffectTrees

open Machine (limit)
open World (Event Step History)

/-! ### Later worlds -/

/-- The computation gives a value. -/
def Act.Succeeds {α : Type} (a : Act α) (w : World) : Prop :=
  ∃ v w', a.runIn w = some (.ok v, w')

namespace World

/-- **A use of effects**, and the world after it, however the use ends. -/
inductive Use : World → World → Prop where
  | slotOf {c : ClassRef} {w w' : World} {r : Except Signal Slot}
      (run : (Act.slotOf c).runIn w = some (r, w')) : Use w w'
  | fmap {d f : Value} {w w' : World} {r : Except Signal Value}
      (run : (EffectTrees.fmap limit d f).runIn w = some (r, w')) : Use w w'
  | erase {d : Value} {w w' : World} {r : Except Signal Value}
      (run : (EffectTrees.erase limit d).runIn w = some (r, w')) : Use w w'
  | deriveLocator {c : ClassRef} {w w' : World} {r : Except Signal Value}
      (run : (EffectTrees.deriveLocator c).runIn w = some (r, w')) : Use w w'
  | register (w : World) (id : Nat) (declared : Option String) :
      Use w (w.register id declared).1
  /-- Any other call of a function. -/
  | call {f : Value} {args : List Value} {w w' : World} {r : Except Signal Value}
      (run : (limit f args).runIn w = some (r, w')) : Use w w'

/-- The second world comes about from the first one by uses of effects. -/
def Later : World → World → Prop := Relation.ReflTransGen Use

variable {w w' : World}

theorem Use.history (h : Use w w') : ∃ es, History w es w' := by
  cases h with
  | slotOf run | fmap run | erase run | deriveLocator run | call run =>
    exact Act.Traceable.history run
  | register _ k declared => exact ⟨_, (Step.register w k declared).history⟩

theorem Later.history (h : Later w w') : ∃ es, History w es w' := by
  induction h with
  | refl => exact ⟨[], .nil w⟩
  | tail _ use ih =>
    obtain ⟨es, before⟩ := ih
    obtain ⟨es', last⟩ := use.history
    exact ⟨es ++ es', before.append last⟩

/-! ### Assured slots -/

/-- **The slot of a class is assured**: it has been written down, or the class has been asked for
it. -/
inductive Assured (w : World) (k : Nat) : Prop where
  | kept {s : Slot} (kept : w.classes.keptSlot k = some s)
  | asked {s : Slot} (asked : w.asked k = true) (found : w.classes.slotOf k = .ok s)

variable {k : Nat}

theorem Assured.exists_slot (h : w.Assured k) : ∃ s, w.classes.slotOf k = .ok s := by
  cases h with
  | kept kept => exact ⟨_, ClassTable.slotOf_of_kept kept⟩
  | asked _ found => exact ⟨_, found⟩

/-- An assured slot is written down before a class is registered. -/
theorem Assured.isSome_settle (h : w.Assured k) :
    ((w.classes.settle w.asked).keptSlot k).isSome := by
  obtain ⟨s, found⟩ := h.exists_slot
  rw [ClassTable.keptSlot_settle, found]
  cases h with
  | kept kept => split <;> simp [Except.toOption, kept]
  | asked asked _ => simp [asked, Except.toOption]

/-- **No event takes an assured slot away.** -/
theorem Assured.step {e : Event} (h : w.Assured k) (step : Step w e w') : w'.Assured k := by
  cases step with
  | ask _ =>
    cases h with
    | kept kept => exact .kept kept
    | asked asked found => exact .asked (by simp [Consultations.add_apply, asked]) found
  | register id declared =>
    have registers := (w.classes.settle w.asked).registers id declared
    obtain ⟨s, kept⟩ := Option.isSome_iff_exists.mp (registers.isSome_keptSlot h.isSome_settle)
    exact .kept kept
  | note classes asked =>
    cases h with
    | kept kept => exact .kept (classes ▸ kept)
    | asked wasAsked found => exact .asked (asked ▸ wasAsked) (classes ▸ found)

theorem Assured.history {es : List Event} (h : w.Assured k) (history : History w es w') :
    w'.Assured k :=
  history.invariant (P := fun w => w.Assured k) h fun _ _ _ _ step before => before.step step

end World

/-! ### Deriving a locator -/

theorem succeeds_slotOf_iff {c : ClassRef} {w : World} :
    (Act.slotOf c).Succeeds w ↔ ∃ s, w.classes.slotOf c.id = .ok s := by
  unfold Act.Succeeds
  rw [runIn_slotOf]
  cases w.classes.slotOf c.id <;> simp

/-- Asks each of several classes for its slot. -/
def askAll (t : ClassTable) (ks : List Nat) : Act PUnit :=
  ks.forM fun k => discard (Act.slotOf (t.ref k))

theorem runIn_askAll_cons (t : ClassTable) (k : Nat) (ks : List Nat) (w : World) :
    (askAll t (k :: ks)).runIn w =
      match w.classes.slotOf k with
      | .error f => some (.error (.fault (.ofRegistration (.ofSlot (t.ref k).name f))), w)
      | .ok _ => (askAll t ks).runIn { w with asked := w.asked.add k } := by
  change ((Act.slotOf (t.ref k) >>= fun _ => pure ()) >>= fun _ => askAll t ks).runIn w = _
  rw [Act.runIn_bind, Act.runIn_bind, runIn_slotOf, show (t.ref k).id = k from rfl]
  cases w.classes.slotOf k <;> rfl

/-- Asking several classes succeeds if all of them have a slot. -/
theorem exists_runIn_askAll (t : ClassTable) (ks : List Nat) (w : World)
    (found : ∀ k ∈ ks, ∃ s, w.classes.slotOf k = .ok s) :
    ∃ w', (askAll t ks).runIn w = some (.ok (), w') := by
  induction ks generalizing w with
  | nil => exact ⟨w, rfl⟩
  | cons k ks ih =>
    obtain ⟨⟨s, first⟩, rest⟩ := List.forall_mem_cons.mp found
    rw [runIn_askAll_cons, first]
    exact ih _ rest

/-- If it succeeds, all of them have a slot, which is assured from then on. -/
theorem assured_of_askAll {t : ClassTable} {ks : List Nat} {w w' : World}
    (h : (askAll t ks).runIn w = some (.ok (), w')) :
    ∀ k ∈ ks, (∃ s, w.classes.slotOf k = .ok s) ∧ w'.Assured k := by
  induction ks generalizing w with
  | nil => exact fun k mem => by cases mem
  | cons k ks ih =>
    rw [runIn_askAll_cons] at h
    cases found : w.classes.slotOf k with
    | error f => simp [found] at h
    | ok s =>
      rw [found] at h
      dsimp only at h
      have rest := ih h
      refine List.forall_mem_cons.mpr ⟨⟨⟨s, found⟩, ?_⟩, rest⟩
      have asked : World.Assured { w with asked := w.asked.add k } k :=
        .asked (by simp [Consultations.add_apply]) found
      have traced : (askAll t ks).Traceable := .forM ks
      obtain ⟨es, history⟩ := traced.history h
      exact asked.history history

/-- To derive a locator is to ask all constructors for their slots, if there are any. -/
theorem runIn_deriveLocator {c : ClassRef} (effect : c.isEffect = true) (w : World) :
    (deriveLocator c).runIn w =
      if w.classes.constructorsOf c.id = [] then
        some (.error (.fault (.derivation ⟨c.name, .noConstructors⟩)), w)
      else (askAll w.classes (w.classes.constructorsOf c.id) >>= fun _ =>
        (pure (.locator c) : Act Value)).runIn w := by
  unfold deriveLocator
  simp only [effect, Bool.not_true, Bool.false_eq_true, if_false]
  rw [Act.runIn_bind, Act.runIn_classes]
  dsimp only
  cases w.classes.constructorsOf c.id <;> rfl

/-- A locator that is derived is that of the family, and it assures the slots of the constructors. -/
theorem assured_of_deriveLocator {c : ClassRef} (effect : c.isEffect = true) {w w' : World}
    {locator : Value} (h : (deriveLocator c).runIn w = some (.ok locator, w')) :
    locator = .locator c ∧ w.classes.constructorsOf c.id ≠ [] ∧
      ∀ k ∈ w.classes.constructorsOf c.id,
        (∃ s, w.classes.slotOf k = .ok s) ∧ w'.Assured k := by
  rw [runIn_deriveLocator effect] at h
  by_cases none : w.classes.constructorsOf c.id = []
  · simp [none] at h
  rw [if_neg none, Act.runIn_bind] at h
  match asked : (askAll w.classes (w.classes.constructorsOf c.id)).runIn w with
  | .none => simp [asked] at h
  | some (.error s, w₁) => simp [asked] at h
  | some (.ok (), w₁) =>
    obtain ⟨rfl, rfl⟩ : .locator c = locator ∧ w₁ = w' := by simpa [asked] using h
    exact ⟨rfl, none, assured_of_askAll asked⟩

/-- **A locator is derived exactly if** there are constructors, and all of them have a slot. -/
theorem succeeds_deriveLocator_iff {c : ClassRef} (effect : c.isEffect = true) {w : World} :
    (deriveLocator c).Succeeds w ↔ w.classes.constructorsOf c.id ≠ [] ∧
      ∀ k ∈ w.classes.constructorsOf c.id, (Act.slotOf (w.classes.ref k)).Succeeds w := by
  simp only [succeeds_slotOf_iff]
  constructor
  · rintro ⟨locator, w', derived⟩
    obtain ⟨-, some, assured⟩ := assured_of_deriveLocator effect derived
    exact ⟨some, fun k mem => (assured k mem).1⟩
  · rintro ⟨some, found⟩
    obtain ⟨w', asked⟩ := exists_runIn_askAll w.classes _ w found
    refine ⟨.locator c, w', ?_⟩
    rw [runIn_deriveLocator effect, if_neg some, Act.runIn_bind, asked]
    rfl

/-! ### What raises a derivation error -/

/-- The computation ends with this derivation error. -/
def Act.Raises {α : Type} (a : Act α) (w : World) (e : DerivationError) (w' : World) : Prop :=
  a.runIn w = some (.error (.fault (.derivation e)), w')

/-- The function in a function slot of the descriptor raises the error when it is called with the
unknown argument. -/
def SlotRaises (w : World) (c : ClassRef) (own : List (String × Value)) (e : DerivationError)
    (w' : World) : Prop :=
  ∃ s n g, w.classes.slotOf c.id = .ok s ∧ s.kind = .function n ∧ SlotHolds w.classes c own s g ∧
    (limit g (List.replicate n .poison)).Raises { w with asked := w.asked.add c.id } e w'

variable {w w' : World} {c : ClassRef} {own : List (String × Value)} {e : DerivationError}

/-- A copy that cannot be made is not a matter of derivation. -/
theorem replaced_ne_derivation (t : ClassTable) (c : ClassRef) (own : List (String × Value))
    (name : String) (new : Value) (e : DerivationError) :
    Instance.replaced t c own name new ≠ .error (.derivation e) := by
  unfold Instance.replaced Instance.copyNames Instance.accepts
  cases t.fields? c.id with
  | none => simp [Except.map]
  | some fields =>
    dsimp only
    split_ifs <;> simp [Except.map]

/-- Erasing an instance of a class with a slot raises no derivation error. -/
theorem not_raises_erase {s : Slot} (found : w.classes.slotOf c.id = .ok s) :
    ¬ (erase limit (.descriptor c own)).Raises w e w' := by
  unfold Act.Raises erase
  dsimp only
  split_ifs
  -- With the slot at hand, all that may fail is the copy.
  · rw [Act.runIn_bind, runIn_slotOf, found]
    dsimp only
    rw [replaceMember_descriptor, Instance.runIn_replace]
    cases copy : Instance.replaced w.classes c own s.name .unit with
    | ok fields => simp
    | error f =>
      intro raised
      obtain ⟨rfl, -⟩ : f = .derivation e ∧ _ := by simpa using raised
      exact replaced_ne_derivation _ _ _ _ _ e copy
  · unfold fmap
    simp_all

/-- If the slot of an instance of such a class is followed to a derivation error, the function in the
slot raised it. -/
theorem slotRaises_of_locate {family : ClassRef} {s : Slot}
    (found : w.classes.slotOf c.id = .ok s)
    (raised : (locate limit family (.descriptor c own)).Raises w e w') :
    SlotRaises w c own e w' := by
  unfold Act.Raises locate at raised
  dsimp only at raised
  split_ifs at raised
  · rw [Act.runIn_bind, runIn_slotOf, found] at raised
    dsimp only at raised
    unfold Slot.follow at raised
    rw [Act.runIn_bind, runIn_lookup] at raised
    dsimp only at raised
    -- A missing member is another fault, and a direct slot raises none.
    cases held : w.classes.memberOf? c.id own .scalar s.name with
    | none => simp [held] at raised
    | some g =>
      rw [held] at raised
      cases kind : s.kind with
      | direct => simp [kind] at raised
      | function n =>
        rw [kind] at raised
        exact ⟨s, n, g, found, kind, held, raised⟩
  · simp at raised

/-- **On what account** an analysis raises a derivation error at a tree, if not on account of an
instance of one of the classes: the content of a payload raises it, or the tree is suspended on
something else, or the function in a slot raises it after the slot has been erased in the record of
the effect. -/
inductive OtherAccount (members : List Nat) (w : World) (e : DerivationError) (w' : World) :
    Value → Prop where
  | payload {p : Payload} (raised : (p.force limit).Raises w e w') :
      OtherAccount members w e w' (.tree (.done p))
  | stranger {d : Value} (other : ∀ c own, d = .descriptor c own → c.id ∉ members) :
      OtherAccount members w e w' (.tree (.suspended d))
  | slot {c : ClassRef} {own : List (String × Value)} {erased : Value} {w₁ : World}
      (erases : (erase limit (.descriptor c own)).runIn w = some (.ok erased, w₁))
      (raised : SlotRaises w₁ c own e w') :
      OtherAccount members w e w' (.tree (.suspended (.descriptor c own)))

/-- **The classes are out of the question** in a world: they have slots, and neither erasure, nor the
locator, nor an analysis with the locator raises a derivation error on account of an instance. -/
structure Unaffected (members : List Nat) (locator : Value) (w : World) : Prop where
  slot : ∀ c : ClassRef, c.id ∈ members → (Act.slotOf c).Succeeds w
  erase : ∀ (c : ClassRef) (own : List (String × Value)), c.id ∈ members → ∀ e w',
    ¬ (EffectTrees.erase limit (.descriptor c own)).Raises w e w'
  locate : ∀ (c : ClassRef) (own : List (String × Value)), c.id ∈ members → ∀ e w',
    (limit locator [.descriptor c own]).Raises w e w' → SlotRaises w c own e w'
  analyze : ∀ t e w', (Analysis.analyze limit locator t).Raises w e w' →
    ∃ w₁ node, Analysis.Reaches locator w t w₁ node ∧ OtherAccount members w₁ e w' node

/-- Where something is wrong, it is not on account of an instance of a class whose slot is assured. -/
theorem otherAccount_of_failsAt {members : List Nat} {family : ClassRef} {node : Value}
    (assured : ∀ k ∈ members, w.Assured k)
    (fails : Analysis.FailsAt (.locator family) w node (.derivation e) w') :
    OtherAccount members w e w' node := by
  cases fails with
  | payload forced => exact .payload forced
  | @erase d _ _ _ erased =>
    refine .stranger fun c own same mem => ?_
    subst same
    obtain ⟨s, found⟩ := (assured c.id mem).exists_slot
    exact not_raises_erase found erased
  | @step d e' _ w₁ _ _ erased stepped =>
    by_cases instance? : ∃ c own, d = .descriptor c own ∧ c.id ∈ members
    · obtain ⟨c, own, rfl, mem⟩ := instance?
      -- The descriptor was erased first, which does not take the slot away.
      obtain ⟨es, history⟩ := Act.Traceable.history erased
      obtain ⟨s, found⟩ := ((assured c.id mem).history history).exists_slot
      rw [Machine.limit_locator] at stepped
      exact .slot erased (slotRaises_of_locate found stepped)
    · exact .stranger fun c own same mem => instance? ⟨c, own, same, mem⟩
  | noText other written => simpa using Value.fault_of_write _ _ written

theorem unaffected_of_assured {members : List Nat} (assured : ∀ k ∈ members, w.Assured k)
    (family : ClassRef) : Unaffected members (.locator family) w where
  slot c mem := succeeds_slotOf_iff.mpr (assured c.id mem).exists_slot
  erase c own mem e w' := by
    obtain ⟨s, found⟩ := (assured c.id mem).exists_slot
    exact not_raises_erase found
  locate c own mem e w' raised := by
    obtain ⟨s, found⟩ := (assured c.id mem).exists_slot
    rw [Machine.limit_locator] at raised
    exact slotRaises_of_locate found raised
  analyze t e w' raised := by
    obtain ⟨w₁, node, reached, fails⟩ := Analysis.runIn_analyze_fault_iff.mp raised
    obtain ⟨es, history⟩ := reached.history
    exact ⟨w₁, node, reached,
      otherAccount_of_failsAt (fun k mem => (assured k mem).history history) fails⟩

/-! ### The family -/

/-- **A validated family never fails derivation later.** The constructors of the family of an effect
class are listed once each: they are the records that descend from the class. A locator is derived if
and only if there are constructors and each of them has a slot. After that, in every later world,
there is no derivation error on account of an instance of one of the constructors. -/
theorem validated_family {w : World} {c : ClassRef} (known : (w.classes.info? c.id).isSome)
    (effect : c.isEffect = true) :
    (w.classes.constructorsOf c.id).Nodup ∧
    (∀ k, k ∈ w.classes.constructorsOf c.id ↔
      w.classes.Descends c.id k ∧ w.classes.isRecord k = true) ∧
    ((deriveLocator c).Succeeds w ↔ w.classes.constructorsOf c.id ≠ [] ∧
      ∀ k ∈ w.classes.constructorsOf c.id, (Act.slotOf (w.classes.ref k)).Succeeds w) ∧
    ∀ locator w', (deriveLocator c).runIn w = some (.ok locator, w') → ∀ w'', w'.Later w'' →
      Unaffected (w.classes.constructorsOf c.id) locator w'' := by
  obtain ⟨info, found⟩ := Option.isSome_iff_exists.mp known
  refine ⟨w.classes.nodup_constructorsOf c.id,
    fun k => w.classes.mem_constructorsOf_iff (ClassTable.lt_of_info? found),
    succeeds_deriveLocator_iff effect, fun locator w' derived w'' later => ?_⟩
  obtain ⟨rfl, -, assured⟩ := assured_of_deriveLocator effect derived
  obtain ⟨es, history⟩ := later.history
  exact unaffected_of_assured (fun k mem => (assured k mem).2.history history) c

/-- The family of all effects of a dialogue has a locator, since both of its constructors have a
slot. -/
theorem validated_family_dialogue :
    Dialogue.table.constructorsOf ClassRef.effect.id = [2, 1] ∧
      (deriveLocator .effect).Succeeds (.initial Dialogue.table) := by
  have members : Dialogue.table.constructorsOf ClassRef.effect.id = [2, 1] := by cbv
  refine ⟨members, ?_⟩
  refine (validated_family (w := .initial Dialogue.table) rfl rfl).2.2.1.mpr ?_
  rw [show (World.initial Dialogue.table).classes = Dialogue.table from rfl, members]
  refine ⟨by simp, ?_⟩
  simp only [List.forall_mem_cons, succeeds_slotOf_iff]
  exact ⟨⟨_, rfl⟩, ⟨_, rfl⟩, fun k mem => by cases mem⟩

end EffectTrees
