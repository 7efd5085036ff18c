import EffectTrees.Proofs.Analysis.Family
import EffectTrees.Proofs.Family.FirstUse

/-!
# Instances of a plain subclass

What works on the instances of a registered constructor works on those of a plain subclass that has
the same slot (`WorksAs`). An instance is made of the same values and copied with the same member
changed, it is mapped over and followed in the same way, and an analysis goes on from it as it would
from an instance of the constructor. What differs is the class of the instances that come about, of
which the remark that an analysis may make gives the name. This holds from the first use of the
subclass on: its slot is derived then, and that of the constructor is not, but no computation can tell
(module `Proofs.Family.FirstUse`).

So registered constructors pass their slot on (`slot_of_plain_subclass`), on a condition:

* if the slot is the last field that is given, as it always is without a declared name, a plain
  subclass has it too, its instances work as those of the constructor, and a locator of the
  constructor is derived as if there were no such subclass;
* if a declared name puts the slot in another place, the subclass has no slot, and no locator is
  derived for the constructor either.

The subclass is first asked for its slot when the constructor has been registered, and the
annotations read as they did then. Neither can be left out (`slot_of_plain_subclass_lost`).
-/

namespace EffectTrees

open Machine (limit)
open World (Event Step History)

/-- The same instance, of the given class. -/
def Value.ofClass (c : ClassRef) : Value → Value
  | .descriptor _ own => .descriptor c own
  | v => v

/-- The same outcome with the instance of the given class. -/
def retyped (c : ClassRef) (x : Except Signal Value × World) : Except Signal Value × World :=
  (x.1.map (Value.ofClass c), x.2)

/-- The same analysis with the first effect of the trace of the given class. -/
def Value.firstOfClass (c : ClassRef) : Value → Value
  | .analysis r (e :: trace) => .analysis r (e.ofClass c :: trace)
  | v => v

/-- **The computations come to the same** on instances of the two classes: the value of the second one
is that of the first one, changed as given. The worlds that they leave behind are the same but for
what is noted of the classes. -/
structure SameUpTo (f : Value → Value) (c d : ClassRef) (x y : Except Signal Value × World) :
    Prop where
  outcome : y.1 = x.1.map f
  world : x.2.SameBut c.id d.id y.2

/-- **The analyses come to the same** that start with instances of the two classes. They differ in
the class of the effect that is recorded first, and in its name if it is the one that is remarked
upon. -/
structure SameAnalysis (c d : ClassRef) (x y : Except Signal Value × World) : Prop where
  outcome : y.1 = x.1.map (Value.firstOfClass d)
  remarks : y.2.remarks = x.2.remarks ∨ ∃ rest,
    x.2.remarks = .dependsOnInput c.name :: rest ∧ y.2.remarks = .dependsOnInput d.name :: rest
  world : { x.2 with remarks := y.2.remarks }.SameBut c.id d.id y.2

/-- However the computation ends, it registers none of the classes on the way. -/
def Act.Spares {α : Type} (a : Act α) (w : World) (ks : List Nat) : Prop :=
  ∀ r w', a.runIn w = some (r, w') →
    ∃ es, History w es w' ∧ ∀ e ∈ es, ∀ k ∈ ks, ¬ e.Registers k

/-- If neither computation registers a class on the way, both end, as related, or neither does. -/
def WorkAlike (w : World) (chain : List Nat)
    (Q : Except Signal Value × World → Except Signal Value × World → Prop) (a b : Act Value) :
    Prop :=
  a.Spares w chain → b.Spares w chain → Option.Rel Q (a.runIn w) (b.runIn w)

/-- **Instances of the second class work as those of the first one** that hold the same, whether or
not one of the classes has been asked for its slot before. What is called on the way may do anything
but register a class between the two. -/
structure WorksAs (w : World) (c d : ClassRef) (chain : List Nat) : Prop where
  make : ∀ args, (Instance.make d args).runIn w = ((Instance.make c args).runIn w).map (retyped d)
  erase : ∀ own, Option.Rel (SameUpTo (Value.ofClass d) c d)
    ((EffectTrees.erase limit (.descriptor c own)).runIn w)
    ((EffectTrees.erase limit (.descriptor d own)).runIn w)
  fmap : ∀ own f, WorkAlike w chain (SameUpTo (Value.ofClass d) c d)
    (EffectTrees.fmap limit (.descriptor c own) f) (EffectTrees.fmap limit (.descriptor d own) f)
  /-- This holds in every family that the first class belongs to. -/
  locate : ∀ family own, c.isA family.id = true → WorkAlike w chain (SameUpTo id c d)
    (limit (.locator family) [.descriptor c own]) (limit (.locator family) [.descriptor d own])
  analyze : ∀ family own, c.isA family.id = true → WorkAlike w chain (SameAnalysis c d)
    (Analysis.analyze limit (.locator family) (.tree (.suspended (.descriptor c own))))
    (Analysis.analyze limit (.locator family) (.tree (.suspended (.descriptor d own))))

section

variable {f : Value → Value} {c d : ClassRef} {x x' y y' : Except Signal Value × World}

/-- It does not matter in which of two such worlds the computations run. -/
theorem SameUpTo.congr (h : SameUpTo f c d x' y') (first : x'.1 = x.1)
    (before : x.2.SameBut c.id d.id x'.2) (second : y.1 = y'.1)
    (after : y'.2.SameBut c.id d.id y.2) : SameUpTo f c d x y :=
  ⟨by rw [second, h.outcome, first], (before.trans h.world).trans after⟩

theorem SameAnalysis.congr (h : SameAnalysis c d x' y') (first : x'.1 = x.1)
    (before : x.2.SameBut c.id d.id x'.2) (second : y.1 = y'.1)
    (after : y'.2.SameBut c.id d.id y.2) : SameAnalysis c d x y := by
  refine ⟨by rw [second, h.outcome, first], by rw [after.remarks, ← before.remarks]; exact h.remarks,
    .trans ?_ (h.world.trans after)⟩
  exact ⟨before.classes, before.slot, before.asked, before.log, after.remarks.symm⟩

end

/-- An instance is made only where no guard is in the way. -/
theorem not_isBlocked_of_make {c : ClassRef} {args : List (String × Value)} {v : Value}
    {w w' : World} (made : (Instance.make c args).runIn w = some (.ok v, w')) :
    w.classes.isBlocked c.id = false := by
  unfold Instance.make at made
  rw [Act.runIn_bind, Act.runIn_classes] at made
  dsimp only at made
  split_ifs at made with unknown missing blocked
  · simp at made
  · simp at made
  · simp at made
  · simpa [ClassTable.isBlocked] using blocked

/-- To copy an instance leaves the world alone. -/
theorem unchanged_of_replaceMember {c : ClassRef} {own : List (String × Value)} {name : String}
    {new : Value} {w : World} {x : Except Signal Value × World}
    (run : ((Value.descriptor c own).replaceMember name new).runIn w = some x) : x.2 = w := by
  rw [replaceMember_descriptor, Instance.runIn_replace] at run
  cases copied : Instance.replaced w.classes c own name new <;>
    (rw [copied] at run; rw [← Option.some.inj run])

/-! ### Classes that have been asked for their slot -/

/-- The two computations end as related, and leave the same classes behind. -/
def SameClasses (Q : Except Signal Value × World → Except Signal Value × World → Prop)
    (x y : Except Signal Value × World) : Prop :=
  Q x y ∧ y.2.classes = x.2.classes

/-- What differs in the type of the instances only is the same up to it. -/
theorem sameClasses_of_eq {f : Value → Value} {c d : ClassRef}
    {o o' : Option (Except Signal Value × World)} (same : o' = o.map fun x => (x.1.map f, x.2)) :
    Option.Rel (SameClasses (SameUpTo f c d)) o o' := by
  subst same
  cases o with
  | none => exact .none
  | some x => exact .some ⟨⟨rfl, .refl x.2⟩, rfl⟩

theorem sameClasses_refl (c d : ClassRef) (o : Option (Except Signal Value × World)) :
    Option.Rel (SameClasses (SameUpTo id c d)) o o := by
  cases o with
  | none => exact .none
  | some x => exact .some ⟨⟨by rw [Except.map_id]; rfl, .refl x.2⟩, rfl⟩

section Asked

variable {c : ClassRef} {w : World} {s : Slot}

theorem runIn_slotOf_asked (slot : w.classes.slotOf c.id = .ok s) (asked : w.asked c.id = true) :
    (Act.slotOf c).runIn w = some (.ok s, w) := by
  have noted : w.asked.add c.id = w.asked := if_pos asked
  rw [runIn_slotOf, slot, noted]

theorem runIn_erase_of_slot (effect : c.isEffect = true) (slot : w.classes.slotOf c.id = .ok s)
    (own : List (String × Value)) :
    (erase limit (.descriptor c own)).runIn w =
      match Instance.replaced w.classes c own s.name .unit with
      | .ok copy => some (.ok (.descriptor c copy), { w with asked := w.asked.add c.id })
      | .error f => some (.error (.fault f), { w with asked := w.asked.add c.id }) := by
  unfold erase
  dsimp only
  rw [if_pos effect, Act.runIn_bind, runIn_slotOf, slot]
  dsimp only
  rw [replaceMember_descriptor]
  exact Instance.runIn_replace c own s.name .unit _

theorem runIn_erase_asked (effect : c.isEffect = true) (slot : w.classes.slotOf c.id = .ok s)
    (asked : w.asked c.id = true) (own : List (String × Value)) :
    (erase limit (.descriptor c own)).runIn w =
      match Instance.replaced w.classes c own s.name .unit with
      | .ok copy => some (.ok (.descriptor c copy), w)
      | .error f => some (.error (.fault f), w) := by
  have noted : w.asked.add c.id = w.asked := if_pos asked
  rw [runIn_erase_of_slot effect slot, noted]

theorem runIn_fmap_asked (effect : c.isEffect = true) (slot : w.classes.slotOf c.id = .ok s)
    (asked : w.asked c.id = true) (own : List (String × Value)) (f : Value) :
    (fmap limit (.descriptor c own) f).runIn w = (s.map limit (.descriptor c own) f).runIn w := by
  unfold fmap
  dsimp only
  rw [if_pos effect, Act.runIn_bind, runIn_slotOf_asked slot asked]

theorem runIn_locator_asked {family : ClassRef} (member : c.isA family.id = true)
    (slot : w.classes.slotOf c.id = .ok s) (asked : w.asked c.id = true)
    (own : List (String × Value)) :
    (limit (.locator family) [.descriptor c own]).runIn w =
      (s.follow limit (.descriptor c own)).runIn w := by
  rw [Machine.limit_locator]
  unfold locate
  dsimp only
  rw [if_pos member, Act.runIn_bind, runIn_slotOf_asked slot asked]

end Asked

/-! ### Analyses that differ in their first effect -/

namespace Analysis

variable (c d : ClassRef) (copy : List (String × Value))

theorem sameAnalysis_conclude (r : Found) (w : World) : SameClasses (SameAnalysis c d)
    (conclude [.descriptor c copy] r w) (conclude [.descriptor d copy] r w) := by
  cases r with
  | error f => exact ⟨⟨rfl, .inl rfl, .refl _⟩, rfl⟩
  | ok found =>
    obtain ⟨stop, trace⟩ := found
    refine ⟨⟨rfl, ?_, .refl _⟩, rfl⟩
    cases stop with
    | failure | value | abortedValue => exact .inl rfl
    | needsInput =>
      -- The remark names the last effect, which is the first one if there is no other.
      cases trace with
      | nil => exact .inr ⟨w.remarks, rfl, rfl⟩
      | cons e rest => exact .inl (by simp [conclude, Stop.remark?])

/-- The walk goes on as the recursion does, whatever has been recorded before. -/
theorem sameAnalysis_walk (stepper node : Value) (w : World) :
    Option.Rel (SameClasses (SameAnalysis c d))
    ((walk limit stepper [.descriptor c copy] node).runIn w)
    ((walk limit stepper [.descriptor d copy] node).runIn w) := by
  match ended : (walk limit stepper [.descriptor c copy] node).runIn w with
  | some x =>
    obtain ⟨calls, r, w', recurses, rfl⟩ := runIn_walk_iff.mp ended
    rw [runIn_walk_iff.mpr ⟨calls, r, w', recurses, rfl⟩]
    exact .some (sameAnalysis_conclude c d copy r w')
  | none =>
    match other : (walk limit stepper [.descriptor d copy] node).runIn w with
    | none => exact .none
    | some x =>
      obtain ⟨calls, r, w', recurses, -⟩ := runIn_walk_iff.mp other
      rw [runIn_walk_iff.mpr ⟨calls, r, w', recurses, rfl⟩] at ended
      cases ended

end Analysis

namespace ClassTable.Continues

variable {t : ClassTable} {w : World} {c d : Nat} {chain : List Nat} {declared : Option String}
  {s : Slot} {own : List (String × Value)} (continues : Continues t w.classes c d chain s)
  (registered : t.Registered c declared s)

/-! ### Making and copying -/

include continues registered in
/-- If one instance of the constructor can be made, its guard keeps none from being made. -/
theorem constructible (made : ∃ args, (Instance.make (t.ref c) args).Succeeds w) :
    t.Constructible c := by
  obtain ⟨args, v, w', made⟩ := made
  have free : w.classes.isBlocked c = false := not_isBlocked_of_make made
  exact continues.constructible_iff.mp
    (continues.reachable.constructible (continues.registered registered).record free)

section Copies

variable (constructible : t.Constructible c)
include continues registered constructible

theorem runIn_make (args : List (String × Value)) : (Instance.make (t.ref d) args).runIn w =
    ((Instance.make (t.ref c) args).runIn w).map (retyped (t.ref d)) := by
  have still := continues.registered registered
  have reachable := continues.reachable
  have blocked := continues.plain.isBlocked_eq reachable still.record
    (continues.constructible_iff.mpr constructible)
  unfold isBlocked at blocked
  unfold Instance.make
  rw [Act.runIn_bind, Act.runIn_bind, Act.runIn_classes]
  dsimp only
  rw [show (t.ref d).id = d from rfl, show (t.ref c).id = c from rfl, blocked,
    continues.plain.givenFields_eq reachable still.isSome]
  split_ifs <;> rfl

theorem replaced_eq (name : String) (new : Value) :
    Instance.replaced w.classes (t.ref d) own name new =
      Instance.replaced w.classes (t.ref c) own name new := by
  rw [← continues.same.ref_eq, ← continues.same.ref_eq]
  exact continues.plain.replaced_eq continues.reachable (continues.registered registered).record
    (continues.constructible_iff.mpr constructible) own name new

theorem runIn_replaceMember (name : String) (new : Value) :
    ((Value.descriptor (t.ref d) own).replaceMember name new).runIn w =
      (((Value.descriptor (t.ref c) own).replaceMember name new).runIn w).map
        (retyped (t.ref d)) := by
  rw [replaceMember_descriptor, replaceMember_descriptor, Instance.runIn_replace,
    Instance.runIn_replace, continues.replaced_eq registered constructible]
  cases Instance.replaced w.classes (t.ref c) own name new <;> rfl

end Copies

/-! ### What works on slots -/

include continues registered

/-- Instances of the subclass belong to the families that those of the constructor belong to. -/
theorem isA_below {id : Nat} (member : (t.ref c).isA id = true) : (t.ref d).isA id = true := by
  rw [← continues.same.ref_eq] at member ⊢
  have top := (continues.registered registered).isSome
  exact continues.plain.isA_of_top continues.reachable top member

theorem effect_below : (t.ref d).isEffect = true := continues.isA_below registered registered.effect

theorem memberOf?_below (name : String) :
    w.classes.memberOf? d own .scalar name = w.classes.memberOf? c own .scalar name :=
  continues.plain.memberOf?_eq continues.reachable (continues.registered registered).isSome own
    .scalar name

section Asked

variable (derives : t.deriveSlot c none = .ok s) (askedTop : w.asked c = true)
  (askedBelow : w.asked d = true)
include derives askedTop askedBelow

theorem runIn_locate {family : ClassRef} (member : (t.ref c).isA family.id = true) :
    (limit (.locator family) [.descriptor (t.ref d) own]).runIn w =
      (limit (.locator family) [.descriptor (t.ref c) own]).runIn w := by
  rw [runIn_locator_asked (continues.isA_below registered member)
      ((continues.slotOf_eq registered).trans derives) askedBelow,
    runIn_locator_asked member (slotOf_of_kept continues.kept) askedTop, Analysis.runIn_follow,
    Analysis.runIn_follow, show (t.ref d).id = d from rfl, show (t.ref c).id = c from rfl,
    continues.memberOf?_below registered]

variable (constructible : t.Constructible c)
include constructible

/-- The callback is of no consequence if one of the two leaves the classes on the way alone. -/
theorem runIn_fmap {f : Value}
    (spared : ∃ x, ((fmap limit (.descriptor (t.ref c) own) f).runIn w = some x ∨
      (fmap limit (.descriptor (t.ref d) own) f).runIn w = some x) ∧
      Continues t x.2.classes c d chain s) :
    (fmap limit (.descriptor (t.ref d) own) f).runIn w =
      ((fmap limit (.descriptor (t.ref c) own) f).runIn w).map (retyped (t.ref d)) := by
  rw [runIn_fmap_asked (continues.effect_below registered)
      ((continues.slotOf_eq registered).trans derives) askedBelow,
    runIn_fmap_asked registered.effect (slotOf_of_kept continues.kept) askedTop] at spared ⊢
  unfold Slot.map at spared ⊢
  rw [Act.runIn_bind, Act.runIn_bind, runIn_lookup, runIn_lookup,
    show (t.ref d).id = d from rfl, show (t.ref c).id = c from rfl,
    continues.memberOf?_below registered] at spared ⊢
  cases member : w.classes.memberOf? c own .scalar s.name with
  | none => rfl
  | some v =>
    rw [member] at spared
    dsimp only at spared ⊢
    cases kind : s.kind with
    | function n => exact continues.runIn_replaceMember registered constructible s.name _
    | direct =>
      rw [kind] at spared
      dsimp only at spared ⊢
      rw [Act.runIn_bind, Act.runIn_bind] at spared ⊢
      match called : (limit f [v]).runIn w with
      | none => rfl
      | some (.error _, w₁) => rfl
      | some (.ok x, w₁) =>
        -- The copies are made after the call, of the classes that it leaves behind.
        rw [called] at spared
        dsimp only at spared
        have still : Continues t w₁.classes c d chain s := by
          obtain ⟨y, ends | ends, still⟩ := spared
          · rwa [unchanged_of_replaceMember ends] at still
          · rwa [unchanged_of_replaceMember ends] at still
        exact still.runIn_replaceMember registered constructible s.name x

theorem runIn_analyze {family : ClassRef} (member : (t.ref c).isA family.id = true) :
    Option.Rel (SameClasses (SameAnalysis (t.ref c) (t.ref d)))
      ((Analysis.analyze limit (.locator family)
        (.tree (.suspended (.descriptor (t.ref c) own)))).runIn w)
      ((Analysis.analyze limit (.locator family)
        (.tree (.suspended (.descriptor (t.ref d) own)))).runIn w) := by
  have probed : (probe (limit (.locator family) [.descriptor (t.ref d) own])).runIn w =
      (probe (limit (.locator family) [.descriptor (t.ref c) own])).runIn w := by
    rw [runIn_probe, runIn_probe,
      continues.runIn_locate registered derives askedTop askedBelow member]
  unfold Analysis.analyze
  rw [Analysis.walk_suspended, Analysis.walk_suspended, Act.runIn_bind, Act.runIn_bind,
    runIn_erase_asked (continues.effect_below registered)
      ((continues.slotOf_eq registered).trans derives) askedBelow,
    runIn_erase_asked registered.effect (slotOf_of_kept continues.kept) askedTop,
    continues.replaced_eq registered constructible]
  cases Instance.replaced w.classes (t.ref c) own s.name .unit with
  | error f => exact .some ⟨⟨rfl, .inl rfl, .refl _⟩, rfl⟩
  | ok copy =>
    -- Both effects are recorded, and the locator is asked in the same world.
    dsimp only
    rw [Act.runIn_bind, Act.runIn_bind, probed]
    match (probe (limit (.locator family) [.descriptor (t.ref c) own])).runIn w with
    | none => exact .none
    | some (.error _, w₁) => exact .some ⟨⟨rfl, .inl rfl, .refl _⟩, rfl⟩
    | some (.ok none, w₁) =>
      dsimp only [Analysis.afterStep]
      rw [Analysis.runIn_remark_pure, Analysis.runIn_remark_pure]
      exact .some ⟨⟨rfl, .inr ⟨w₁.remarks, rfl, rfl⟩, .refl _⟩, rfl⟩
    | some (.ok (some next), w₁) =>
      dsimp only [Analysis.afterStep]
      rw [Machine.limit_frame, Machine.limit_frame]
      exact Analysis.sameAnalysis_walk _ _ copy _ next w₁

end Asked

/-! ### The first use -/

omit registered in
/-- To ask both for their slots makes no difference. -/
theorem abreast_asked : Abreast t c d chain s w { w with asked := (w.asked.add c).add d } :=
  ⟨continues, continues, (World.SameBut.ask w (.inl rfl)).trans (World.SameBut.ask _ (.inr rfl))⟩

/-- A computation that registers no class on the way ends alike once both have been asked. -/
theorem follows_asked {a : Act Value} [traced : a.Traceable] (spares : a.Spares w chain)
    {x : Except Signal Value × World} (run : a.runIn w = some x) :
    ∃ y, a.runIn { w with asked := (w.asked.add c).add d } = some y ∧ y.1 = x.1 ∧
      Abreast t c d chain s x.2 y.2 := by
  obtain ⟨es, history, apart⟩ := spares _ _ run
  exact traced.made.follows registered continues.abreast_asked run
    (continues.history registered history apart)

/-- **What works alike once both have been asked for their slots** works alike at any time. The two
computations are compared where both have been asked, and each with itself there and here. -/
theorem workAlike {a b : Act Value} [first : a.Traceable] [second : b.Traceable]
    {Q : Except Signal Value × World → Except Signal Value × World → Prop}
    (congr : ∀ {x x' y' y}, Q x' y' → x'.1 = x.1 → x.2.SameBut c d x'.2 → y.1 = y'.1 →
      y'.2.SameBut c d y.2 → Q x y)
    (asked : ∀ m : World, Continues t m.classes c d chain s → m.asked c = true → m.asked d = true →
      (∃ x, (a.runIn m = some x ∨ b.runIn m = some x) ∧ Continues t x.2.classes c d chain s) →
      Option.Rel (SameClasses Q) (a.runIn m) (b.runIn m)) : WorkAlike w chain Q a b := by
  intro spares spares'
  have back := continues.abreast_asked.symm
  have both := asked { w with asked := (w.asked.add c).add d } continues
    (by simp [Consultations.add_apply]) (by simp [Consultations.add_apply])
  match here : a.runIn w, here' : b.runIn w with
  | none, none => exact .none
  | some x, _ =>
    obtain ⟨x', there, same, after⟩ := continues.follows_asked registered spares here
    have ends := both ⟨x', .inl there, after.right⟩
    rw [there] at ends
    obtain ⟨y', there', related, classes⟩ := ends.exists_right
    obtain ⟨y, returned, same', after'⟩ := second.made.follows registered back there'
      (classes ▸ after.right)
    obtain rfl := here'.symm.trans returned
    exact .some (congr related same after.same same' after'.same)
  | none, some y =>
    -- The first one would end as well.
    obtain ⟨y', there', -, after⟩ := continues.follows_asked registered spares' here'
    have ends := both ⟨y', .inr there', after.right⟩
    rw [there'] at ends
    obtain ⟨x', there, -, classes⟩ := ends.flip.exists_right
    obtain ⟨x, returned, -⟩ := first.made.follows registered back there (classes ▸ after.right)
    rw [here] at returned
    cases returned

section

variable (derives : t.deriveSlot c none = .ok s) (constructible : t.Constructible c)
include derives constructible

theorem erases (own : List (String × Value)) :
    Option.Rel (SameUpTo (Value.ofClass (t.ref d)) (t.ref c) (t.ref d))
      ((erase limit (.descriptor (t.ref c) own)).runIn w)
      ((erase limit (.descriptor (t.ref d) own)).runIn w) := by
  have noted : { w with asked := w.asked.add c }.SameBut c d { w with asked := w.asked.add d } :=
    (World.SameBut.ask w (.inl rfl)).symm.trans (World.SameBut.ask w (.inr rfl))
  rw [runIn_erase_of_slot registered.effect (slotOf_of_kept continues.kept),
    runIn_erase_of_slot (continues.effect_below registered)
      ((continues.slotOf_eq registered).trans derives),
    continues.replaced_eq registered constructible]
  cases Instance.replaced w.classes (t.ref c) own s.name .unit with
  | error f => exact .some ⟨rfl, noted⟩
  | ok copy => exact .some ⟨rfl, noted⟩

/-- **Instances of the subclass work as those of the constructor.** -/
theorem worksAs : WorksAs w (t.ref c) (t.ref d) chain where
  make := continues.runIn_make registered constructible
  erase := continues.erases registered derives constructible
  fmap own f := continues.workAlike registered (fun h => h.congr) fun m still top below spared =>
    sameClasses_of_eq (still.runIn_fmap registered derives top below constructible spared)
  locate family own member := continues.workAlike registered (fun h => h.congr)
    fun m still top below _ => by
      rw [still.runIn_locate registered derives top below member]
      exact sameClasses_refl ..
  analyze family own member := continues.workAlike registered (fun h => h.congr)
    fun m still top below _ => still.runIn_analyze registered derives top below constructible member

end

/-! ### Locators -/

/-- A locator of the constructor is derived if the other members of its family have slots. -/
theorem succeeds_deriveLocator (derives : t.deriveSlot c none = .ok s)
    (others : ∀ k ∈ w.classes.constructorsOf c, k ≠ c → k ≠ d →
      (Act.slotOf (w.classes.ref k)).Succeeds w) : (deriveLocator (t.ref c)).Succeeds w := by
  have still := continues.registered registered
  obtain ⟨rest, members⟩ := constructorsOf_eq_cons still.isSome still.record.isRecord
  refine (succeeds_deriveLocator_iff registered.effect).mpr ⟨?_, fun k mem => ?_⟩
  · rw [show (t.ref c).id = c from rfl, members]
    exact List.cons_ne_nil _ _
  · by_cases top : k = c
    · exact succeeds_slotOf_iff.mpr ⟨s, top ▸ slotOf_of_kept continues.kept⟩
    · by_cases below : k = d
      · exact succeeds_slotOf_iff.mpr ⟨s, below ▸ (continues.slotOf_eq registered).trans derives⟩
      · exact others k mem top below

/-- None is derived if the subclass has no slot. -/
theorem not_succeeds_deriveLocator {f : SlotFault} (refused : t.deriveSlot c none = .error f) :
    ¬ (deriveLocator (t.ref c)).Succeeds w := by
  intro derived
  have still := continues.registered registered
  obtain ⟨info, known⟩ := Option.isSome_iff_exists.mp still.isSome
  have member : d ∈ w.classes.constructorsOf c := by
    refine (mem_constructorsOf_iff _ (lt_of_info? known)).mpr ⟨continues.plain.descends, ?_⟩
    rw [continues.plain.isRecord_eq continues.reachable still.isSome]
    exact still.record.isRecord
  obtain ⟨s', found⟩ := succeeds_slotOf_iff.mp
    (((succeeds_deriveLocator_iff registered.effect).mp derived).2 d member)
  rw [show (w.classes.ref d).id = d from rfl, continues.slotOf_eq registered, refused] at found
  cases found

end ClassTable.Continues

/-! ### Plain subclasses of a registered constructor -/

/-- **The slot of a plain subclass** is that of the registered constructor if it is its last field.
Otherwise there is none. -/
theorem slot_of_plain_subclass {t t' : ClassTable} {w w' : World} {c d : Nat} {chain : List Nat}
    {declared : Option String} {es : List Event} (earlier : t.Reachable)
    (registers : t.Registers c declared t' (.ok ())) (reachable : w.classes.Reachable)
    (same : w.classes.info? c = t'.info? c) (reads : w.classes.fieldTypes c = t'.fieldTypes c)
    (plain : w.classes.PlainlyBelow c d chain) (unasked : w.classes.keptSlot d = none)
    (history : History w es w') (unregistered : ∀ e ∈ es, ∀ k ∈ chain, ¬ e.Registers k) :
    ∃ s, w'.classes.slotOf c = .ok s ∧
      (declared = none → w.classes.lastGiven? c = some s.name) ∧
      (w.classes.lastGiven? c = some s.name →
        w'.classes.slotOf d = .ok s ∧
        ((∃ args, (Instance.make (w.classes.ref c) args).Succeeds w') →
          WorksAs w' (w.classes.ref c) (w.classes.ref d) chain) ∧
        ((∀ k ∈ w'.classes.constructorsOf c, k ≠ c → k ≠ d →
          (Act.slotOf (w'.classes.ref k)).Succeeds w') →
          (deriveLocator (w.classes.ref c)).Succeeds w')) ∧
      (w.classes.lastGiven? c ≠ some s.name →
        (Act.slotOf (w.classes.ref d)).Raises w' ⟨(w.classes.ref d).name, .notLast s.name⟩ w' ∧
        ¬ (deriveLocator (w.classes.ref c)).Succeeds w') := by
  obtain ⟨s, found⟩ := registers.exists_registered earlier
  have registered := found.congr same reads
  have first := ClassTable.Continues.refl reachable registered plain unasked
  have continues := first.history registered history unregistered
  have derives := ClassTable.deriveSlot_none registered.derives
  have below := continues.slotOf_eq registered
  refine ⟨s, ClassTable.slotOf_of_kept continues.kept, ?_, fun last => ?_, fun notLast => ?_⟩
  -- A registration without a name has derived the slot as it is derived for the subclass.
  · rintro rfl
    by_contra notLast
    rw [if_neg notLast, registered.derives] at derives
    cases derives
  · rw [if_pos last] at derives
    exact ⟨below.trans derives,
      fun made => continues.worksAs registered derives (continues.constructible registered made),
      continues.succeeds_deriveLocator registered derives⟩
  · rw [if_neg notLast] at derives
    refine ⟨?_, continues.not_succeeds_deriveLocator registered derives⟩
    unfold Act.Raises
    rw [runIn_slotOf, show (w.classes.ref d).id = d from rfl, below, derives]
    rfl

namespace Plain

/-- The declaration of a plain subclass. -/
def heir (name parent : String) : ClassDecl where
  name := name
  params := []
  parents := [⟨parent, none⟩]
  generic := none
  fields := []
  decorators := []
  continuation := none

/-- What is known of a plain subclass. -/
def info (name : String) (parent : Nat) (lineage : List Nat) (continuation : TypeVar) :
    ClassInfo where
  name := name
  parents := [⟨parent, none⟩]
  typeVars := []
  parameters := []
  lineage := lineage
  search := .found continuation
  annotations := []
  attributes := []
  layout := .unsettled
  slot := none

/-- The class `Say` of a dialogue, registered with a name for its continuation. -/
def registered : ClassTable := (Misnamed.table.register 1 (some "next")).1

theorem registers_say : Misnamed.table.Registers 1 (some "next") registered (.ok ()) := by
  have outcome : (Misnamed.table.register 1 (some "next")).2.2 = .ok () := by cbv
  rw [← outcome]
  exact Misnamed.table.registers 1 (some "next")

/-- The continuation variable of `Say`. -/
def k : TypeVar := ⟨"K", .family 1, .single⟩

/-- A plain subclass of it, and one of that. -/
def table : ClassTable where
  classes := [
    ClassTable.root,
    Dialogue.info 1 "Say" [("message", .any), ("next", .var k)] ⟨"next", .direct⟩,
    info "Quiet" 1 [2, 1, 0] k,
    info "Silent" 2 [3, 2, 1, 0] k]
  shared := []
  bound := [("Silent", 3), ("Quiet", 2), ("Say", 1)]

theorem reachable_table : table.Reachable := by
  have declared :
      (registered.declareAll [heir "Quiet" "Say", heir "Silent" "Quiet"]).1 = table := by cbv
  rw [← declared]
  exact (((ClassTable.Reachable.initial []).declareAll _).register 1 _).declareAll _

/-- No class has been asked for its slot. -/
def fresh : World := .initial table

theorem plainlyBelow_silent : table.PlainlyBelow 1 3 [3, 2] :=
  .further rfl ⟨rfl, rfl, rfl, rfl, rfl⟩ (.child rfl ⟨rfl, rfl, rfl, rfl, rfl⟩)

end Plain

open Plain in
/-- Instances of `Silent` work as those of `Say` from their first use on, and a locator of `Say` is
derived. -/
theorem slot_of_plain_subclass_silent :
    fresh.classes.slotOf 1 = .ok ⟨"next", .direct⟩ ∧
      fresh.classes.slotOf 3 = .ok ⟨"next", .direct⟩ ∧
      WorksAs fresh (table.ref 1) (table.ref 3) [3, 2] ∧
      (deriveLocator (table.ref 1)).Succeeds fresh := by
  have earlier : Misnamed.table.Reachable := (ClassTable.Reachable.initial []).declareAll _
  obtain ⟨s, top, -, last, -⟩ := slot_of_plain_subclass earlier registers_say (w := fresh)
    reachable_table (by cbv) (by cbv) plainlyBelow_silent rfl (.nil fresh) (by simp)
  obtain rfl : ⟨"next", .direct⟩ = s := Except.ok.inj top
  obtain ⟨below, works, located⟩ := last (by cbv)
  refine ⟨top, below, works ⟨[("message", .null), ("next", .null)], _, _, rfl⟩,
    located fun k mem top below => succeeds_slotOf_iff.mpr ?_⟩
  have members : fresh.classes.constructorsOf 1 = [1, 2, 3] := by cbv
  rw [members] at mem
  obtain rfl : k = 2 := by simp at mem; omega
  exact ⟨⟨"next", .direct⟩, by cbv⟩

namespace Plain

/-- The declaration of a constructor with the given fields. -/
def effect (name : String) (fields : List FieldDecl) (continuation : Option String) :
    ClassDecl where
  name := name
  params := [("K", false)]
  parents := [⟨"Effect", some [.name "K"]⟩]
  generic := none
  fields := fields
  decorators := [.register]
  continuation := continuation

/-- What is declared, and the slots that are registered on the way. -/
def declare (ds : List ClassDecl) : ClassTable × List (Except RegistrationFault (Option Slot)) :=
  let (t, answers) := (ClassTable.initial [⟨"K", .shared, .single⟩]).declareAll ds
  (t, answers.map ClassTable.Declared.outcome)

def next : FieldDecl := ⟨"next", .name "K", none, true⟩

/-- The slot of `Get` is declared, since it is not its last field. -/
def declaredFirst : ClassTable × List (Except RegistrationFault (Option Slot)) :=
  declare [effect "Get" [next, ⟨"key", .name "str", none, true⟩] (some "next"), heir "D" "Get"]

/-- When `D` is asked for its slot, the quoted type of the table names another class. -/
def reread : ClassTable × List (Except RegistrationFault (Option Slot)) :=
  let types : FieldDecl :=
    ⟨"table", .quoted (.apply "dict" [.name "str", .name "int"]), none, true⟩
  declare [effect "Put" [types, next] none, effect "dict" [next] none, heir "D" "Put"]

/-- Before `C` is registered, it has the fields of `A`. -/
def early : ClassTable × List (Except RegistrationFault (Option Slot)) :=
  let fixed : FieldDecl := ⟨"first", .name "K", some .null, false⟩
  let second : FieldDecl := ⟨"second", .name "K", none, true⟩
  declare [
    { effect "A" [⟨"first", .name "K", none, true⟩] none with params := [] },
    { effect "C" [fixed, second] none with
      params := [], parents := [⟨"A", some [.name "K"]⟩], decorators := [] },
    heir "D" "C"]

/-- The slot of `D` has been asked for before `C` is registered. -/
def earlyAsked : World := { World.initial early.1 with asked := Consultations.none.add 3 }

end Plain

open Plain in
/-- **A plain subclass may lose the slot**: the slot of the constructor is declared and is not its
last field, or its annotations are read differently now, or the subclass has been asked before the
constructor was registered. -/
theorem slot_of_plain_subclass_lost :
    (declaredFirst.2 = [.ok (some ⟨"next", .direct⟩), .ok none] ∧
      declaredFirst.1.slotOf 1 = .ok ⟨"next", .direct⟩ ∧
      declaredFirst.1.slotOf 2 = .error (.derivation (.notLast "next")) ∧
      ((deriveLocator (declaredFirst.1.ref 1)).runIn (.initial declaredFirst.1)).map Prod.fst =
        some (.error (.fault (.derivation ⟨"D", .notLast "next"⟩)))) ∧
    (reread.2 = [.ok (some ⟨"next", .direct⟩), .ok (some ⟨"next", .direct⟩), .ok none] ∧
      reread.1.slotOf 1 = .ok ⟨"next", .direct⟩ ∧
      reread.1.slotOf 3 = .error (.type .misuse)) ∧
    (early.2 = [.ok (some ⟨"first", .direct⟩), .ok none, .ok none] ∧
      early.1.slotOf 3 = .ok ⟨"first", .direct⟩ ∧
      (earlyAsked.register 2 none).2 = .ok () ∧
      (earlyAsked.register 2 none).1.classes.slotOf 2 = .ok ⟨"second", .direct⟩ ∧
      (earlyAsked.register 2 none).1.classes.slotOf 3 = .ok ⟨"first", .direct⟩) :=
  ⟨⟨by cbv, by cbv, by cbv, by cbv⟩, ⟨by cbv, by cbv, by cbv⟩,
    by cbv, by cbv, by cbv, by cbv, by cbv⟩

end EffectTrees
