import EffectTrees.Proofs.Akin.Operations
import EffectTrees.Proofs.Exchange.Filling
import EffectTrees.Proofs.Exchange.Operations

/-!
# Eliminations do not tell akin trees apart

What comes out of an elimination is no tree, so it is the same for akin trees. Eliminations work on
one level of a tree and leave the rest to calls of themselves, so it is enough to look at one step
(`Eliminates`): at leaves that come to the same, and at descriptors whose contents are akin, where
the rest of the work within a smaller depth of calls may be supposed to come to the same.

What callbacks are asked for:

* a stepper or a transformation, which is given a descriptor as it is, treats descriptors with akin
  contents alike (`TreatsAlike`);
* an algebra is given a descriptor with functions in it. These may go on without end, so they are
  compared at each depth of calls (`LikeWithin`). The algebra treats descriptors alike whose
  functions come to the same within the depth that it has to call them (`TreatsAlikeWithin`);
* a target goes on from the contents of its computations (`Sequences`), in the same sense.
-/

namespace EffectTrees

open Machine (limit call)
open Act (EndsLike)
open Comparison (identical)

variable {T : ClassTable} {E : Vocabulary T} {total : Prop} {A : Value → Prop} {Z : Frame → Prop}
  {k : Frame} {d d' g g' t t' : Value} {n : Nat}

/-! ### Work that comes to the same -/

/-- Within so many calls, the function comes to the same for akin trees. -/
def SameWithin (E : Vocabulary T) (total : Prop) (A : Value → Prop) (F : Value) (n : Nat) : Prop :=
  ∀ t t', Akin E total A t t' → (identical T).Matched Eq (call n F [t]) (limit F [t'])

/-- **Frames that come to the same** for akin trees, if the rest of the work, within fewer calls,
does. -/
structure Eliminates (E : Vocabulary T) (total : Prop) (A : Value → Prop) (Z : Frame → Prop) :
    Prop where
  poison {k : Frame} (frame : Z k) : EndsLike T Eq (k.run limit .poison) (k.run limit .poison)
  leaf {k : Frame} {t t' : Tree} (frame : Z k) (left : t.IsLeaf) (right : t'.IsLeaf)
    (alike : EndsLike T (Option.Rel (SameOf A)) (t.outcome limit) (t'.outcome limit)) :
    EndsLike T Eq (k.run limit (.tree t)) (k.run limit (.tree t'))
  suspended {k : Frame} {n : Nat} {d d' : Value} (frame : Z k)
    (rest : ∀ k, Z k → SameWithin E total A (.frame k) n) (slots : Holding E (Akin E total A) d d') :
    (identical T).Matched Eq (k.run (call n) (.tree (.suspended d)))
      (k.run limit (.tree (.suspended d')))

namespace Eliminates

theorem within (eliminates : Eliminates E total A Z) (n : Nat) :
    ∀ k, Z k → SameWithin E total A (.frame k) n := by
  induction n with
  | zero => exact fun _ _ _ _ _ => .tooDeep
  | succ n ih =>
    intro k frame t t' akin
    rw [Machine.call_succ, Machine.limit_frame]
    -- Where no other call of the elimination is involved, it is compared without a bound.
    have at_limit : ∀ {v v' : Value}, EndsLike T Eq (k.run limit v) (k.run limit v') →
        (identical T).Matched Eq (k.run (call n) v) (k.run limit v') := fun ends =>
      ends.follows.below (Frame.respects_run (R := Act.convergence) Machine.tends_limit k _) n
    cases akin.step with
    | poison => exact at_limit (eliminates.poison frame)
    | leaf left right alike _ => exact at_limit (eliminates.leaf frame left right alike)
    | suspended slots => exact eliminates.suspended frame ih slots

/-- **The elimination comes to the same** for akin trees. -/
theorem endsLike (eliminates : Eliminates E total A Z) (frame : Z k)
    (akin : Akin E total A t t') : EndsLike T Eq (k.run limit t) (k.run limit t') := by
  have follows : ∀ t t', Akin E total A t t' →
      (identical T).Matched Eq (limit (.frame k) [t]) (limit (.frame k) [t']) :=
    fun t t' akin => .of_tends (fun n => eliminates.within n k frame t t' akin)
      (Machine.tends_limit _ _)
  have ends := EndsLike.of_matched (follows t t' akin) (follows t' t akin.symm)
  rwa [Machine.limit_frame, Machine.limit_frame] at ends

end Eliminates

/-! ### Analysis -/

/-- The remark on a leaf without a value. -/
def Tree.missing : Tree → Nat → Remark
  | .failed => .reachedFailure
  | _ => .abortedValue

theorem Tree.IsLeaf.walk_eq {t : Tree} (leaf : t.IsLeaf) (call : Caller) (stepper : Value)
    (trace : List Value) :
    Analysis.walk call stepper trace (.tree t) = t.outcome call >>= fun r =>
      match r with
      | some v => return .analysis (some v) trace.reverse
      | none => (do Act.remark (t.missing trace.length); return .analysis none trace.reverse) := by
  cases leaf <;> rfl

/-- An analysis ends without a result in the same way, whatever is remarked upon. -/
theorem endsLike_without_result (r r' : Remark) (v : Value) :
    EndsLike T Eq (do Act.remark r; pure v) (do Act.remark r'; pure v) := by
  -- What is written does not count, so neither does which remark it is.
  have follows : ∀ r r' : Remark, (identical T).Matched Eq (do Act.remark r; pure v)
      (do Act.remark r'; pure v) := fun r r' =>
    (Comparison.Matched.remarks id r r').bind fun _ _ _ => .pure rfl
  exact .of_matched (follows r r') (follows r' r)

/-- **To analyse** akin trees, whatever has been recorded before. -/
theorem eliminates_analyze {stepper : Value}
    (hs : TreatsAlike T (Holding E (Akin E total A)) (Akin E total A) stepper) :
    Eliminates E total A fun k => ∃ trace, k = .analyze stepper trace where
  poison := by
    rintro _ ⟨trace, rfl⟩
    have refused : (identical T).Matched Eq (Act.refuse (α := Value) .tree .poison)
        (Act.refuse .tree .poison) := .refuse _ (Exchange.identical_refl _)
    exact .of_matched refused refused
  leaf := by
    rintro _ t t' ⟨trace, rfl⟩ left right alike
    change EndsLike T Eq (Analysis.walk limit stepper trace _) (Analysis.walk limit stepper trace _)
    rw [left.walk_eq, right.walk_eq]
    exact alike.bind_outcome (fun v _ => .pure rfl) (endsLike_without_result _ _ _)
  suspended := by
    rintro _ n d d' ⟨trace, rfl⟩ rest slots
    have units : ∀ x x', Akin E total A x x' → (identical T).Matched (identical T).Rel
        (call n (.frame .unit) [x]) (limit (.frame .unit) [x']) := by
      intro x x' _
      have given : (identical T).Matched (identical T).Rel (limit (.frame .unit) [x])
          (limit (.frame .unit) [x']) := by
        rw [Machine.limit_frame, Machine.limit_frame]
        exact .pure (Exchange.identical_refl _)
      exact given.below (Machine.tends_limit _ _) n
    -- The entries of the traces have the unit in their slots, so they are equal.
    refine (Comparison.Matched.erase_of slots.slots units).bind fun e e' same => ?_
    obtain rfl := Exchange.identical_iff.mp same
    have stepped := (hs d d' slots).follows.below (Machine.tends_limit _ _) n
    refine (stepped.probe fun _ _ => Akin.isPoison_eq).bind fun r r' next => ?_
    cases next with
    | some akin => exact rest _ ⟨e :: trace, rfl⟩ _ _ akin
    | none => exact (endsLike_without_result _ _ _).follows

/-- **Analyses** of akin trees have the same result and the same trace. -/
theorem akin_analyze {stepper : Value} (ht : Akin E total A t t')
    (hs : TreatsAlike T (Holding E (Akin E total A)) (Akin E total A) stepper) :
    EndsLike T Eq (Analysis.analyze limit stepper t) (Analysis.analyze limit stepper t') :=
  (eliminates_analyze hs).endsLike ⟨[], rfl⟩ ht

/-- Locators treat descriptors with akin contents alike. -/
theorem treatsAlike_locator (family : ClassRef) :
    TreatsAlike T (Holding E (Akin E total A)) (Akin E total A) (.locator family) := by
  have follows : ∀ {R : Value → Value → Prop} {d d' : Value},
      (identical T).Slots R (LikeBehind T R) d d' →
      (identical T).Matched R (locate limit family d) (locate limit family d') := fun slots =>
    .locate_of family slots (fun _ _ => id) fun n _ _ like => (like _).follows
  intro d d' slots
  rw [Machine.limit_locator, Machine.limit_locator]
  exact .of_matched (follows slots.slots)
    (follows (slots.slots.symm.mono (fun _ _ => id) fun _ _ like args => (like args).symm))

/-! ### Algebras -/

/-- Within so many calls, the functions come to the same, whatever the arguments. -/
structure LikeWithin (T : ClassTable) (n : Nat) (g g' : Value) : Prop where
  functions : ∃ f f', g = .function f ∧ g' = .function f'
  same (args : List Value) : (identical T).Matched Eq (call n g args) (limit g' args)

/-- **The algebra treats descriptors alike** whose contents are related, at each depth of calls, and
whose functions come to the same within it. -/
def TreatsAlikeWithin (E : Vocabulary T) (C : Nat → Value → Value → Prop) (algebra : Value) : Prop :=
  ∀ n d d', SlotsAlike E (C n) (LikeWithin T n) d d' →
    (identical T).Matched Eq (call n algebra [d]) (limit algebra [d'])

/-- To go on from functions that give akin trees. -/
theorem likeWithin_after (rest : SameWithin E total A (.frame k) n)
    (like : LikeBehind T (Akin E total A) g g') :
    LikeWithin T n (.function (.after (.frame k) g)) (.function (.after (.frame k) g')) where
  functions := ⟨_, _, rfl, rfl⟩
  same args := by
    cases n with
    | zero => exact .tooDeep
    | succ n =>
      -- One call is for the composite, so its parts are left with a smaller depth.
      have given := (like args).follows.below (Machine.tends_limit _ _) n
      rw [Machine.call_succ, Machine.limit_after]
      refine given.bind fun x x' akin => (rest x x' akin).of_runs fun _ _ _ run => ?_
      exact Machine.runIn_call_of_le (Nat.le_succ n) run

/-- To put the work on akin trees off. -/
theorem likeWithin_delayed {x x' : Value} (rest : SameWithin E total A (.frame k) n)
    (akin : Akin E total A x x') :
    LikeWithin T n (.function (.delayed k x)) (.function (.delayed k x')) where
  functions := ⟨_, _, rfl, rfl⟩
  same args := by
    cases n with
    | zero => exact .tooDeep
    | succ n =>
      cases args with
      | nil =>
        -- One call of the put off work is one call of the frame.
        have called := rest x x' akin
        rw [Machine.call_succ, Machine.limit_eq] at called ⊢
        exact called
      | cons _ _ =>
        rw [Machine.call_succ, Machine.limit_eq]
        exact .fail _

/-! ### Iteration -/

theorem Tree.IsLeaf.iterate_eq {t : Tree} (leaf : t.IsLeaf) (call : Caller) (algebra : Value) :
    Tree.iterate call algebra (.tree t) =
      t.outcome call >>= fun r => return r.getD .null := by
  cases leaf <;> rfl

/-- What an algebra makes of what has been mapped over descriptors. -/
theorem matched_algebra {algebra : Value} (ha : TreatsAlikeWithin E (fun _ => Eq) algebra)
    (rest : SameWithin E total A (.frame k) n) (slots : Holding E (Akin E total A) d d') :
    (identical T).Matched Eq (do call n algebra [← fmap (call n) d (.frame k)])
      (do limit algebra [← fmap limit d' (.frame k)]) :=
  (slots.fmap rest fun _ _ => likeWithin_after rest).bind fun e e' filled => ha n e e' filled

/-- **To iterate** over akin trees. -/
theorem eliminates_iterate {algebra : Value} (ha : TreatsAlikeWithin E (fun _ => Eq) algebra) :
    Eliminates E total A (· = .iterate algebra) where
  poison := by
    rintro _ rfl
    exact .pure rfl
  leaf := by
    rintro _ t t' rfl left right alike
    change EndsLike T Eq (Tree.iterate limit algebra _) (Tree.iterate limit algebra _)
    rw [left.iterate_eq, right.iterate_eq]
    exact alike.bind_outcome (fun v _ => .pure rfl) (.pure rfl)
  suspended := by
    rintro _ n d d' rfl rest slots
    exact matched_algebra ha (rest _ rfl) slots

theorem akin_iterate {algebra : Value} (ht : Akin E total A t t')
    (ha : TreatsAlikeWithin E (fun _ => Eq) algebra) :
    EndsLike T Eq (Tree.iterate limit algebra t) (Tree.iterate limit algebra t') :=
  (eliminates_iterate ha).endsLike rfl ht

/-! ### Targets -/

/-- **What the target makes of leaves** depends on nothing but their values. -/
structure PureTarget (T : ClassTable) (A : Value → Prop) (target : Value) : Prop where
  pure {v : Value} (kind : A v) :
    EndsLike T Eq (target.invoke limit .pure [v]) (target.invoke limit .pure [v])
  empty : EndsLike T Eq (target.invoke limit .empty []) (target.invoke limit .empty [])

/-- What a target makes of what a leaf comes to. -/
noncomputable def Value.atLeaf (target : Value) : Option Value → Act Value
  | some v => target.invoke limit .pure [v]
  | none => target.invoke limit .empty []

/-- **The frame leaves leaves to a target.** -/
structure EndsIn (k : Frame) (target : Value) : Prop where
  poison : k.run limit .poison = target.invoke limit .empty []
  leaf {t : Tree} (leaf : t.IsLeaf) : k.run limit (.tree t) = t.outcome limit >>= target.atLeaf

section

variable {algebra transform target : Value}

theorem endsIn_iterateIn : EndsIn (.iterateIn algebra target) target where
  poison := rfl
  leaf leaf := by cases leaf <;> rfl

theorem endsIn_iterateLater : EndsIn (.iterateLater algebra target) target where
  poison := rfl
  leaf leaf := by cases leaf <;> rfl

theorem endsIn_fold : EndsIn (.fold transform target) target where
  poison := rfl
  leaf leaf := by cases leaf <;> rfl

/-- If the target is pure it is enough to look at descriptors. -/
theorem EndsIn.eliminates (ends : EndsIn k target) (hp : PureTarget T A target)
    (suspended : ∀ {n : Nat} {d d' : Value}, SameWithin E total A (.frame k) n →
      Holding E (Akin E total A) d d' →
      (identical T).Matched Eq (k.run (call n) (.tree (.suspended d)))
        (k.run limit (.tree (.suspended d')))) :
    Eliminates E total A (· = k) where
  poison := by
    rintro _ rfl
    rw [ends.poison]
    exact hp.empty
  leaf := by
    rintro _ t t' rfl left right alike
    rw [ends.leaf left, ends.leaf right]
    exact alike.bind_outcome (fun _ => hp.pure) hp.empty
  suspended := by
    rintro _ n d d' rfl rest slots
    exact suspended (rest _ rfl) slots

end

/-- **To iterate in a target.** -/
theorem akin_iterateIn {algebra target : Value} (ht : Akin E total A t t')
    (hp : PureTarget T A target) (ha : TreatsAlikeWithin E (fun _ => Eq) algebra) :
    EndsLike T Eq (Tree.iterateIn limit algebra target t)
      (Tree.iterateIn limit algebra target t') := by
  refine (endsIn_iterateIn.eliminates hp ?_).endsLike rfl ht
  intro n d d' rest slots
  exact matched_algebra ha rest slots

/-! ### Postponed iteration -/

section

variable {algebra target : Value} {c : ClassRef} {own : List (String × Value)}

theorem postponeSlots_of_effect (call : Caller) (effect : c.isEffect = true) :
    Tree.postponeSlots call algebra target (.descriptor c own) =
      Act.slotOf c >>= fun s =>
        match s.kind with
        | .function _ => fmap call (.descriptor c own) (.frame (.iterateLater algebra target))
        | .direct => fmap call (.descriptor c own) (.frame (.postpone algebra target)) := by
  unfold Tree.postponeSlots
  exact if_pos effect

theorem postponeSlots_of_not_effect (call : Caller) (other : c.isEffect = false) :
    Tree.postponeSlots call algebra target (.descriptor c own) = Act.fail (.noSlots c.name) := by
  unfold Tree.postponeSlots
  dsimp only
  rw [other, if_neg Bool.false_ne_true, fmap_of_not_effect other]

theorem postponeSlots_of_not_instance (call : Caller) (other : ∀ c own, d ≠ .descriptor c own) :
    Tree.postponeSlots call algebra target d = fmap call d (.frame (.postpone algebra target)) := by
  unfold Tree.postponeSlots
  split
  · exact absurd rfl (other _ _)
  · rfl

/-- What is at hand is put off. -/
theorem matched_postpone (rest : SameWithin E total A (.frame (.iterateLater algebra target)) n)
    (slots : SlotsAlike E (Akin E total A) (fun _ _ => False) d d') :
    (identical T).Matched (SlotsAlike E (LikeWithin T n) (LikeWithin T n))
      (fmap (call n) d (.frame (.postpone algebra target)))
      (fmap limit d' (.frame (.postpone algebra target))) := by
  refine slots.fmap (fun x x' akin => ?_) fun _ _ => False.elim
  have delayed : (identical T).Matched (LikeWithin T n)
      (limit (.frame (.postpone algebra target)) [x])
      (limit (.frame (.postpone algebra target)) [x']) := by
    rw [Machine.limit_frame, Machine.limit_frame]
    exact .pure (likeWithin_delayed rest akin)
  exact delayed.below (Machine.tends_limit _ _) n

/-- **To put the work off** on what is in the slots. -/
theorem matched_postponeSlots
    (rest : SameWithin E total A (.frame (.iterateLater algebra target)) n)
    (slots : Holding E (Akin E total A) d d') :
    (identical T).Matched (SlotsAlike E (LikeWithin T n) (LikeWithin T n))
      (Tree.postponeSlots (call n) algebra target d)
      (Tree.postponeSlots limit algebra target d') := by
  cases slots.slots with
  | list each => exact matched_postpone rest ⟨slots.has, slots.has', .list each⟩
  | @slotted c own own' s slot fields content =>
    cases effect : c.isEffect with
    | false =>
      rw [postponeSlots_of_not_effect _ effect, postponeSlots_of_not_effect _ effect]
      exact .fail _
    | true =>
      rw [postponeSlots_of_effect _ effect, postponeSlots_of_effect _ effect]
      refine (Comparison.Matched.slotOf c).bind ?_
      rintro s' _ ⟨rfl, slot'⟩
      obtain rfl := slotOf_unique slot slot'
      -- The slot is of one kind, so one of the two relations does not matter.
      have only : ∀ {R S : Value → Value → Prop},
          (∀ x x', Comparison.AtSlot s (Akin E total A) (LikeBehind T (Akin E total A)) x x' →
            Comparison.AtSlot s R S x x') →
          SlotsAlike E R S (.descriptor c own) (.descriptor c own') := fun relates =>
        ⟨slots.has, slots.has', .slotted slot fields (content.imp relates)⟩
      cases kind : s.kind with
      | direct =>
        refine matched_postpone rest (only fun x x' held => ?_)
        unfold Comparison.AtSlot at held ⊢
        rwa [kind] at held ⊢
      | function m =>
        have behind : SlotsAlike E (fun _ _ => False) (LikeBehind T (Akin E total A))
            (.descriptor c own) (.descriptor c own') := only fun x x' held => by
          unfold Comparison.AtSlot at held ⊢
          rwa [kind] at held ⊢
        exact behind.fmap (fun _ _ => False.elim) fun _ _ => likeWithin_after rest
  | other same notList noSlot =>
    obtain rfl := Exchange.identical_iff.mp same
    by_cases ofClass : ∃ c own, d = .descriptor c own
    · obtain ⟨c, own, rfl⟩ := ofClass
      cases effect : c.isEffect with
      | false =>
        rw [postponeSlots_of_not_effect _ effect, postponeSlots_of_not_effect _ effect]
        exact .fail _
      | true =>
        obtain ⟨f, none⟩ := noSlot c own rfl
        rw [postponeSlots_of_effect _ effect, postponeSlots_of_effect _ effect]
        refine (Comparison.Matched.slotOf c).bind ?_
        rintro s _ ⟨rfl, slot⟩
        simp [none] at slot
    · have no_class : ∀ c own, d ≠ .descriptor c own := fun c own of => ofClass ⟨c, own, of⟩
      rw [postponeSlots_of_not_instance _ no_class, postponeSlots_of_not_instance _ no_class]
      exact matched_postpone rest ⟨slots.has, slots.has', .other same notList noSlot⟩

end

/-- **To iterate later.** -/
theorem akin_iterateLater {algebra target : Value} (ht : Akin E total A t t')
    (hp : PureTarget T A target) (ha : TreatsAlikeWithin E (LikeWithin T) algebra) :
    EndsLike T Eq (Tree.iterateLater limit algebra target t)
      (Tree.iterateLater limit algebra target t') := by
  refine (endsIn_iterateLater.eliminates hp ?_).endsLike rfl ht
  intro n d d' rest slots
  exact (matched_postponeSlots rest slots).bind fun e e' filled => ha n e e' filled

/-! ### Folds -/

/-- **The target goes on from the contents of its computations**: related computations come to the
same, bound to a function that comes to the same for akin trees, at each depth of calls. -/
def Sequences (E : Vocabulary T) (total : Prop) (A : Value → Prop) (M : Value → Value → Prop)
    (target : Value) : Prop :=
  ∀ n F m m', M m m' → SameWithin E total A F n →
    (identical T).Matched Eq (target.invoke (call n) .bind [m, F])
      (target.invoke limit .bind [m', F])

/-- **To fold** akin trees. -/
theorem akin_fold {M : Value → Value → Prop} {transform target : Value}
    (ht : Akin E total A t t') (hp : PureTarget T A target) (hs : Sequences E total A M target)
    (hf : TreatsAlike T (Holding E (Akin E total A)) M transform) :
    EndsLike T Eq (Tree.fold limit transform target t) (Tree.fold limit transform target t') := by
  refine (endsIn_fold.eliminates hp ?_).endsLike rfl ht
  intro n d d' rest slots
  have required : (identical T).Matched Eq (target.requireMember .bind)
      (target.requireMember .bind) := .requireMember (Exchange.identical_refl target) _
  have transformed := (hf d d' slots).follows.below (Machine.tends_limit _ _) n
  refine required.bind fun _ _ _ => transformed.bind fun m m' hm => ?_
  exact hs n _ m m' hm rest

/-- **To retract** akin trees, whose descriptors are computations of the target. -/
theorem akin_retract {target : Value} (ht : Akin E total A t t') (hp : PureTarget T A target)
    (hs : Sequences E total A (Holding E (Akin E total A)) target) :
    EndsLike T Eq (Tree.retract limit target t) (Tree.retract limit target t') := by
  refine akin_fold ht hp hs fun d d' slots => ?_
  rw [Machine.limit_frame, Machine.limit_frame]
  exact .pure slots

/-! ### The target of lists -/

theorem pureTarget_list : PureTarget T A (.target .list) where
  pure _ := .pure rfl
  empty := .pure rfl

/-- Lists, whatever their items are. -/
def Vocabulary.lists (T : ClassTable) : Vocabulary T where
  Has d := ∃ items, d = .list items
  refill := @Refills.isList T

/-- Lists are gone through in order. -/
theorem sequences_list :
    Sequences E total A (Holding (Vocabulary.lists T) (Akin E total A)) (.target .list) := by
  intro n F m m' slots same
  change (identical T).Matched Eq (Value.flatMapItems (call n) m F) (Value.flatMapItems limit m' F)
  unfold Value.flatMapItems
  cases slots.slots with
  | list each =>
    have part : ∀ x x', Akin E total A x x' → (identical T).Matched Eq
        (do (← call n F [x]).items) (do (← limit F [x']).items) := by
      intro x x' akin
      refine (same x x' akin).bind fun y y' eq => ?_
      obtain rfl := eq
      refine (Comparison.Matched.items (Exchange.identical_refl y)).imp fun xs ys related => ?_
      exact eq_of_forall₂ (related.imp fun _ _ => Exchange.identical_iff.mp)
    refine (Comparison.Matched.mapM each part).bind fun ps ps' eq => .pure ?_
    rw [eq_of_forall₂ eq]
  | slotted slot fields content => exact .fail _
  | other eq notList noSlot =>
    obtain ⟨items, rfl⟩ := slots.has
    exact absurd rfl (notList items)

end EffectTrees
