import EffectTrees.Proofs.Akin.Tree
import EffectTrees.Proofs.Depth.Operations
import EffectTrees.Proofs.Exchange.Machine

/-!
# Operations keep trees akin

An operation that goes through a tree works on what is at hand, and leaves the rest of the work for
later: behind function slots it goes on when the function is called. So what it makes of akin trees is
known to be akin as far as it has got, with functions behind function slots that go on from akin trees
(`Grown`). That these give akin trees in turn is the same statement once more.

The argument is made once, for families of frames that stand side by side (`Works`): one step of the
work is looked at, with the rest of the work, within a smaller depth of calls, in the place of an
induction hypothesis (`Works.endsLike`). With this

* to map and to bind (`akin_map`, `akin_bind`), to apply (`akin_ap`) and to hoist (`akin_hoist`)
  keep trees akin.

To apply one tree to another, the payload of a finished tree is computed only if the other tree has
not failed. So this is for trees whose payloads do come to a value or to nothing.
-/

namespace EffectTrees

open Machine (limit call)
open Act (EndsLike)
open Comparison (identical)

variable {T : ClassTable} {E E' : Vocabulary T} {total : Prop} {A B C : Value → Prop}
  {P : Value → Value → Prop} {Z : Frame → Frame → Prop} {k k' : Frame} {d d' f t t' u u' : Value}
  {n : Nat} {α : Type}

/-! ### Callbacks -/

/-- **The function treats related values alike**: it ends alike for them, with related values. For
one value, this says that it depends on nothing else. -/
def TreatsAlike (T : ClassTable) (Q R : Value → Value → Prop) (f : Value) : Prop :=
  ∀ x x', Q x x' → EndsLike T R (limit f [x]) (limit f [x'])

/-- **A quiet function is pure**: it treats equal values alike, and gives a quiet value for a quiet
one. -/
theorem treatsAlike_quiet (hf : Quiet f) : TreatsAlike T (SameOf Quiet) (SameOf Quiet) f := by
  rintro v _ ⟨rfl, hv⟩
  have called : (Comparison.quiet T).Matched Exchange.nothing.Rel (limit f [v]) (limit f [v]) :=
    Comparison.callers_quiet T f f [v] [v] hf (.cons hv .nil)
  have ends : EndsLike T Exchange.nothing.Rel (limit f [v]) (limit f [v]) :=
    .of_unobserved called called id id rfl
  refine ends.imp fun y y' same => ?_
  obtain rfl := Exchange.eq_of_nothing same
  exact ⟨rfl, same⟩

/-! ### Leaves -/

/-- What is made of outcomes that are the same. -/
theorem Act.EndsLike.bind_outcome {a b : Act (Option Value)} {Q : α → α → Prop}
    {h h' : Option Value → Act α} (alike : EndsLike T (Option.Rel (SameOf A)) a b)
    (some : ∀ v, A v → EndsLike T Q (h (.some v)) (h' (.some v)))
    (none : EndsLike T Q (h .none) (h' .none)) : EndsLike T Q (a >>= h) (b >>= h') := by
  refine alike.bind fun r r' same => ?_
  cases same with
  | @some v _ same =>
    obtain ⟨rfl, hv⟩ := same
    exact some v hv
  | none => exact none

/-- The trees that are made on probation are akin if they are. -/
theorem akin_guarded {a b : Act Value} (h : EndsLike T (Akin E total A) a b) :
    EndsLike T (Akin E total A) (guarded a) (guarded b) := by
  refine (h.probe fun _ _ => Akin.isPoison_eq).bind fun r r' related => .pure ?_
  cases related with
  | some akin => exact akin
  | none => exact .failed

/-- To finish with what a function gives. -/
theorem akin_finish {v : Value} (hf : TreatsAlike T (SameOf A) (SameOf B) f) (hv : A v) :
    EndsLike T (Akin E total B) (guarded do return .tree (Tree.pure (← limit f [v])))
      (guarded do return .tree (Tree.pure (← limit f [v]))) := by
  refine akin_guarded ((hf v v ⟨rfl, hv⟩).bind fun y y' same => .pure ?_)
  obtain ⟨rfl, hy⟩ := same
  exact .pure hy

/-! ### Work on akin trees -/

/-- Trees that are akin as far as they have been gone through, with functions behind function slots
that are related by `P`. -/
inductive Grown (E : Vocabulary T) (total : Prop) (A : Value → Prop) (P : Value → Value → Prop) :
    Value → Value → Prop where
  | akin {t u : Value} (h : Akin E total A t u) : Grown E total A P t u
  | suspended {C : Value → Value → Prop} {d d' : Value}
      (contents : ∀ x y, C x y → Grown E total A P x y) (slots : SlotsAlike E C P d d') :
      Grown E total A P (.tree (.suspended d)) (.tree (.suspended d'))

/-- If the functions give such trees, the trees are akin. -/
theorem Grown.to_akin (behind : ∀ g g', P g g' → LikeBehind T (Grown E total A P) g g')
    (h : Grown E total A P t u) : Akin E total A t u := by
  -- What has been gone through and what has not are in one relation that justifies itself.
  refine ⟨Grown E total A P, ?_, h⟩
  intro t u h
  cases h with
  | akin h => exact h.step.mono fun _ _ => .akin
  | suspended contents slots => exact .suspended (slots.mono contents behind)

/-- The functions go on, by frames of the family, from functions that give akin trees. -/
inductive GoesOn (E : Vocabulary T) (total : Prop) (A : Value → Prop) (Z : Frame → Frame → Prop) :
    Value → Value → Prop where
  | after {k k' : Frame} {g g' : Value} (frames : Z k k')
      (like : LikeBehind T (Akin E total A) g g') :
      GoesOn E total A Z (.function (.after (.frame k) g)) (.function (.after (.frame k') g'))

/-- What frames of the family make of akin trees with results of the kind `A`, as far as is known:
trees with results of the kind `B`. -/
abbrev WorkedOn (E E' : Vocabulary T) (total : Prop) (A B : Value → Prop)
    (Z : Frame → Frame → Prop) : Value → Value → Prop := Grown E' total B (GoesOn E total A Z)

/-- Within so many calls, frames of the family make such trees of akin trees. -/
def WorksWithin (E E' : Vocabulary T) (total : Prop) (A B : Value → Prop)
    (Z : Frame → Frame → Prop) (n : Nat) : Prop :=
  ∀ k k', Z k k' → ∀ t t', Akin E total A t t' →
    (identical T).Matched (WorkedOn E E' total A B Z) (call n (.frame k) [t])
      (limit (.frame k') [t'])

/-- **Frames that work on akin trees side by side**, if the rest of the work, within fewer calls, is
done side by side. -/
structure Works (E E' : Vocabulary T) (total : Prop) (A B : Value → Prop)
    (Z : Frame → Frame → Prop) : Prop where
  symm {k k' : Frame} (frames : Z k k') : Z k' k
  step {k k' : Frame} {n : Nat} {t t' : Value} (frames : Z k k')
    (rest : WorksWithin E E' total A B Z n) (akin : Akin E total A t t') :
    (identical T).Matched (WorkedOn E E' total A B Z) (k.run (call n) t) (k'.run limit t')

namespace Works

theorem within (works : Works E E' total A B Z) (n : Nat) : WorksWithin E E' total A B Z n := by
  induction n with
  | zero => exact fun _ _ _ _ _ _ => .tooDeep
  | succ n ih =>
    intro k k' frames t t' akin
    rw [Machine.call_succ, Machine.limit_frame]
    exact works.step frames ih akin

/-- **The work keeps trees akin.** -/
theorem endsLike (works : Works E E' total A B Z) (frames : Z k k') (akin : Akin E total A t t') :
    EndsLike T (Akin E' total B) (limit (.frame k) [t]) (limit (.frame k') [t']) := by
  have grown : ∀ k k', Z k k' → ∀ t t', Akin E total A t t' →
      EndsLike T (WorkedOn E E' total A B Z) (limit (.frame k) [t]) (limit (.frame k') [t']) := by
    intro k k' frames t t' akin
    -- Each side follows the other one within every depth of calls, and so without a bound.
    exact .of_matched
      (.of_tends (fun n => works.within n k k' frames t t' akin) (Machine.tends_limit _ _))
      (.of_tends (fun n => works.within n k' k (works.symm frames) t' t akin.symm)
        (Machine.tends_limit _ _))
  refine (grown k k' frames t t' akin).imp fun _ _ h => h.to_akin ?_
  rintro _ _ ⟨frames, like⟩ args
  rw [Machine.limit_after, Machine.limit_after]
  exact (like args).bind (grown _ _ frames)

end Works

/-- What is done without a bound on calls is done within one. -/
theorem works_of_endsLike (t t' : Value)
    (h : EndsLike T (Akin E' total B) (k.run limit t) (k'.run limit t')) :
    (identical T).Matched (WorkedOn E E' total A B Z) (k.run (call n) t) (k'.run limit t') :=
  (h.follows.imp fun _ _ => .akin).below
    (Frame.respects_run (R := Act.convergence) Machine.tends_limit k t) n

/-- To work on the slots of descriptors. -/
theorem works_suspended (frames : Z k k') (rest : WorksWithin E E' total A B Z n)
    (slots : Holding E' (Akin E total A) d d') :
    (identical T).Matched (WorkedOn E E' total A B Z)
      (do return .tree (.suspended (← fmap (call n) d (.frame k))))
      (do return .tree (.suspended (← fmap limit d' (.frame k')))) :=
  (slots.fmap (rest k k' frames) fun _ _ => .after frames).bind fun _ _ filled =>
    .pure (.suspended (fun _ _ => id) filled)

/-! ### Mapping and binding -/

theorem Tree.IsLeaf.map_eq {t : Tree} (leaf : t.IsLeaf) (call : Caller) (f : Value) :
    t.map call f = t.outcome call >>= fun r =>
      match r with
      | some v => guarded do return .tree (Tree.pure (← call f [v]))
      | none => return .tree .failed := by
  cases leaf <;> rfl

theorem Tree.IsLeaf.bind_eq {t : Tree} (leaf : t.IsLeaf) (call : Caller) (f : Value) :
    t.bind call f = t.outcome call >>= fun r =>
      match r with
      | some v => guarded (call f [v])
      | none => return .tree .failed := by
  cases leaf <;> rfl

/-- One frame alone. -/
abbrev Only (k : Frame) : Frame → Frame → Prop := fun l l' => l = k ∧ l' = k

/-- **To map** over akin trees. -/
theorem works_map (hf : TreatsAlike T (SameOf A) (SameOf B) f) :
    Works E E total A B (Only (.map f)) where
  symm frames := ⟨frames.2, frames.1⟩
  step := by
    rintro _ _ n t t' ⟨rfl, rfl⟩ rest akin
    cases akin.step with
    | poison => exact .abort
    | @leaf t t' left right alike _ =>
      refine works_of_endsLike (.tree t) (.tree t') ?_
      change EndsLike T _ (t.map limit f) (t'.map limit f)
      rw [left.map_eq, right.map_eq]
      exact alike.bind_outcome (fun v hv => akin_finish hf hv) (.pure .failed)
    | suspended slots => exact works_suspended ⟨rfl, rfl⟩ rest slots

theorem akin_map (ht : Akin E total A t t') (hf : TreatsAlike T (SameOf A) (SameOf B) f) :
    EndsLike T (Akin E total B) (t.invoke limit .map [f]) (t'.invoke limit .map [f]) := by
  have mapped := (works_map hf).endsLike ⟨rfl, rfl⟩ ht
  rwa [Machine.limit_frame, Machine.limit_frame] at mapped

/-- **To bind** akin trees. -/
theorem works_bind (hf : TreatsAlike T (SameOf A) (Akin E total B) f) :
    Works E E total A B (Only (.bind f)) where
  symm frames := ⟨frames.2, frames.1⟩
  step := by
    rintro _ _ n t t' ⟨rfl, rfl⟩ rest akin
    cases akin.step with
    | poison => exact .abort
    | @leaf t t' left right alike _ =>
      refine works_of_endsLike (.tree t) (.tree t') ?_
      change EndsLike T _ (t.bind limit f) (t'.bind limit f)
      rw [left.bind_eq, right.bind_eq]
      exact alike.bind_outcome (fun v hv => akin_guarded (hf v v ⟨rfl, hv⟩)) (.pure .failed)
    | suspended slots => exact works_suspended ⟨rfl, rfl⟩ rest slots

theorem akin_bind (ht : Akin E total A t t') (hf : TreatsAlike T (SameOf A) (Akin E total B) f) :
    EndsLike T (Akin E total B) (t.invoke limit .bind [f]) (t'.invoke limit .bind [f]) := by
  have bound := (works_bind hf).endsLike ⟨rfl, rfl⟩ ht
  rwa [Machine.limit_frame, Machine.limit_frame] at bound

/-! ### Applying -/

/-- To apply what one leaf comes to to what another one comes to. -/
noncomputable def applied : Option Value → Option Value → Act Value
  | some f, some v => guarded do return .tree (Tree.pure (← limit f [v]))
  | _, _ => return .tree .failed

/-- A leaf that answers is applied to another one, whether or not its payload is computed. -/
theorem Tree.IsLeaf.ap_leaf {t u : Tree} {r s : Option Value} {Q : Value → Value → Prop}
    {b : Act Value} (ht : t.IsLeaf) (hu : u.IsLeaf) (hr : (t.outcome limit).Yields T r)
    (hs : (u.outcome limit).Yields T s) (h : EndsLike T Q (applied r s) b) :
    EndsLike T Q (t.ap limit (.tree u)) b := by
  have nothing : ((Tree.failed).outcome limit).Yields T none := Act.yields_pure _
  cases ht with
  | failed =>
    obtain rfl := nothing.unique hr
    exact h
  | done p =>
    cases hu with
    | failed =>
      obtain rfl := nothing.unique hs
      cases r <;> exact h
    | done q =>
      refine .start hr (.start hs ?_)
      revert h
      cases r <;> cases s <;> exact id

theorem Tree.IsLeaf.ap_suspended {t : Tree} (leaf : t.IsLeaf) (call : Caller) (d : Value) :
    t.ap call (.tree (.suspended d)) = t.outcome call >>= fun r =>
      match r with
      | some f => (Value.tree (.suspended d)).invoke call .map [f]
      | none => return .tree .failed := by
  cases leaf <;> rfl

theorem Tree.IsLeaf.ap_poison {t : Tree} (leaf : t.IsLeaf) (call : Caller) :
    t.ap call .poison = Pure.pure (.tree .failed) := by
  cases leaf <;> rfl

/-- Frames that apply the functions that a tree results in to akin trees. -/
inductive Applies (E : Vocabulary T) (total : Prop) (A : Value → Prop) : Frame → Frame → Prop where
  | ap {u u' : Value} (akin : Akin E total A u u') : Applies E total A (.ap u) (.ap u')

/-- **To apply** akin trees to akin trees. -/
theorem works_ap (yes : total) (hC : ∀ f, C f → TreatsAlike T (SameOf A) (SameOf B) f) :
    Works E E total C B (Applies E total A) where
  symm := by
    rintro _ _ ⟨akin⟩
    exact .ap akin.symm
  step := by
    rintro _ _ n t t' ⟨hu⟩ rest akin
    cases akin.step with
    | poison => exact .abort
    | @leaf t t' left right alike answers =>
      refine works_of_endsLike (.tree t) (.tree t') ?_
      change EndsLike T _ (t.ap limit _) (t'.ap limit _)
      obtain ⟨r, hr⟩ := answers yes
      have hr' := alike.yields (fun _ _ => eq_of_sameOf) hr
      cases hu.step with
      | poison =>
        rw [left.ap_poison, right.ap_poison]
        exact .pure .failed
      | @leaf u u' left' right' alike' answers' =>
        obtain ⟨s, hs⟩ := answers' yes
        have hs' := alike'.yields (fun _ _ => eq_of_sameOf) hs
        have kinds := alike.related hr hr'
        have kinds' := alike'.related hs hs'
        -- All four payloads answer, so it does not matter which of them are computed.
        have same : EndsLike T (Akin E total B) (applied r s) (applied r s) := by
          cases kinds with
          | none => exact .pure .failed
          | some hf =>
            cases kinds' with
            | none => exact .pure .failed
            | some hv => exact akin_finish (hC _ hf.2) hv.2
        exact left.ap_leaf left' hr hs (right.ap_leaf right' hr' hs' same.symm).symm
      | suspended slots =>
        rw [left.ap_suspended, right.ap_suspended]
        exact alike.bind_outcome (fun f hf => akin_map hu (hC f hf)) (.pure .failed)
    | suspended slots => exact works_suspended (.ap hu) rest slots

theorem akin_ap (yes : total) (ht : Akin E total C t t') (hu : Akin E total A u u')
    (hC : ∀ f, C f → TreatsAlike T (SameOf A) (SameOf B) f) :
    EndsLike T (Akin E total B) (t.invoke limit .ap [u]) (t'.invoke limit .ap [u']) := by
  have applied := (works_ap yes hC).endsLike (.ap hu) ht
  rwa [Machine.limit_frame, Machine.limit_frame] at applied

/-! ### Hoisting -/

/-- **To hoist** over akin trees. The transformation may rewrite one vocabulary into another. -/
theorem works_hoist
    (hf : TreatsAlike T (Holding E (Akin E total A)) (Holding E' (Akin E total A)) f) :
    Works E E' total A A (Only (.hoist f)) where
  symm frames := ⟨frames.2, frames.1⟩
  step := by
    rintro _ _ n t t' ⟨rfl, rfl⟩ rest akin
    cases akin.step with
    | poison => exact .pure (.akin .poison)
    | @leaf t t' left right alike answers =>
      have leaves : ∀ {t : Tree} (call : Caller), t.IsLeaf →
          Tree.hoist call f (.tree t) = pure (.tree t) := by
        rintro t call (_ | _) <;> rfl
      change (identical T).Matched _ (Tree.hoist _ f _) (Tree.hoist limit f _)
      rw [leaves _ left, leaves _ right]
      exact .pure (.akin (.leaf left right alike answers))
    | suspended slots =>
      -- The descriptors are rewritten first, so the work goes on in the slots of what is rewritten.
      have rewritten := (hf _ _ slots).follows.below (Machine.tends_limit _ _) n
      exact rewritten.bind fun e e' slots' => works_suspended ⟨rfl, rfl⟩ rest slots'

theorem akin_hoist (ht : Akin E total A t t')
    (hf : TreatsAlike T (Holding E (Akin E total A)) (Holding E' (Akin E total A)) f) :
    EndsLike T (Akin E' total A) (Tree.hoist limit f t) (Tree.hoist limit f t') := by
  have hoisted := (works_hoist hf).endsLike ⟨rfl, rfl⟩ ht
  rwa [Machine.limit_frame, Machine.limit_frame] at hoisted

end EffectTrees
