import EffectTrees.Proofs.Akin.Operations
import EffectTrees.Proofs.Builder.Refinement

/-!
# Builders keep trees akin

A builder binds its queue of functions where a tree is finished. What a leaf comes to decides which
builder to go on with (`Builder.continued`), so leaves that come to the same go on with the same
queue. A function that is bound treats equal results alike: it gives akin trees, or builders of akin
trees with the same functions pending, which are of the same kind (`AkinContinuation`).

To materialize a queue is one more family of frames that work on akin trees side by side, with a
queue that changes on the way (`works_materialize`).
-/

namespace EffectTrees

open Machine (limit call)
open Act (EndsLike)
open Comparison (identical)

variable {T : ClassTable} {E : Vocabulary T} {total : Prop} {A P Q : Value → Prop}
  {f t t' x x' : Value} {fs : List Value}

/-! ### Continuations -/

/-- What a function that is bound to a builder may give for the same result: akin trees, or builders
of akin trees with the same functions pending. -/
inductive AkinReturn (E : Vocabulary T) (total : Prop) (A P : Value → Prop) :
    Value → Value → Prop where
  | tree {t t' : Value} (akin : Akin E total A t t') : AkinReturn E total A P t t'
  | builder {t t' : Value} {fs : List Value} (akin : Akin E total A t t')
      (pending : ∀ f ∈ fs, P f) : AkinReturn E total A P (.builder (.mk t fs)) (.builder (.mk t' fs))

/-- **The function treats equal results alike**, and so do the functions that are pending in what it
gives. -/
def AkinContinuation (E : Vocabulary T) (total : Prop) (A : Value → Prop) (f : Value) : Prop :=
  ∃ P : Value → Prop, (∀ g, P g → TreatsAlike T (SameOf A) (AkinReturn E total A P) g) ∧ P f

namespace AkinReturn

theorem mono (hPQ : ∀ f, P f → Q f) (h : AkinReturn E total A P x x') :
    AkinReturn E total A Q x x' := by
  cases h with
  | tree akin => exact .tree akin
  | builder akin pending => exact .builder akin fun f mem => hPQ f (pending f mem)

theorem isPoison_eq (h : AkinReturn E total A P x x') : x.isPoison = x'.isPoison := by
  cases h with
  | tree akin => exact akin.isPoison_eq
  | builder _ _ => rfl

end AkinReturn

theorem AkinContinuation.step (h : AkinContinuation E total A f) :
    TreatsAlike T (SameOf A) (AkinReturn E total A (AkinContinuation E total A)) f := by
  obtain ⟨P, closed, hf⟩ := h
  intro v v' same
  exact (closed f hf v v' same).imp fun _ _ returned =>
    returned.mono fun g hg => ⟨P, closed, hg⟩

/-! ### Going on from a leaf -/

/-- The builders are of akin trees, with the same functions pending, which are of the kind `P`. -/
structure AkinBuilders (E : Vocabulary T) (total : Prop) (A P : Value → Prop) (b b' : Builder) :
    Prop where
  tree : Akin E total A b.tree b'.tree
  same : b'.pending = b.pending
  pending : ∀ f ∈ b.pending, P f

namespace Builder

/-- The builder that a function makes of what a leaf comes to, unless there is none. -/
def continued (call : Caller) (f : Value) : Option Value → Act (Option Builder)
  | none => Pure.pure none
  | some v => do
    match ← probe (call f [v]) with
    | none => Pure.pure none
    | some (.tree t) => Pure.pure (some (of (.tree t)))
    | some (.builder b) => Pure.pure (some b)
    | some other => Act.refuse .builderOrTree other

theorem materialize_leaf {t : Tree} (leaf : t.IsLeaf) (call : Caller) (f : Value)
    (rest : List Value) :
    materialize call (f :: rest) (.tree t) =
      (t.outcome call >>= continued call f) >>= fun r =>
        match r with
        | none => Pure.pure (.tree .failed)
        | some b => call (.frame (.materialize (b.queueBefore rest))) [b.tree] := by
  cases leaf <;> rfl

theorem tends_continued {t : Tree} (leaf : t.IsLeaf) (f : Value) :
    Act.Tends (fun n => t.outcome (call n) >>= continued (call n) f)
      (t.outcome limit >>= continued limit f) := by
  cases leaf with
  | done p => exact tends_next Machine.tends_limit p f
  | failed => exact Act.tends_const _

/-- What a function gives for the same result are builders to go on with that are akin. -/
theorem continued_endsLike (hf : TreatsAlike T (SameOf A) (AkinReturn E total A P) f) {v : Value}
    (hv : A v) :
    EndsLike T (Option.Rel (AkinBuilders E total A P)) (continued limit f (some v))
      (continued limit f (some v)) := by
  have given := (hf v v ⟨rfl, hv⟩).probe fun _ _ => AkinReturn.isPoison_eq
  refine given.bind fun r r' returned => ?_
  cases returned with
  | none => exact .pure .none
  | some returned =>
    cases returned with
    | builder akin pending => exact .pure (.some ⟨akin, rfl, pending⟩)
    | tree akin =>
      cases akin.step with
      | poison =>
        -- It is no outcome of a probation, but if it were it would be refused on both sides.
        have refused : (identical T).Matched (Option.Rel (AkinBuilders E total A P))
            (Act.refuse .builderOrTree .poison) (Act.refuse .builderOrTree .poison) :=
          .refuse _ (Exchange.identical_refl _)
        exact .of_matched refused refused
      | leaf _ _ _ _ => exact .pure (.some ⟨akin, rfl, nofun⟩)
      | suspended _ => exact .pure (.some ⟨akin, rfl, nofun⟩)

end Builder

/-! ### Materializing -/

/-- To materialize one queue of functions of the kind `P`. -/
inductive Materializes (P : Value → Prop) : Frame → Frame → Prop where
  | queue {fs : List Value} (all : ∀ f ∈ fs, P f) :
      Materializes P (.materialize fs) (.materialize fs)

/-- **To materialize** queues on akin trees. -/
theorem works_materialize
    (hP : ∀ f, P f → TreatsAlike T (SameOf A) (AkinReturn E total A P) f) :
    Works E E total A A (Materializes P) where
  symm := by
    rintro _ _ ⟨all⟩
    exact .queue all
  step := by
    rintro _ _ n t t' ⟨all⟩ rest akin
    rename_i queue
    change (identical T).Matched _ (Builder.materialize _ queue t) (Builder.materialize _ queue t')
    cases queue with
    | nil => exact .pure (.akin akin)
    | cons f fs =>
      cases akin.step with
      | poison => exact .pure (.akin akin)
      | suspended slots => exact works_suspended (.queue all) rest slots
      | @leaf t t' left right alike _ =>
        rw [Builder.materialize_leaf left, Builder.materialize_leaf right]
        have going : EndsLike T (Option.Rel (AkinBuilders E total A P))
            (t.outcome limit >>= Builder.continued limit f)
            (t'.outcome limit >>= Builder.continued limit f) := by
          refine alike.bind_outcome (fun v hv => ?_) (.pure .none)
          exact Builder.continued_endsLike (hP f (all f List.mem_cons_self)) hv
        refine (going.follows.below (Builder.tends_continued left f) n).bind fun r r' builders => ?_
        cases builders with
        | none => exact .pure (.akin .failed)
        | @some b b' builders =>
          -- The queue of the new builder is the same on both sides.
          have same : b'.queueBefore fs = b.queueBefore fs := by
            unfold Builder.queueBefore
            rw [builders.same]
          dsimp only
          rw [same]
          refine rest _ _ (.queue fun g mem => ?_) _ _ builders.tree
          rcases List.mem_append.mp mem with mem | mem
          · exact builders.pending g (List.mem_reverse.mp mem)
          · exact all g (List.mem_cons_of_mem f mem)

/-- **To build** builders of akin trees, with the same functions bound to them, gives akin trees. -/
theorem akin_build (ht : Akin E total A t t') (hfs : ∀ f ∈ fs, AkinContinuation E total A f) :
    EndsLike T (Akin E total A) ((fs.foldl Builder.bind (.of t)).build limit)
      ((fs.foldl Builder.bind (.of t')).build limit) := by
  have works : Works E E total A A (Materializes (AkinContinuation E total A)) :=
    works_materialize fun f hf => hf.step
  have materialized := works.endsLike (.queue hfs) ht
  rw [Machine.limit_frame, Machine.limit_frame] at materialized
  rw [Builder.build_foldl_bind, Builder.build_foldl_bind]
  exact materialized

end EffectTrees
