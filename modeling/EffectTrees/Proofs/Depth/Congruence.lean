import EffectTrees.Proofs.Depth.Convergence

/-!
# Relations that operations respect

What an operation does under several meanings of calls can be compared with what it does under one.
A `Congruence` is such a comparison, of a family of computations with a single one, that holds of
anything that calls nothing and passes from the parts of a sequence to the sequence, and from a
computation to its probation. Operations are made of these parts, so if the meanings of calls are
related, what an operation does under them is related too; module `Proofs.Depth.Operations` goes
through the operations once for all comparisons.

* `Act.convergence` — the family converges, as the depth of calls grows.
-/

namespace EffectTrees

/-- **A relation of families of computations to computations** that sequences and probations
respect. -/
structure Congruence (ι : Type) where
  Rel {α : Type} : (ι → Act α) → Act α → Prop
  const {α : Type} (a : Act α) : Rel (fun _ => a) a
  seq {α β : Type} {as : ι → Act α} {a : Act α} {fs : ι → α → Act β} {f : α → Act β} :
    Rel as a → (∀ x, Rel (fun i => fs i x) (f x)) → Rel (fun i => as i >>= fs i) (a >>= f)
  probation {as : ι → Act Value} {a : Act Value} :
    Rel as a → Rel (fun i => probe (as i)) (probe a)

namespace Congruence

variable {ι α β : Type} {R : Congruence ι}

/-- The meanings of calls are related, call by call. -/
def Callers (R : Congruence ι) (cs : ι → Caller) (c : Caller) : Prop :=
  ∀ f args, R.Rel (fun i => cs i f args) (c f args)

theorem Rel.bind {as : ι → Act α} {a : Act α} {fs : ι → α → Act β} {f : α → Act β}
    (ha : R.Rel as a) (hf : ∀ x, R.Rel (fun i => fs i x) (f x)) :
    R.Rel (fun i => as i >>= fs i) (a >>= f) :=
  R.seq ha hf

theorem Rel.probe {as : ι → Act Value} {a : Act Value} (ha : R.Rel as a) :
    R.Rel (fun i => EffectTrees.probe (as i)) (EffectTrees.probe a) :=
  R.probation ha

theorem Rel.mapM {γ : Type} {fs : ι → γ → Act β} {f : γ → Act β}
    (hf : ∀ x, R.Rel (fun i => fs i x) (f x)) (xs : List γ) :
    R.Rel (fun i => xs.mapM (fs i)) (xs.mapM f) := by
  induction xs with
  | nil => exact R.const _
  | cons x xs ih =>
    simp only [List.mapM_cons]
    exact (hf x).bind fun _ => ih.bind fun _ => R.const _

end Congruence

/-- Convergence is a congruence. -/
def Act.convergence : Congruence Nat where
  Rel := Act.Tends
  const := Act.tends_const
  seq := Act.Tends.bind
  probation := Act.Tends.probe

end EffectTrees
