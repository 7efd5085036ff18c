import EffectTrees.Proofs.Depth.Convergence
import EffectTrees.Proofs.Descriptor.Replace
import EffectTrees.Proofs.Exchange.Shape
import EffectTrees.Machine

/-!
# Runs that are the same but for the functions in what they give

Two computations *run the same* (`Act.SameRun`) if in every world both end or neither does, with the
same signal or with related values, and leave the very same world behind. What is logged, registered
and asked for is in the world, so nothing that one of them does on the way is missing in the other.

Values are *twins* (`Twin`) if they are built alike, as trees, lists and descriptors are, and differ
only in functions in them that run the same, whatever their arguments, and give twins again. A tree
may go on behind its functions without an end, so the relation is the greatest one of its kind: it
is enough to name the functions in question and to justify them by each other.

* `Act.SameRun.bind`, `Act.SameRun.mapM`, `Act.SameRun.limit` — what runs the same is closed under
  sequences and limits.
* `sameRun_fmap` — to map over the slots of one descriptor in two ways that run the same gives
  descriptors that are built alike.
-/

namespace EffectTrees

variable {α β γ δ : Type}

/-! ### Runs -/

namespace Act

/-- The same signal or related values, and the same world. -/
inductive SameOutcome (R : α → β → Prop) :
    Except Signal α × World → Except Signal β × World → Prop where
  | ok {x : α} {y : β} (related : R x y) (w : World) : SameOutcome R (.ok x, w) (.ok y, w)
  | error (s : Signal) (w : World) : SameOutcome R (.error s, w) (.error s, w)

/-- **The computations run the same** in every world, and give related values. -/
def SameRun (R : α → β → Prop) (a : Act α) (b : Act β) : Prop :=
  ∀ w, Option.Rel (SameOutcome R) (a.runIn w) (b.runIn w)

namespace SameRun

variable {R : α → β → Prop} {S : γ → δ → Prop} {a : Act α} {b : Act β}

theorem imp {R' : α → β → Prop} (h : SameRun R a b) (hR : ∀ x y, R x y → R' x y) :
    SameRun R' a b := fun w => (h w).imp fun _ _ same => by
  cases same with
  | ok related w => exact .ok (hR _ _ related) w
  | error s w => exact .error s w

theorem pure {x : α} {y : β} (h : R x y) : SameRun R (pure x) (pure y) :=
  fun w => .some (.ok h w)

/-- A computation runs like itself. -/
theorem refl {R : α → α → Prop} (h : ∀ x, R x x) (a : Act α) : SameRun R a a := by
  intro w
  match a.runIn w with
  | none => exact .none
  | some (.ok x, w') => exact .some (.ok (h x) w')
  | some (.error s, w') => exact .some (.error s w')

theorem bind {f : α → Act γ} {g : β → Act δ} (h : SameRun R a b)
    (rest : ∀ x y, R x y → SameRun S (f x) (g y)) : SameRun S (a >>= f) (b >>= g) := by
  intro w
  rw [runIn_bind, runIn_bind]
  rcases (h w).both with ⟨ha, hb⟩ | ⟨_, _, ha, hb, same⟩
  · rw [ha, hb]
    exact .none
  · rw [ha, hb]
    cases same with
    | ok related w' => exact rest _ _ related w'
    | error s w' => exact .some (.error s w')

/-- One and the same computation, followed by what runs the same. -/
theorem start {f : α → Act γ} {g : α → Act δ} (a : Act α)
    (rest : ∀ x, SameRun S (f x) (g x)) : SameRun S (a >>= f) (a >>= g) :=
  (refl (R := Eq) (fun _ => rfl) a).bind fun x _ same => same ▸ rest x

theorem mapM {ι : Type} {f : ι → Act α} {g : ι → Act β} (h : ∀ i, SameRun R (f i) (g i))
    (l : List ι) : SameRun (List.Forall₂ R) (l.mapM f) (l.mapM g) := by
  induction l with
  | nil => exact pure .nil
  | cons i l ih =>
    rw [List.mapM_cons, List.mapM_cons]
    exact (h i).bind fun x y head => ih.bind fun xs ys rest => pure (.cons head rest)

/-- Limits run the same if all members of the sequences do. -/
theorem limit {as : Nat → Act α} {bs : Nat → Act β} (ha : Tends as a) (hb : Tends bs b)
    (each : ∀ n, SameRun R (as n) (bs n)) : SameRun R a b := by
  intro w
  obtain ⟨-, N, hN⟩ := ha w
  obtain ⟨-, M, hM⟩ := hb w
  rw [← hN (max N M) (by omega), ← hM (max N M) (by omega)]
  exact each _ w

end SameRun

end Act

open Act (SameRun)

/-! ### Values -/

/-- The values are built alike, and differ in functions that are related by `B` only. -/
inductive UpTo (B : Function → Function → Prop) : Value → Value → Prop where
  | same (v : Value) : UpTo B v v
  | function {g g' : Function} (related : B g g') : UpTo B (.function g) (.function g')
  | suspended {d d' : Value} (descriptor : UpTo B d d') :
      UpTo B (.tree (.suspended d)) (.tree (.suspended d'))
  | list {vs vs' : List Value} (items : List.Forall₂ (UpTo B) vs vs') :
      UpTo B (.list vs) (.list vs')
  | descriptor (c : ClassRef) {R : Value → Value → Prop} {own own' : List (String × Value)}
      (sub : ∀ v v', R v v' → UpTo B v v') (fields : List.Forall₂ (Named R) own own') :
      UpTo B (.descriptor c own) (.descriptor c own')

/-- **Values that differ in functions only which run the same**, and give such values again. -/
def Twin (call : Caller) (v v' : Value) : Prop :=
  ∃ B : Function → Function → Prop, UpTo B v v' ∧ ∀ g g', B g g' →
    ∀ args, SameRun (UpTo B) (call (.function g) args) (call (.function g') args)

variable {call c c' : Caller} {B : Function → Function → Prop}

/-! ### Descriptors -/

/-- Copies with related values under the same names. -/
theorem Instance.named_copyWith {R : Value → Value → Prop} (refl : ∀ v, R v v) (t : ClassTable)
    (cls : ClassRef) (names : List String) {value value' : String → Value}
    (h : ∀ n, R (value n) (value' n)) :
    List.Forall₂ (Named R) (copyWith t cls names value) (copyWith t cls names value') := by
  unfold copyWith
  induction t.givenFields cls.id with
  | nil => exact .nil
  | cons f fs ih =>
    rw [List.filterMap_cons, List.filterMap_cons]
    by_cases named : f.name ∈ names
    · simp only [named, if_true, Option.some_or, Option.map_some]
      exact .cons ⟨rfl, h f.name⟩ ih
    · -- The field has its default, if it has one, in both copies.
      simp only [named, if_false, Option.none_or]
      cases f.default with
      | none => exact ih
      | some s => exact .cons ⟨rfl, refl _⟩ ih

/-- A copy of an instance with one member changed to either of two values that are alike. -/
theorem sameRun_replace (cls : ClassRef) (own : List (String × Value)) (name : String) {x y : Value}
    (h : UpTo B x y) :
    SameRun (UpTo B) (Instance.replace cls own name x) (Instance.replace cls own name y) := by
  intro w
  rw [Instance.runIn_replace, Instance.runIn_replace]
  unfold Instance.replaced
  -- Whether there is a copy does not depend on the value.
  cases Instance.copyNames w.classes cls own name with
  | error f => exact .some (.error _ w)
  | ok names =>
    refine .some (.ok (.descriptor cls (fun _ _ => id)
      (Instance.named_copyWith .same _ _ _ fun n => ?_)) w)
    unfold Instance.copyValue
    by_cases changed : n = name
    · rw [if_pos changed, if_pos changed]
      exact h
    · rw [if_neg changed, if_neg changed]
      exact .same _

/-- **To map over the slots** of a descriptor in two ways that run the same on contents, and that
are related as functions behind the function of a function slot. -/
theorem sameRun_fmap {k k' : Value}
    (content : ∀ x, SameRun (UpTo B) (c k [x]) (c' k' [x]))
    (behind : ∀ g, B (.after k g) (.after k' g)) (d : Value) :
    SameRun (UpTo B) (fmap c d k) (fmap c' d k') := by
  cases d with
  | list items =>
    exact (SameRun.mapM content items).bind fun vs vs' related => .pure (.list related)
  | descriptor cls own =>
    unfold fmap
    dsimp only
    by_cases effect : cls.isEffect
    · rw [if_pos effect, if_pos effect]
      refine SameRun.start _ fun s => SameRun.start _ fun v => ?_
      cases s.kind with
      | direct => exact (content v).bind fun x y related => sameRun_replace cls own s.name related
      | function n => exact sameRun_replace cls own s.name (.function (behind v))
    · rw [if_neg effect, if_neg effect]
      exact .refl .same _
  | _ => exact .refl .same _

end EffectTrees
