import EffectTrees.Proofs.Act.Ending
import EffectTrees.Proofs.Exchange.Descriptor

/-!
# Computations that end alike

A computation that does not depend on what has been written ends in the same way from all worlds that
have the same classes. So two such computations can be compared by how they end, whatever else there
is in the worlds that they start from (`Act.EndsLike`).

To end alike is to follow each other, without regard to what is written on the way, and with nothing
exchanged but each function for itself (`Comparison.identical`). So what is known of computations
side by side is at hand here. What is new is that the relation is symmetric: it is enough to know of
one side how the values are related (`Act.EndsLike.of_matched`).
-/

namespace EffectTrees

open Machine (limit)

/-! ### Every function for itself -/

namespace Exchange

/-- Every function is exchanged for itself. -/
def identical : Exchange where
  Swaps _ f f' := f = f' ∧ f ≠ .betray
  mono _ := id
  typeName h := by rw [h.1]
  left_ne h := h.2
  right_ne h := h.1 ▸ h.2

theorem identical_function (C : Value → Value → Prop) (f : Function) :
    f.Shape (identical.Swaps C) C f := by
  cases f with
  | betray => exact .betray
  | _ => exact .swap ⟨rfl, by simp⟩

mutual

/-- Every value is related to itself, part by part. -/
theorem identical_refl : (v : Value) → identical.Rel v v
  | .scalar s => .of_shape (.scalar s)
  | .list items => .of_shape (.list (identical_each items))
  | .tuple items => .of_shape (.tuple (identical_each items))
  | .poison => .of_shape .poison
  | .aborted => .of_shape .aborted
  | .payload (.resolved v) => .of_shape (.payload (.resolved (identical_refl v)))
  | .payload (.deferred f) => .of_shape (.payload (.deferred (identical_refl f)))
  | .tree (.done (.resolved v)) => .of_shape (.tree (.done (.resolved (identical_refl v))))
  | .tree (.done (.deferred f)) => .of_shape (.tree (.done (.deferred (identical_refl f))))
  | .tree (.suspended d) => .of_shape (.tree (.suspended (identical_refl d)))
  | .tree .failed => .of_shape (.tree .failed)
  | .plain (.pure v) => .of_shape (.plain (.pure (identical_refl v)))
  | .plain (.free d) => .of_shape (.plain (.free (identical_refl d)))
  | .descriptor c own => .of_shape (.descriptor c (identical_named own))
  | .function f => .of_shape (.function (identical_function _ f))
  | .builder (.mk t fs) => .of_shape (.builder (.mk (identical_refl t) (identical_each fs)))
  | .analysis none trace => .of_shape (.analysis .none (identical_each trace))
  | .analysis (some v) trace =>
    .of_shape (.analysis (.some (identical_refl v)) (identical_each trace))
  | .slot n k a => .of_shape (.slot (identical_refl n) (identical_refl k) (identical_refl a))
  | .locator c => .of_shape (.locator c)
  | .cls c => .of_shape (.cls c)
  | .builtinClass name => .of_shape (.builtinClass name)
  | .target .list => .of_shape (.target .list)
  | .target .tree => .of_shape (.target .tree)
  | .target (.custom ms) => .of_shape (.target (.custom (identical_named ms)))
  | .snoc i l => .of_shape (.snoc (identical_refl i) (identical_refl l))
  | .cons x l => .of_shape (.cons (identical_refl x) (identical_refl l))

theorem identical_each : (vs : List Value) → List.Forall₂ identical.Rel vs vs
  | [] => .nil
  | v :: vs => .cons (identical_refl v) (identical_each vs)

theorem identical_named :
    (own : List (String × Value)) → List.Forall₂ (Named identical.Rel) own own
  | [] => .nil
  | (_, v) :: own => .cons ⟨rfl, identical_refl v⟩ (identical_named own)

end

/-- **Nothing else is the same** to it. -/
theorem identical_iff {v v' : Value} : identical.Rel v v' ↔ v = v' :=
  ⟨Rel.eq And.left, fun same => same ▸ identical_refl v⟩

end Exchange

/-- Functions are exchanged for themselves only, and what is written does not count. -/
def Comparison.identical (T : ClassTable) : Comparison :=
  { Exchange.identical with classes := T, observed := False }

open Comparison (identical)

/-! ### Ending alike -/

/-- If what is written does not count, it is enough that worlds have the same classes. -/
theorem Comparison.alike_of_unobserved {K : Comparison} (unobserved : ¬ K.observed) {w w' : World}
    (hw : w.classes = K.classes) (hw' : w'.classes = K.classes) : K.Alike w w' :=
  ⟨hw, hw', fun observed => absurd observed unobserved, fun observed => absurd observed unobserved⟩

namespace Comparison.Matched

variable {K : Comparison} {α β γ δ : Type} {Q : α → β → Prop} {P : γ → δ → Prop} {a : Act α}
  {b : Act β}

/-- What some computation within a bounded depth of calls comes to is followed by what follows the
computation without a bound. -/
theorem below {as : Nat → Act α} (h : K.Matched Q a b) (tends : Act.Tends as a) (n : Nat) :
    K.Matched Q (as n) b :=
  h.of_runs fun _ _ _ run => tends.runIn_limit run

/-- A start of the left that follows what comes to a value, which need not happen on the right. -/
theorem start_left (unobserved : ¬ K.observed) {f : α → Act γ} {c : Act δ} {y : β}
    (hab : K.Matched Q a b) (hb : b.Yields K.classes y)
    (rest : ∀ x, Q x y → K.Matched P (f x) c) : K.Matched P (a >>= f) c := by
  intro w w' alike r w₂ run
  rw [Act.runIn_bind] at run
  match first : a.runIn w with
  | none => simp [first] at run
  | some (s, w₁) =>
    obtain ⟨s', w₁', followed, after, ends⟩ := hab w w' alike s w₁ first
    obtain ⟨rfl, -⟩ := hb.of_run alike.right followed
    cases ends with
    | @ok x _ related =>
      rw [first] at run
      exact rest x related w₁ w' (alike_of_unobserved unobserved after.left alike.right) r w₂ run

/-- A start of the right that comes to a value. -/
theorem start_right (unobserved : ¬ K.observed) {c : Act γ} {f : β → Act δ} {y : β}
    (hb : b.Yields K.classes y) (rest : K.Matched P c (f y)) : K.Matched P c (b >>= f) := by
  intro w w' alike r w₁ run
  obtain ⟨w₁', started, classes⟩ := hb w' alike.right
  obtain ⟨r', w₂', followed, after, ends⟩ :=
    rest w w₁' (alike_of_unobserved unobserved alike.left classes) r w₁ run
  exact ⟨r', w₂', by rw [Act.runIn_bind, started]; exact followed, after, ends⟩

/-- What a run of the left gives is related to the value that the right comes to. -/
theorem related_of_run (unobserved : ¬ K.observed) (hab : K.Matched Q a b) {w w₁ : World} {x : α}
    {y : β} (hw : w.classes = K.classes) (run : a.runIn w = some (.ok x, w₁))
    (hb : b.Yields K.classes y) : Q x y := by
  obtain ⟨r', w₁', followed, -, ends⟩ :=
    hab w w (alike_of_unobserved unobserved hw hw) _ _ run
  obtain ⟨rfl, -⟩ := hb.of_run hw followed
  cases ends with
  | ok related => exact related

/-- A remark is like any other if what is written does not count. -/
theorem remarks (unobserved : ¬ K.observed) (r r' : Remark) :
    K.Matched Eq (Act.remark r) (Act.remark r') := by
  intro w w' alike x w₁ run
  rw [Act.runIn_remark] at run
  obtain ⟨rfl, rfl⟩ := by simpa using run
  exact ⟨_, _, Act.runIn_remark r' w', ⟨alike.left, alike.right,
    fun observed => absurd observed unobserved, fun observed => absurd observed unobserved⟩,
    .ok rfl⟩

end Comparison.Matched

namespace Act

/-- **Both computations end or neither**, from whatever worlds with the classes `T` they start: with
the same signal, or with related values. -/
def EndsLike (T : ClassTable) {α β : Type} (Q : α → β → Prop) (a : Act α) (b : Act β) : Prop :=
  ∀ w w', w.classes = T → w'.classes = T →
    Option.Rel (fun x y => Ends Q x.1 y.1 ∧ x.2.classes = T ∧ y.2.classes = T)
      (a.runIn w) (b.runIn w')

namespace EndsLike

variable {T : ClassTable} {α β γ δ : Type} {Q Q' : α → β → Prop} {R : β → α → Prop}
  {P : γ → δ → Prop} {a : Act α} {b : Act β}

/-- Computations that follow each other end alike, if what is written does not count. Values may be
compared in another way on the way back. -/
theorem of_unobserved {K K' : Comparison} (there : K.Matched Q a b) (back : K'.Matched R b a)
    (unobserved : ¬ K.observed) (unobserved' : ¬ K'.observed) (same : K'.classes = K.classes) :
    EndsLike K.classes Q a b := by
  intro w w' hw hw'
  have alike : K.Alike w w' := K.alike_of_unobserved unobserved hw hw'
  have alike' : K'.Alike w' w :=
    K'.alike_of_unobserved unobserved' (hw'.trans same.symm) (hw.trans same.symm)
  exact (there.both back alike alike').imp fun x y h => ⟨h.1, h.2.left, h.2.right⟩

theorem of_matched (there : (identical T).Matched Q a b) (back : (identical T).Matched R b a) :
    EndsLike T Q a b := of_unobserved there back id id rfl

/-- What ends alike is followed. -/
theorem follows (h : EndsLike T Q a b) : (identical T).Matched Q a b := by
  intro w w' alike r w₁ hr
  have ends := h w w' alike.left alike.right
  rw [hr] at ends
  obtain ⟨y, run, values, left, right⟩ := ends.exists_right
  exact ⟨y.1, y.2, run, ⟨left, right, False.elim, False.elim⟩, values⟩

theorem symm (h : EndsLike T Q a b) : EndsLike T (fun y x => Q x y) b a := by
  intro w w' hw hw'
  have ends := (h w' w hw' hw).flip
  exact ends.imp fun y x related => ⟨related.1.flip, related.2.2, related.2.1⟩

theorem imp (hQ : ∀ x y, Q x y → Q' x y) (h : EndsLike T Q a b) : EndsLike T Q' a b :=
  fun w w' hw hw' => (h w w' hw hw').imp fun _ _ ends => ⟨ends.1.imp hQ, ends.2⟩

protected theorem pure {x : α} {y : β} (h : Q x y) : EndsLike T Q (pure x) (pure y) :=
  .of_matched (R := fun y x => Q x y) (.pure h) (.pure h)

protected theorem bind {f : α → Act γ} {g : β → Act δ} (h : EndsLike T Q a b)
    (hfg : ∀ x y, Q x y → EndsLike T P (f x) (g y)) : EndsLike T P (a >>= f) (b >>= g) :=
  .of_matched (h.follows.bind fun x y hxy => (hfg x y hxy).follows)
    (h.symm.follows.bind fun y x hxy => (hfg x y hxy).symm.follows)

protected theorem probe {Q : Value → Value → Prop} {a b : Act Value} (h : EndsLike T Q a b)
    (hQ : ∀ x y, Q x y → x.isPoison = y.isPoison) :
    EndsLike T (Option.Rel Q) (EffectTrees.probe a) (EffectTrees.probe b) :=
  .of_matched (h.follows.probe hQ) (h.symm.follows.probe fun y x hxy => (hQ x y hxy).symm)

/-- Computations that settle end as they settle. -/
theorem of_settles {o : Ending α} {o' : Ending β} (ha : a.Settles T o) (hb : b.Settles T o')
    (h : Option.Rel (Ends Q) o o') : EndsLike T Q a b := by
  intro w w' hw hw'
  obtain ⟨outcome, classes⟩ := ha w hw
  obtain ⟨outcome', classes'⟩ := hb w' hw'
  rw [← outcome, ← outcome'] at h
  -- What has been written may differ, but both outcomes are the ones that have been settled.
  match run : a.runIn w, run' : b.runIn w' with
  | none, none => exact .none
  | none, some y => simp [run, run'] at h
  | some x, none => simp [run, run'] at h
  | some x, some y =>
    rw [run, run', Option.map_some, Option.map_some, Option.rel_some_some] at h
    exact .some ⟨h, classes x run, classes' y run'⟩

/-- What comes to one value ends like what comes to a related one. -/
theorem of_yields {x : α} {y : β} (ha : a.Yields T x) (hb : b.Yields T y) (h : Q x y) :
    EndsLike T Q a b := of_settles ha.settles hb.settles (.some (.ok h))

/-- A computation that settles ends like itself. -/
theorem self {Q : α → α → Prop} {a : Act α} {o : Ending α} (h : a.Settles T o)
    (hQ : ∀ x, o = some (.ok x) → Q x x) : EndsLike T Q a a := by
  refine of_settles h h ?_
  match o with
  | none => exact .none
  | some (.error s) => exact .some (.error s)
  | some (.ok v) => exact .some (.ok (hQ v rfl))

/-- What starts with a value ends as the rest does. -/
theorem start {x : γ} {c : Act γ} {f : γ → Act α} (hc : c.Yields T x)
    (h : EndsLike T Q (f x) b) : EndsLike T Q (c >>= f) b := by
  intro w w' hw hw'
  obtain ⟨w₁, run, hw₁⟩ := hc w hw
  rw [runIn_bind, run]
  exact h w₁ w' hw₁ hw'

/-- What ends as the second computation does takes its place. -/
theorem endsAs_right {b' : Act β} (h : EndsLike T Q a b) (same : EndsAs T b' b) :
    EndsLike T Q a b' := by
  intro w w' hw hw'
  have ends := h w w' hw hw'
  cases run' : b'.runIn w' with
  | none =>
    have none : b.runIn w' = none := by simpa [run'] using (same w' hw').symm
    rwa [none] at ends
  | some y =>
    obtain ⟨r, w₁⟩ := y
    obtain ⟨w₂, run, classes⟩ := same.exists_run hw' run'
    rw [run] at ends
    -- The outcome and the classes are all that is compared.
    match first : a.runIn w, ends with
    | some x, .some ends => exact .some ⟨ends.1, ends.2.1, classes ▸ ends.2.2⟩

/-- What ends like a computation that comes to a value comes to the same value, if there is no
choice. -/
theorem yields {Q : α → α → Prop} {a b : Act α} (h : EndsLike T Q a b)
    (same : ∀ x y, Q x y → y = x) {x : α} (ha : a.Yields T x) : b.Yields T x := by
  intro w hw
  obtain ⟨w₁, run, -⟩ := ha w hw
  have ends := h w w hw hw
  rw [run] at ends
  obtain ⟨⟨r, w₂⟩, run', values, -, classes⟩ := ends.exists_right
  cases values with
  | ok related =>
    obtain rfl := same _ _ related
    exact ⟨w₂, run', classes⟩

/-- What ends like a computation that responds does so. -/
theorem responds {P : α → Prop} {P' : β → Prop}
    (like : EndsLike T Q a b) (hb : b.Responds T P') (hQ : ∀ x y, Q x y → P' y → P x) :
    a.Responds T P := by
  refine ⟨fun w hw r w' run => ?_, fun w hw => ?_⟩
  · have ends := like w w hw hw
    rw [run] at ends
    obtain ⟨⟨s, w₁⟩, run', outcome, classes, -⟩ := ends.exists_right
    rcases hb.faultOr w hw s w₁ run' with ⟨f, rfl⟩ | ⟨v, rfl, hv, -⟩
    · cases outcome
      exact .inl ⟨f, rfl⟩
    · cases outcome with
      | ok related => exact .inr ⟨_, rfl, hQ _ _ related hv, classes⟩
  · obtain ⟨x, run⟩ := hb.ends w hw
    have ends := like w w hw hw
    rw [run] at ends
    obtain ⟨y, run', -⟩ := ends.flip.exists_right
    exact ⟨y, run'⟩

/-- If what comes to a value ends like what comes to a value, these are related. -/
theorem related {x : α} {y : β} (h : EndsLike T Q a b) (ha : a.Yields T x) (hb : b.Yields T y) :
    Q x y := by
  obtain ⟨w₁, run, -⟩ := ha (.initial T) rfl
  obtain ⟨w₁', run', -⟩ := hb (.initial T) rfl
  have ends := h (.initial T) (.initial T) rfl rfl
  rw [run, run'] at ends
  cases ends with
  | some ends =>
    cases ends.1 with
    | ok values => exact values

end EndsLike

end Act

/-! ### One descriptor on both sides -/

/-- A descriptor of an effect differs from itself in its slots at most, whatever the relations say of
what it holds. -/
theorem Comparison.slots_self {T : ClassTable} {D B : Value → Value → Prop} {d : Value}
    (effect : ∀ c own, d = .descriptor c own → c.isEffect)
    (content : ∀ x, AtHand T d x → D x x) (behind : ∀ n g, Behind T d n g → B g g) :
    (identical T).Slots D B d d := by
  cases d with
  | list items => exact .list (List.forall₂_same.mpr fun x mem => content x (.item mem))
  | descriptor c own =>
    have isEffect := effect c own rfl
    cases slot : T.slotOf c.id with
    | error f =>
      refine .other (Exchange.identical_refl _) (by simp) fun c' own' same => ?_
      obtain ⟨rfl, -⟩ := Value.descriptor.inj same
      exact ⟨f, slot⟩
    | ok s =>
      -- All fields are the same, and the slot is compared by what it holds, if it holds anything.
      have fields : List.Forall₂ (NamedBy fun n v v' => n ≠ s.name → (identical T).Rel v v') own own :=
        List.forall₂_same.mpr fun _ _ => ⟨rfl, fun _ => Exchange.identical_refl _⟩
      refine .slotted slot fields ?_
      change Option.Rel _ (T.memberOf? c.id own .scalar s.name) (T.memberOf? c.id own .scalar s.name)
      cases holds : T.memberOf? c.id own .scalar s.name with
      | none => exact .none
      | some x =>
        refine .some ?_
        unfold AtSlot
        cases kind : s.kind with
        | direct => exact content x (.content isEffect slot kind holds)
        | function n => exact behind n x (.slot isEffect slot kind holds)
  | _ => exact .other (Exchange.identical_refl _) (by simp) (by simp)

/-! ### Slots, seen from the other side -/

/-- What differs in its slots does so in both directions. -/
theorem Comparison.Slots.symm {T : ClassTable} {D B : Value → Value → Prop} {d d' : Value}
    (h : (identical T).Slots D B d d') :
    (identical T).Slots (fun x' x => D x x') (fun g' g => B g g') d' d := by
  have flip : ∀ {v v' : Value}, (identical T).Rel v v' → (identical T).Rel v' v :=
    fun same => Exchange.identical_iff.mpr (Exchange.identical_iff.mp same).symm
  cases h with
  | list each => exact .list each.flip
  | @slotted c own own' s slot fields content =>
    refine .slotted slot (fields.flip.imp ?_) ?_
    · rintro a b ⟨same, related⟩
      exact ⟨same.symm, fun other => flip (related (same ▸ other))⟩
    · refine content.flip.imp fun x' x related => ?_
      unfold AtSlot at related ⊢
      cases hk : s.kind <;> rw [hk] at related <;> exact related
  | other same notList noSlot =>
    obtain rfl := Exchange.identical_iff.mp same
    exact .other same notList noSlot

end EffectTrees
