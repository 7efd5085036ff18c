import EffectTrees.Proofs.Exchange.Value
import EffectTrees.Proofs.Tree.Hoist

/-!
# Plain trees among the effect trees

A free tree is finished with a value, or suspended on a descriptor that holds free trees. Plain
trees are one form of free trees. Effect trees that never fail, and have what they finish with at
hand, are another (`FreeForm.plain`, `FreeForm.effect`). The embedding takes the one form to the
other, and there is a function of the program that takes it back (`reading`).

Both are *translations*: they keep the value of a leaf, whatever it is, and are mapped over a
descriptor (`FreeForm.Translates`). All that is said of the embedding holds of any translation.

* A free tree has a translation, and that is a free tree again (`Translates.exists_yields`,
  `Translates.isFree`).
* To translate back and forth changes nothing (`Translates.round_trip`).
* Trees whose translations are equal are equal (`Translates.injective`).

Function slots are translated by composition, and nothing is called. So nothing is asked of what they
do: they may abort, fail, go on without end and register classes, and what they give may depend on
the world. All that is asked is that the trees they do give are free (`Act.GivesOnly`), and they count
as the same if they end alike from every world (`Act.Tallies`). What is free depends on the classes,
and a function may have registered some when it returns. So both notions are about trees at given
classes, and what a function gives is looked at with the classes that are there then.
-/

namespace EffectTrees

open Machine (limit)

variable {T : ClassTable} {P Q : ClassTable → Value → Prop} {R S : ClassTable → Value → Value → Prop}
  {d d' e k l p q t u v w : Value}

/-! ### What functions give -/

namespace Act

variable {a b : Act Value} {f : Value → Act Value}

/-- What the computation gives, from any world with the classes `T`, has the property at the classes
that are there by then. -/
def GivesOnly (T : ClassTable) (P : ClassTable → Value → Prop) (a : Act Value) : Prop :=
  ∀ w w' v, w.classes = T → a.runIn w = some (.ok v, w') → P w'.classes v

/-- From each world with the classes `T` both computations end or neither does: with the same
classes, and with the same signal or related values. -/
def Tallies (T : ClassTable) (R : ClassTable → Value → Value → Prop) (a b : Act Value) : Prop :=
  ∀ w, w.classes = T → Option.Rel (fun x y => Ends (R x.2.classes) x.1 y.1 ∧
    x.2.classes = y.2.classes) (a.runIn w) (b.runIn w)

theorem GivesOnly.mono (h : a.GivesOnly T P) (hPQ : ∀ T v, P T v → Q T v) : a.GivesOnly T Q :=
  fun w w' v hw run => hPQ _ v (h w w' v hw run)

theorem Tallies.mono (h : a.Tallies T R b) (hRS : ∀ T x y, R T x y → S T x y) : a.Tallies T S b :=
  fun w hw => (h w hw).imp fun _ _ ends => ⟨ends.1.imp (hRS _), ends.2⟩

/-- A computation goes on from what another one gives, with a value for each. -/
theorem GivesOnly.bind (h : a.GivesOnly T P) (hf : ∀ T x, P T x → ∃ y, (f x).Yields T y ∧ Q T y) :
    (a >>= f).GivesOnly T Q := by
  intro w w₂ y hw run
  obtain ⟨x, w₁, first, second⟩ := exists_runs_of_bind run
  obtain ⟨z, yields, hz⟩ := hf _ x (h w w₁ x hw first)
  obtain ⟨same, classes⟩ := yields.of_run rfl second
  obtain rfl := Except.ok.inj same
  rwa [classes]

/-- A computation ends as it does when it has gone on, but for the value. -/
theorem GivesOnly.rel_bind (h : a.GivesOnly T P) (hf : ∀ T x, P T x → ∃ y, (f x).Yields T y)
    {w : World} (hw : w.classes = T) :
    Option.Rel (fun x y => Ends (fun v u => P x.2.classes v ∧ (f v).Yields x.2.classes u) x.1 y.1 ∧
      y.2.classes = x.2.classes) (a.runIn w) ((a >>= f).runIn w) := by
  rw [Act.runIn_bind]
  match run : a.runIn w with
  | none => exact .none
  | some (.error s, w') => exact .some ⟨.error s, rfl⟩
  | some (.ok x, w') =>
    have hx := h w w' x hw run
    obtain ⟨y, yields⟩ := hf _ x hx
    obtain ⟨w'', next, classes⟩ := yields w' rfl
    dsimp only
    rw [next]
    exact .some ⟨.ok ⟨hx, yields⟩, classes⟩

/-- A computation tallies with itself, as far as what it gives is the same. -/
theorem GivesOnly.tallies_self (h : a.GivesOnly T P) :
    a.Tallies T (fun T x y => P T x ∧ x = y) a := by
  intro w hw
  match run : a.runIn w with
  | none => exact .none
  | some (.error s, w') => exact .some ⟨.error s, rfl⟩
  | some (.ok x, w') => exact .some ⟨.ok ⟨h w w' x hw run, rfl⟩, rfl⟩

/-- To go on to values that are related to what has been given changes nothing else. -/
theorem GivesOnly.tallies_bind (h : a.GivesOnly T P)
    (hf : ∀ T x, P T x → ∃ y, (f x).Yields T y ∧ R T y x) : (a >>= f).Tallies T R a := by
  intro w hw
  have goes_on : ∀ T x, P T x → ∃ y, (f x).Yields T y := fun T x hx => by
    obtain ⟨y, yields, -⟩ := hf T x hx
    exact ⟨y, yields⟩
  refine (h.rel_bind goes_on hw).flip.imp fun y x ⟨ends, classes⟩ => ⟨ends.flip.imp ?_, classes⟩
  rintro u v ⟨hv, yields⟩
  obtain ⟨u', yields', related⟩ := hf _ v hv
  rw [yields.unique yields', classes]
  exact related

/-- What two computations go on to tallies only if they do, provided that there is a value for each
that they may give. -/
theorem Tallies.of_bind (ha : a.GivesOnly T P) (hb : b.GivesOnly T P)
    (hf : ∀ T x, P T x → ∃ y, (f x).Yields T y)
    (reflects : ∀ T x x' y y', P T x → P T x' → (f x).Yields T y → (f x').Yields T y' →
      R T y y' → S T x x')
    (both : (a >>= f).Tallies T R (b >>= f)) : a.Tallies T S b := by
  intro w hw
  have left := ha.rel_bind hf hw
  have right := (hb.rel_bind hf hw).flip
  -- From the one computation to what it goes on to, over to the other side, and back.
  refine ((left.comp (Q := Relation.Comp _ _) (both w hw) fun _ y _ h h' => ⟨y, h, h'⟩).comp
    (Q := Relation.Comp _ _) right fun _ y _ h h' => ⟨y, h, h'⟩).imp ?_
  rintro ⟨r, w₁⟩ ⟨r', w₂⟩
    ⟨⟨s', w₂'⟩, ⟨⟨s, w₁'⟩, ⟨first, classes⟩, second, same⟩, third, classes'⟩
  dsimp only at *
  refine ⟨?_, classes.symm.trans (same.trans classes')⟩
  cases first with
  | error s =>
    cases second
    cases third
    exact .error s
  | ok hx =>
    cases second with
    | ok related =>
      cases third with
      | ok hy =>
        rw [classes] at related same
        rw [← classes', ← same] at hy
        exact .ok (reflects _ _ _ _ _ hx.1 hy.1 hx.2 hy.2 related)

end Act

/-! ### What descriptors hold -/

/-- All that the descriptor holds has the property, behind a function slot whatever it gives, at the
classes that are there when it does. -/
structure HoldsAt (T : ClassTable) (P : ClassTable → Value → Prop) (d : Value) : Prop where
  atHand : ∀ x, AtHand T d x → P T x
  behind : ∀ n g, Behind T d n g → ∀ args, (limit g args).GivesOnly T P

theorem HoldsAt.mono (h : HoldsAt T P d) (hPQ : ∀ T v, P T v → Q T v) : HoldsAt T Q d :=
  ⟨fun x hx => hPQ T x (h.atHand x hx), fun n g hg args => (h.behind n g hg args).mono hPQ⟩

/-- Functions that tally for all arguments. -/
def TallyBehind (T : ClassTable) (R : ClassTable → Value → Value → Prop) (_ : Nat) (g g' : Value) :
    Prop :=
  ∀ args, (limit g args).Tallies T R (limit g' args)

theorem TallyBehind.mono {n : Nat} {g g' : Value} (h : TallyBehind T R n g g')
    (hRS : ∀ T x y, R T x y → S T x y) : TallyBehind T S n g g' := fun args => (h args).mono hRS

/-- What is behind a function slot of a refilled descriptor was there before, and is followed by the
function that it was refilled with. -/
theorem Refills.exists_behind {C : Value → Value → Prop} {n : Nat} {g' : Value}
    (h : Refills T C (.after k) d d') (hg : Behind T d' n g') :
    ∃ g, Behind T d n g ∧ ∀ args, limit g' args = limit g args >>= fun v => limit k [v] := by
  cases hg with
  | slot effect slot kind holds =>
    obtain ⟨own, g, rfl, before, rfl⟩ := h.behind_right (.slot effect slot kind holds)
    exact ⟨g, before, fun args => Machine.limit_after _ _ _⟩

/-- The translation of the one value, by a function, is the other one. -/
def Translation (k : Value) (T : ClassTable) (t u : Value) : Prop := (limit k [t]).Yields T u

/-- What is refilled by translating is equal but for related contents only if it has been before. -/
theorem Refills.reflect {e' : Value} (refills : Refills T (Translation k T) (.after k) d d')
    (refills' : Refills T (Translation k T) (.after k) e e') (holds : HoldsAt T P d)
    (holds' : HoldsAt T P e) (defined : ∀ T x, P T x → ∃ y, Translation k T x y)
    (reflects : ∀ T x x' y y', P T x → P T x' → Translation k T x y → Translation k T x' y' →
      R T y y' → S T x x')
    (renews : Renews T (R T) (TallyBehind T R) d' e') : Renews T (S T) (TallyBehind T S) d e := by
  have known {d d' : Value} (refills : Refills T (Translation k T) (.after k) d d')
      (holds : HoldsAt T P d) : Renews T (fun x y => P T x ∧ Translation k T x y)
        (fun n g g' => Behind T d n g ∧ g' = .after k g) d d' :=
    (Renews.of_refills refills).mono (fun x _ hx hxy => ⟨holds.atHand x hx, hxy⟩)
      fun _ _ _ hg after => ⟨hg, after⟩
  -- There and back again: from `d` to `d'`, over to `e'`, and from there to `e`.
  refine (((known refills holds).comp renews).comp (known refills' holds').swap).mono ?_ ?_
  · rintro x x' - ⟨y', ⟨y, ⟨hx, hxy⟩, related⟩, hx', hxy'⟩
    exact reflects T x x' y y' hx hx' hxy hxy' related
  · rintro n g h - ⟨_, ⟨_, ⟨hg, rfl⟩, both⟩, hh, rfl⟩ args
    have both := both args
    simp only [Value.after, Machine.limit_after] at both
    exact .of_bind (holds.behind n g hg args) (holds'.behind n h hh args) defined reflects both

/-! ### Free trees -/

/-- A form in which free trees are written down. -/
structure FreeForm where
  leaf : Value → Value
  node : Value → Value
  leaf_injective : Function.Injective leaf
  node_injective : Function.Injective node
  leaf_ne_node : ∀ v d, leaf v ≠ node d
  sizeOf_lt_node : ∀ d, sizeOf d < sizeOf (node d)
  leaf_ne_scalar : ∀ v s, leaf v ≠ .scalar s
  node_ne_scalar : ∀ d s, node d ≠ .scalar s

namespace FreeForm

variable {F G : FreeForm}

/-- Plain trees. -/
def plain : FreeForm where
  leaf v := .plain (.pure v)
  node d := .plain (.free d)
  leaf_injective := by
    rintro v w h
    simpa using h
  node_injective := by
    rintro d e h
    simpa using h
  leaf_ne_node := by simp
  sizeOf_lt_node := by
    intro d
    simp only [Value.plain.sizeOf_spec, PlainTree.free.sizeOf_spec]
    omega
  leaf_ne_scalar := by simp
  node_ne_scalar := by simp

/-- Effect trees that are never failed, and whose payloads are never deferred. -/
def effect : FreeForm where
  leaf v := .tree (Tree.pure v)
  node d := .tree (.suspended d)
  leaf_injective := by
    rintro v w h
    simpa [Tree.pure] using h
  node_injective := by
    rintro d e h
    simpa using h
  leaf_ne_node := by simp [Tree.pure]
  sizeOf_lt_node := by
    intro d
    simp only [Value.tree.sizeOf_spec, Tree.suspended.sizeOf_spec]
    omega
  leaf_ne_scalar := by simp
  node_ne_scalar := by simp

/-- The value is a leaf, or a node that holds values with the property. -/
inductive IsFree.Step (F : FreeForm) (T : ClassTable) (P : ClassTable → Value → Prop) :
    Value → Prop where
  | leaf (v : Value) : Step F T P (F.leaf v)
  | node {d : Value} (fillable : Fillable T d) (holds : HoldsAt T P d) : Step F T P (F.node d)

/-- **Free trees of a form**, at given classes. Descriptors can be copied, their slots hold such trees,
and whatever function slots do, the trees that they give are such trees. -/
def IsFree (F : FreeForm) (T : ClassTable) (t : Value) : Prop :=
  ∃ P, (∀ T t, P T t → IsFree.Step F T P t) ∧ P T t

/-- Two trees are the same leaf, or have the same descriptor with related contents. -/
inductive Equal.Step (F : FreeForm) (T : ClassTable) (R : ClassTable → Value → Value → Prop) :
    Value → Value → Prop where
  | leaf (v : Value) : Step F T R (F.leaf v) (F.leaf v)
  | node {d d' : Value} (renews : Renews T (R T) (TallyBehind T R) d d') :
      Step F T R (F.node d) (F.node d')

/-- **Equal trees of a form**, at given classes. Function slots count by how they end. -/
def Equal (F : FreeForm) (T : ClassTable) (t u : Value) : Prop :=
  ∃ R, (∀ T t u, R T t u → Equal.Step F T R t u) ∧ R T t u

namespace IsFree

theorem Step.mono (hPQ : ∀ T v, P T v → Q T v) (step : Step F T P t) : Step F T Q t := by
  cases step with
  | leaf v => exact .leaf v
  | node fillable holds => exact .node fillable (holds.mono hPQ)

theorem step (ht : F.IsFree T t) : Step F T F.IsFree t := by
  obtain ⟨P, closed, hv⟩ := ht
  exact (closed T t hv).mono fun T u hu => ⟨P, closed, hu⟩

theorem of_step (step : Step F T F.IsFree t) : F.IsFree T t :=
  ⟨fun T => Step F T F.IsFree, fun _ _ hu => hu.mono fun _ _ hx => hx.step, step⟩

/-- What a node of a free tree holds. -/
theorem of_node (ht : F.IsFree T (F.node d)) : Fillable T d ∧ HoldsAt T F.IsFree d := by
  generalize hd : F.node d = t at ht
  cases ht.step with
  | leaf v => exact absurd hd.symm (F.leaf_ne_node v d)
  | node fillable holds =>
    obtain rfl := F.node_injective hd
    exact ⟨fillable, holds⟩

theorem ne_scalar (ht : F.IsFree T t) (s : Scalar) : t ≠ .scalar s := by
  cases ht.step with
  | leaf v => exact F.leaf_ne_scalar v s
  | node _ _ => exact F.node_ne_scalar _ s

/-- A property of free trees follows if it goes from what is at hand in a tree over to the tree. The
induction is on the size of what is at hand. -/
theorem induction {motive : Value → Prop} (ht : F.IsFree T t) (leaf : ∀ v, motive (F.leaf v))
    (node : ∀ d, Fillable T d → (∀ x, AtHand T d x → motive x) → motive (F.node d)) : motive t := by
  induction hn : sizeOf t using Nat.strong_induction_on generalizing t with
  | _ n ih =>
    cases ht.step with
    | leaf v => exact leaf v
    | @node d fillable holds =>
      refine node d fillable fun x hx => ?_
      have isFree := holds.atHand x hx
      rcases hx.sizeOf_lt with smaller | ⟨s, rfl⟩
      · exact ih (sizeOf x) (hn ▸ smaller.trans (F.sizeOf_lt_node d)) isFree rfl
      -- What a class gives its instances is a scalar, and that is no tree.
      · exact absurd rfl (isFree.ne_scalar s)

end IsFree

namespace Equal

theorem step (equal : F.Equal T t u) : Equal.Step F T F.Equal t u := by
  obtain ⟨R, closed, related⟩ := equal
  cases closed T t u related with
  | leaf v => exact .leaf v
  | node renews =>
    exact .node (renews.mono (fun _ _ _ hxy => ⟨R, closed, hxy⟩) fun _ _ _ _ both =>
      both.mono fun _ _ _ hxy => ⟨R, closed, hxy⟩)

/-- A free tree is equal to itself. -/
theorem refl (ht : F.IsFree T t) : F.Equal T t t := by
  refine ⟨fun T t u => F.IsFree T t ∧ t = u, ?_, ht, rfl⟩
  rintro T t _ ⟨ht, rfl⟩
  cases ht.step with
  | leaf v => exact .leaf v
  | node fillable holds =>
    refine .node ((Renews.refl fillable).mono (fun x _ hx same => ⟨holds.atHand x hx, same⟩) ?_)
    rintro n g _ hg rfl args
    exact (holds.behind n g hg args).tallies_self.mono fun _ _ _ h => h

/-- Only a leaf is equal to a leaf. -/
theorem eq_leaf (equal : F.Equal T (F.leaf v) u) : u = F.leaf v := by
  generalize ht : F.leaf v = t at equal
  cases equal.step with
  | leaf w => rfl
  | node renews => exact absurd ht (F.leaf_ne_node _ _)

/-- Only a node is equal to a node. -/
theorem exists_node (equal : F.Equal T (F.node d) u) :
    ∃ d', u = F.node d' ∧ Renews T (F.Equal T) (TallyBehind T F.Equal) d d' := by
  generalize ht : F.node d = t at equal
  cases equal.step with
  | leaf w => exact absurd ht.symm (F.leaf_ne_node _ _)
  | node renews =>
    obtain rfl := F.node_injective ht
    exact ⟨_, rfl, renews⟩

end Equal

/-! ### Translations -/

/-- The function `k` takes trees of one form to trees of another. -/
structure Translates (F G : FreeForm) (k : Value) : Prop where
  leaf : ∀ T v, (limit k [F.leaf v]).Yields T (G.leaf v)
  node : ∀ T d, Act.EndsAs T (limit k [F.node d]) (fmap limit d k >>= fun d' => pure (G.node d'))

namespace Translates

/-- The translation of a node is a node, with the descriptor refilled by translating. -/
theorem node_of_refills (translates : Translates F G k)
    (refills : Refills T (Translation k T) (.after k) d d') :
    Translation k T (F.node d) (G.node d') :=
  (translates.node T d).yields ((refills.yields_fmap fun _ _ h => h).bind (Act.yields_pure _))

/-- **A free tree has a translation.** -/
theorem exists_yields (translates : Translates F G k) (ht : F.IsFree T t) :
    ∃ u, Translation k T t u := by
  refine ht.induction (motive := fun t => ∃ u, Translation k T t u)
    (fun v => ⟨_, translates.leaf T v⟩) fun d fillable ih => ?_
  obtain ⟨d', refills⟩ := Refills.exists_of_fillable fillable (.after k) ih
  exact ⟨_, translates.node_of_refills refills⟩

theorem exists_refills (translates : Translates F G k) (fillable : Fillable T d)
    (holds : HoldsAt T F.IsFree d) : ∃ d', Refills T (Translation k T) (.after k) d d' :=
  Refills.exists_of_fillable fillable (.after k) fun x hx =>
    translates.exists_yields (holds.atHand x hx)

/-- **A translation is a free tree.** -/
theorem isFree (translates : Translates F G k) (ht : F.IsFree T t) (translated : Translation k T t u) :
    G.IsFree T u := by
  -- The property that justifies itself: to be the translation of a free tree.
  refine ⟨fun T u => ∃ t, F.IsFree T t ∧ Translation k T t u, ?_, t, ht, translated⟩
  rintro T u ⟨t, ht, translated⟩
  cases ht.step with
  | leaf v =>
    obtain rfl := (translates.leaf T v).unique translated
    exact .leaf v
  | @node d fillable holds =>
    obtain ⟨d', refills⟩ := translates.exists_refills fillable holds
    obtain rfl := (translates.node_of_refills refills).unique translated
    refine .node refills.fillable_right ⟨fun y hy => ?_, fun n g' hg' args => ?_⟩
    · obtain ⟨x, hx, hxy⟩ := refills.atHand_right hy
      exact ⟨x, holds.atHand x hx, hxy⟩
    · obtain ⟨g, hg, after⟩ := refills.exists_behind hg'
      rw [after]
      refine (holds.behind n g hg args).bind fun T x hx => ?_
      obtain ⟨y, hxy⟩ := translates.exists_yields hx
      exact ⟨y, hxy, x, hx, hxy⟩

/-- **To translate back and forth** changes nothing. -/
theorem round_trip (forth : Translates F G k) (back : Translates G F l) (ht : F.IsFree T t)
    (hu : Translation k T t u) (hv : Translation l T u v) : F.Equal T v t := by
  -- The relation that justifies itself: the first tree is the second one, translated twice.
  refine ⟨fun T v t => ∃ u, F.IsFree T t ∧ Translation k T t u ∧ Translation l T u v, ?_,
    u, ht, hu, hv⟩
  rintro T v t ⟨u, ht, hu, hv⟩
  have isFree : G.IsFree T u := forth.isFree ht hu
  cases ht.step with
  | leaf w =>
    obtain rfl := (forth.leaf T w).unique hu
    obtain rfl := (back.leaf T w).unique hv
    exact .leaf w
  | @node d fillable holds =>
    obtain ⟨d₁, refills⟩ := forth.exists_refills fillable holds
    obtain rfl := (forth.node_of_refills refills).unique hu
    obtain ⟨fillable₁, holds₁⟩ := isFree.of_node
    obtain ⟨d₂, refills'⟩ := back.exists_refills fillable₁ holds₁
    obtain rfl := (back.node_of_refills refills').unique hv
    refine .node (((Renews.of_refills refills).comp (.of_refills refills')).mono
      (D := fun x z => ∃ y, F.IsFree T x ∧ Translation k T x y ∧ Translation l T y z)
      (E := fun n g g' => TallyBehind T _ n g' g) (fun x z hx ⟨y, hxy, hyz⟩ => ?_) ?_).swap
    · exact ⟨y, holds.atHand x hx, hxy, hyz⟩
    · rintro n g _ hg ⟨_, rfl, rfl⟩ args
      simp only [Value.after, Machine.limit_after, bind_assoc]
      refine (holds.behind n g hg args).tallies_bind fun T x hx => ?_
      obtain ⟨y, hxy⟩ := forth.exists_yields hx
      obtain ⟨z, hyz⟩ := back.exists_yields (forth.isFree hx hxy)
      exact ⟨z, hxy.bind hyz, y, hx, hxy, hyz⟩

/-- Two free trees have equal translations. -/
def Joined (F G : FreeForm) (k : Value) (T : ClassTable) (p q : Value) : Prop :=
  ∃ t u, F.IsFree T p ∧ F.IsFree T q ∧ Translation k T p t ∧ Translation k T q u ∧ G.Equal T t u

/-- **Trees with equal translations are equal.** -/
theorem injective (translates : Translates F G k) (hp : F.IsFree T p) (hq : F.IsFree T q)
    (ht : Translation k T p t) (hu : Translation k T q u) (equal : G.Equal T t u) :
    F.Equal T p q := by
  -- The relation that justifies itself: to have equal translations.
  refine ⟨Joined F G k, ?_, t, u, hp, hq, ht, hu, equal⟩
  rintro T p q ⟨t, u, hp, hq, ht, hu, equal⟩
  cases hp.step with
  | leaf v =>
    obtain rfl := (translates.leaf T v).unique ht
    obtain rfl := equal.eq_leaf
    cases hq.step with
    | leaf w =>
      have same : G.leaf w = G.leaf v := (translates.leaf T w).unique hu
      obtain rfl := G.leaf_injective same
      exact .leaf w
    | node fillable holds =>
      obtain ⟨e', refills⟩ := translates.exists_refills fillable holds
      exact absurd (hu.unique (translates.node_of_refills refills)) (G.leaf_ne_node v e')
  | @node d fillable holds =>
    obtain ⟨d', refills⟩ := translates.exists_refills fillable holds
    obtain rfl := (translates.node_of_refills refills).unique ht
    obtain ⟨e', rfl, renews⟩ := equal.exists_node
    cases hq.step with
    | leaf w => exact absurd ((translates.leaf T w).unique hu) (G.leaf_ne_node w e')
    | @node e fillable' holds' =>
      obtain ⟨e'', refills'⟩ := translates.exists_refills fillable' holds'
      obtain rfl := G.node_injective ((translates.node_of_refills refills').unique hu)
      refine .node (Refills.reflect (S := Joined F G k) refills refills' holds holds' ?_ ?_
        renews)
      · exact fun T x hx => translates.exists_yields hx
      · exact fun T x x' y y' hx hx' hxy hxy' related => ⟨y, y', hx, hx', hxy, hxy', related⟩

end Translates

/-! ### The embedding and its inverse -/

theorem translates_embed : Translates plain effect (.frame .embed) where
  leaf _ v := by
    rw [Machine.limit_frame]
    exact Act.yields_pure _
  node _ d := .of_eq (Machine.limit_frame _ _)

end FreeForm

/-- What a function does that reads a tree: a finished one as a leaf, and a suspended one as a node
with the reading mapped over the descriptor. The function is made by `make` again. -/
def readingBody : Expr :=
  .cond (.operator "eq" [.operator "type" [.var "t"], .scalar (.str "Done")])
    (.library "Pure" [.field (.field (.var "t") "value") "value"])
    (.library "Free" [.library "fmap"
      [.field (.var "t") "descriptor", .call (.var "make") [.var "make"]]])

/-- Makes the function that reads trees. -/
def readingMaker : Value := .function (.closure ["make"] (.lambda ["t"] readingBody) [])

/-- **Reads an effect tree as a plain tree.** -/
def reading : Value := .function (.closure ["t"] readingBody [("make", readingMaker)])

theorem limit_readingMaker : limit readingMaker [readingMaker] = pure reading := by
  rw [readingMaker, Machine.limit_closure]
  rfl

/-- A finished tree is read as the leaf with its value. -/
theorem limit_reading_pure (v : Value) :
    limit reading [.tree (Tree.pure v)] = pure (.plain (.pure v)) := by
  rw [reading, Machine.limit_closure]
  rfl

/-- A suspended tree is read by reading what it holds. -/
theorem limit_reading_suspended (d : Value) :
    limit reading [.tree (.suspended d)] =
      fmap limit d reading >>= fun d' => pure (.plain (.free d')) := by
  let env : Env := [("t", .tree (.suspended d)), ("make", readingMaker)]
  have read : limit reading [.tree (.suspended d)] = readingBody.eval limit env := by
    rw [reading, Machine.limit_closure]
    rfl
  have done : (Expr.operator "eq" [.operator "type" [.var "t"], .scalar (.str "Done")]).eval
      limit env = pure (.bool false) := rfl
  have made : (Expr.call (.var "make") [.var "make"]).eval limit env = pure reading :=
    limit_readingMaker
  have descriptor : (Expr.field (.var "t") "descriptor").eval limit env = pure d := rfl
  have mapped : (Expr.library "fmap" [.field (.var "t") "descriptor",
      .call (.var "make") [.var "make"]]).eval limit env = fmap limit d reading := by
    rw [Expr.eval, Expr.evalAll, Expr.evalAll, Expr.evalAll, descriptor, made]
    rfl
  have free : (Expr.library "Free" [.library "fmap" [.field (.var "t") "descriptor",
      .call (.var "make") [.var "make"]]]).eval limit env =
      fmap limit d reading >>= fun d' => pure (.plain (.free d')) := by
    rw [Expr.eval, Expr.evalAll, Expr.evalAll, mapped, bind_assoc]
    rfl
  rw [read, readingBody, Expr.eval, done, pure_bind]
  exact free

namespace FreeForm

theorem translates_reading : Translates effect plain reading where
  leaf _ v := limit_reading_pure v ▸ Act.yields_pure _
  node _ d := .of_eq (limit_reading_suspended d)

end FreeForm

open FreeForm (plain effect translates_embed translates_reading)

/-- **The embedding loses nothing.** The embedding of a plain tree has nothing failed and nothing
deferred in it, and is read as the plain tree again. A tree with nothing failed and nothing deferred
in it is the embedding of what it is read as. And plain trees with equal embeddings are equal. Function
slots may end in any way. Descriptors can be copied (`Fillable`), since the embedding makes copies. -/
theorem embed_lossless (hp : plain.IsFree T p) (hq : plain.IsFree T q) (hw : effect.IsFree T w) :
    (∃ t p', (PlainTree.embed limit p).Yields T t ∧ effect.IsFree T t ∧
      (limit reading [t]).Yields T p' ∧ plain.Equal T p' p) ∧
    (∃ r w', (limit reading [w]).Yields T r ∧ plain.IsFree T r ∧
      (PlainTree.embed limit r).Yields T w' ∧ effect.Equal T w' w) ∧
    ∀ t u, (PlainTree.embed limit p).Yields T t → (PlainTree.embed limit q).Yields T u →
      effect.Equal T t u → plain.Equal T p q := by
  have embeds (t : Value) : limit (.frame .embed) [t] = PlainTree.embed limit t :=
    Machine.limit_frame _ t
  simp only [← embeds]
  have forth := translates_embed
  have back := translates_reading
  refine ⟨?_, ?_, fun t u ht hu equal => forth.injective hp hq ht hu equal⟩
  · obtain ⟨t, ht⟩ := forth.exists_yields hp
    obtain ⟨p', hp'⟩ := back.exists_yields (forth.isFree hp ht)
    exact ⟨t, p', ht, forth.isFree hp ht, hp', forth.round_trip back hp ht hp'⟩
  · obtain ⟨r, hr⟩ := back.exists_yields hw
    obtain ⟨w', hw'⟩ := forth.exists_yields (back.isFree hw hr)
    exact ⟨r, w', hr, back.isFree hw hr, hw', back.round_trip forth hw hr hw'⟩

/-! ### A plain dialogue -/

namespace Dialogue

/-- Finishes with a payload that would abort if it was computed. -/
def trap : Value := .plain (.pure (.payload (.deferred (.function .betray))))

/-- Finishes with the number after the answer, fails if the answer is no number, and aborts if nothing is
known of it. -/
def counting : Value :=
  .function (.closure ["n"]
    (.library "Pure" [.operator "add" [.var "n", .scalar (.int 1)]]) [])

/-- A function that finishes with the value of an expression gives leaves only, if it gives anything. -/
theorem givesOnly_finishing (params : List String) (e : Expr) (env : Env) (args : List Value) :
    (limit (.function (.closure params (.library "Pure" [e]) env)) args).GivesOnly T
      plain.IsFree := by
  rw [Machine.limit_closure]
  split_ifs
  · intro w w' v _ run
    obtain ⟨vs, w₁, values, finish⟩ := Act.exists_runs_of_bind run
    obtain ⟨x, w₂, -, rest⟩ := Act.exists_runs_of_bind values
    obtain ⟨rfl, -⟩ : [x] = vs ∧ w₂ = w₁ := by simpa [Expr.evalAll] using rest
    have finished : (pure (.plain (.pure x)) : Act Value).runIn w₁ = some (.ok v, w') := finish
    obtain ⟨rfl, -⟩ : .plain (.pure x) = v ∧ w₁ = w' := by simpa using finished
    exact .of_step (.leaf x)
  · intro w w' v _ run
    cases run

/-- A statement that is followed by a free tree. -/
theorem isFree_saying {F : FreeForm} {m x : Value} (hx : F.IsFree table x) :
    F.IsFree table (F.node (saying m x)) := by
  refine .of_step (.node (.effect (slotted_say m x) (holds_say m x)) ⟨fun y hy => ?_, ?_⟩)
  · rw [eq_of_atHand_saying hy]
    exact hx
  · exact fun _ _ hk => absurd hk not_behind_saying

/-- A question that is followed by whatever function gives free trees only. -/
theorem isFree_asking {F : FreeForm} {g : Value}
    (hg : ∀ args, (limit g args).GivesOnly table F.IsFree) :
    F.IsFree table (F.node (asking g)) := by
  refine .of_step (.node (.effect (slotted_ask g) (holds_ask g))
    ⟨fun y hy => absurd hy not_atHand_asking, fun n h hh args => ?_⟩)
  obtain ⟨rfl, rfl⟩ := eq_of_behind_asking hh
  exact hg args

/-- A statement before a question. -/
def greeting : Value := plain.node (saying (.str "hello") (plain.node (asking counting)))

/-- A statement before a leaf. -/
def parting : Value := plain.node (saying (.str "bye") trap)

end Dialogue

open Dialogue in
/-- A statement before a question whose answer has to be a number, and one before a leaf. -/
theorem embed_lossless_dialogue :
    plain.IsFree table greeting ∧ plain.IsFree table parting ∧
      effect.IsFree table (say (.str "bye") (.tree (Tree.pure (.int 1)))) ∧
      (∃ t p', (PlainTree.embed limit greeting).Yields table t ∧ effect.IsFree table t ∧
        (limit reading [t]).Yields table p' ∧ plain.Equal table p' greeting) ∧
      (∃ r w', (limit reading [say (.str "bye") (.tree (Tree.pure (.int 1)))]).Yields table r ∧
        plain.IsFree table r ∧ (PlainTree.embed limit r).Yields table w' ∧
        effect.Equal table w' (say (.str "bye") (.tree (Tree.pure (.int 1))))) ∧
      ∀ t u, (PlainTree.embed limit greeting).Yields table t →
        (PlainTree.embed limit parting).Yields table u → effect.Equal table t u →
        plain.Equal table greeting parting := by
  have hp : plain.IsFree table greeting :=
    isFree_saying (isFree_asking (givesOnly_finishing _ _ _))
  have hq : plain.IsFree table parting := isFree_saying (.of_step (.leaf _))
  have hw : effect.IsFree table (say (.str "bye") (.tree (Tree.pure (.int 1)))) :=
    isFree_saying (.of_step (.leaf _))
  exact ⟨hp, hq, hw, embed_lossless hp hq hw⟩

end EffectTrees
