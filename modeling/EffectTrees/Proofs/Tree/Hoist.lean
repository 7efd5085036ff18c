import EffectTrees.Proofs.Tree.Similar

/-!
# Natural rewritings

To hoist a rewriting over a tree is to rewrite a descriptor first and to map over what it holds
afterwards. So what is said about rewritten trees has to be said of slots that a rewriting has
already moved, and all that is known of these is that the rewriting is *natural*: it makes no
difference whether a function is mapped over a descriptor before it is rewritten or afterwards.

* `Mapped T h d d'` — `d'` is `d` with the function `h` mapped over it. The function is any partial
  function on values, which aborts where it has no value, and function slots count by what they
  give: how a composite is written does not matter.
* `Rewriting T E E' g` — the function `g` rewrites descriptors of the vocabulary `E` into
  descriptors of `E'`, and is natural for all partial functions.
* `Over T E total t` — `t` is a tree of descriptors of `E`: slots hold such trees, and function slots
  give such trees or abort.

A natural rewriting cannot look at what slots hold. So whatever is true of all contents of a
descriptor is true of all contents of the rewritten one (`Rewriting.holds`): naturality for the
function that aborts where the property fails says so. And nothing is at hand in what a function slot
is rewritten to (`Rewriting.not_atHand`), since nothing is known of what the function will give. From
these two it follows that hoisting comes to an end, with a tree of the other vocabulary
(`Over.exists_hoist`, `Over.hoist`).
-/

namespace EffectTrees

open Machine (limit)

variable {T : ClassTable} {total : Prop} {P Q : Value → Prop} {h h' : Value → Option Value}
  {d d' d'' e f g t x y : Value}

/-! ### Partial functions -/

namespace Ending

/-- What becomes of an outcome if a partial function is applied to the value. It aborts where it has
no value. -/
def through (h : Value → Option Value) : Ending Value → Ending Value
  | some (.ok v) => some ((h v).elim (.error .abort) .ok)
  | o => o

variable {o : Ending Value} {v : Value}

theorem through_some (hv : h v = some y) : through h (some (.ok v)) = some (.ok y) := by
  simp [through, hv]

theorem through_none (hv : h v = none) : through h (some (.ok v)) = some (.error .abort) := by
  simp [through, hv]

/-- One partial function after the other. -/
theorem through_through (o : Ending Value) :
    (o.through h).through h' = o.through fun v => (h v).bind h' := by
  match o with
  | none => rfl
  | some (.error s) => rfl
  | some (.ok v) => cases hv : h v <;> simp [through, hv]

/-- A value comes from a value. -/
theorem of_through (ho : o.through h = some (.ok y)) : ∃ x, o = some (.ok x) ∧ h x = some y := by
  match o with
  | none => simp [through] at ho
  | some (.error s) => simp [through] at ho
  | some (.ok v) =>
    cases hv : h v with
    | none => simp [through, hv] at ho
    | some z =>
      obtain rfl : z = y := by simpa [through, hv] using ho
      exact ⟨v, rfl, hv⟩

theorem Answers.through (ho : o.Answers) : (o.through h).Answers := by
  rcases ho with ⟨v, rfl⟩ | rfl
  · cases hv : h v with
    | none => exact .inr (through_none hv)
    | some y => exact .inl ⟨y, through_some hv⟩
  · exact .inr rfl

end Ending

namespace Act

/-- A computation that gives no value ends a sequence. -/
theorem Settles.bind_stop {a : Act Value} {o : Ending Value} (ha : a.Settles T o)
    (stops : ∀ v, o ≠ some (.ok v)) (k : Value → Act Value) : (a >>= k).Settles T o := by
  intro w hw
  obtain ⟨outcome, classes⟩ := ha w hw
  rw [runIn_bind]
  cases hr : a.runIn w with
  | none =>
    rw [hr] at outcome
    exact ⟨outcome, by simp⟩
  | some r =>
    obtain ⟨r, w'⟩ := r
    rw [hr] at outcome
    match r with
    | .ok v => exact absurd outcome.symm (stops v)
    | .error s => exact ⟨outcome, fun r' hr' => classes r' (hr.trans hr')⟩

/-- To go on with what settles as a partial function says is to apply that function. -/
theorem Settles.bind_through {a : Act Value} {o : Ending Value} {k : Value → Act Value}
    (ha : a.Settles T o)
    (hk : ∀ v, o = some (.ok v) → (k v).Settles T (Ending.through h (some (.ok v)))) :
    (a >>= k).Settles T (o.through h) := by
  match o with
  | none => exact ha.bind_stop (by simp) k
  | some (.error s) => exact ha.bind_stop (by simp) k
  | some (.ok v) => exact (settles_ok_iff.mp ha).bind_settles (hk v rfl)

/-- What one of two computations that end alike settles on, the other does. -/
theorem EndsAs.settles {a b : Act Value} {o : Ending Value} (same : EndsAs T a b)
    (hb : b.Settles T o) : a.Settles T o := by
  intro w hw
  obtain ⟨outcome, classes⟩ := hb w hw
  have both := same w hw
  cases hr : a.runIn w with
  | none =>
    rw [hr, Option.map_none, eq_comm, Option.map_eq_none_iff] at both
    rw [both] at outcome
    exact ⟨outcome, by simp⟩
  | some r =>
    obtain ⟨r, w'⟩ := r
    obtain ⟨w'', hr', hc⟩ := same.exists_run hw hr
    rw [hr'] at outcome
    refine ⟨outcome, fun r' hr'' => ?_⟩
    obtain rfl : (r, w') = r' := by simpa using hr''
    exact hc.symm.trans (classes _ hr')

open Classical in
/-- The value that a computation gives, if there is one. -/
noncomputable def value? (T : ClassTable) (a : Act Value) : Option Value :=
  if h : ∃ v, a.Yields T v then some h.choose else none

theorem Yields.value?_eq {a : Act Value} {v : Value} (h : a.Yields T v) : a.value? T = some v := by
  have ex : ∃ v, a.Yields T v := ⟨v, h⟩
  have same : ex.choose = v := ex.choose_spec.unique h
  rw [value?, dif_pos ex, same]

end Act

/-- The partial function that a function of the program is, where it gives values. -/
noncomputable def Value.graph (T : ClassTable) (f : Value) (x : Value) : Option Value :=
  (limit f [x]).value? T

theorem Value.graph_eq (yields : (limit f [x]).Yields T y) : f.graph T x = some y :=
  yields.value?_eq

/-! ### What descriptors hold -/

theorem Behind.unique {n n' : Nat} {k k' : Value} (hk : Behind T d n k) (hk' : Behind T d n' k') :
    n = n' ∧ k = k' := by
  cases hk with
  | slot effect slot kind holds =>
    cases hk' with
    | slot effect' slot' kind' holds' =>
      obtain rfl := slotOf_unique slot slot'
      exact ⟨SlotKind.function.inj (kind.symm.trans kind'), holds.unique holds'⟩

/-- A descriptor with a function slot has nothing at hand. -/
theorem Behind.not_atHand {n : Nat} {k : Value} (hk : Behind T d n k) : ¬ AtHand T d x := by
  intro hx
  cases hk with
  | slot effect slot kind holds =>
    cases hx with
    | content effect' slot' direct holds' =>
      exact slotOf_exclusive slot' direct slot kind

/-- All that the descriptor holds has the property, behind a function slot whatever it gives. -/
structure HoldsOnly (T : ClassTable) (P : Value → Prop) (d : Value) : Prop where
  atHand : ∀ x, AtHand T d x → P x
  behind : ∀ n k, Behind T d n k → ∀ args v, (limit k args).Yields T v → P v

/-- The slots can be filled, and the function of a function slot is pure: it settles for all
arguments and, for as many as it takes, returns or aborts. -/
structure Steady (T : ClassTable) (d : Value) : Prop where
  fillable : Fillable T d
  settles : ∀ n k, Behind T d n k → ∀ args, ∃ o, (limit k args).Settles T o ∧
    (args.length = n → o.Answers)

/-- **The second descriptor is the first one with the function mapped over it.** -/
def Mapped (T : ClassTable) (h : Value → Option Value) : Value → Value → Prop :=
  Renews T (fun x y => h x = some y) fun _ k k' =>
    ∀ args o, (limit k args).Settles T o → (limit k' args).Settles T (o.through h)

namespace Mapped

/-- A function that leaves alone what a descriptor holds leaves the descriptor alone. -/
theorem self (fillable : Fillable T d) (holds : HoldsOnly T (fun x => h x = some x) d) :
    Mapped T h d d := by
  refine (Renews.refl fillable).mono (fun x y hx same => ?_) fun n k k' hk same args o settles => ?_
  · rw [← same]
    exact holds.atHand x hx
  · obtain rfl : k = k' := same
    have unchanged : o.through h = o := by
      match o with
      | none => rfl
      | some (.error s) => rfl
      | some (.ok v) =>
        exact Ending.through_some (holds.behind n k hk args v (Act.settles_ok_iff.mp settles))
    rw [unchanged]
    exact settles

/-- To map two functions, one after the other, is to map their composite. -/
theorem comp (mapped : Mapped T h d d') (mapped' : Mapped T h' d' d'') :
    Mapped T (fun x => (h x).bind h') d d'' := by
  refine (Renews.comp mapped mapped').mono (fun x z _ hxz => ?_) fun n k k'' _ hk args o settles => ?_
  · obtain ⟨y, hxy, hyz⟩ := hxz
    show (h x).bind h' = some z
    rw [hxy]
    exact hyz
  · obtain ⟨k', first, second⟩ := hk
    rw [← Ending.through_through]
    exact second args _ (first args o settles)

theorem steady (mapped : Mapped T h d d') (steady : Steady T d) (fillable : Fillable T d') :
    Steady T d' := by
  refine ⟨fillable, fun n k' hk' args => ?_⟩
  obtain ⟨k, hk, through⟩ := mapped.behind_right hk'
  obtain ⟨o, settles, answers⟩ := steady.settles n k hk args
  exact ⟨_, through args o settles, fun length => (answers length).through⟩

/-- What the mapped descriptor holds is what the function gives. -/
theorem holds (mapped : Mapped T h d d') (steady : Steady T d) (holds : HoldsOnly T P d)
    (hPQ : ∀ x y, P x → h x = some y → Q y) : HoldsOnly T Q d' := by
  refine ⟨fun y hy => ?_, fun n k' hk' args y yields => ?_⟩
  · obtain ⟨x, hx, hxy⟩ := mapped.atHand_right hy
    exact hPQ x y (holds.atHand x hx) hxy
  · obtain ⟨k, hk, through⟩ := mapped.behind_right hk'
    obtain ⟨o, settles, -⟩ := steady.settles n k hk args
    have same := (through args o settles).unique yields.settles
    obtain ⟨x, rfl, hxy⟩ := Ending.of_through same
    exact hPQ x y (holds.behind n k hk args x (Act.settles_ok_iff.mp settles)) hxy

/-- To put a function of the program into the slots is to map the partial function that it is. -/
theorem of_refills (refills : Refills T (fun x y => (limit f [x]).Yields T y) (.after f) d d')
    (gives : ∀ n k, Behind T d n k → ∀ args v, (limit k args).Yields T v →
      (limit f [v]).Settles T (Ending.through h (some (.ok v))))
    (atHand : ∀ x y, AtHand T d x → (limit f [x]).Yields T y → h x = some y) : Mapped T h d d' := by
  refine (Renews.of_refills refills).mono atHand fun n k _ hk after args o settles => ?_
  rw [after, Value.after, Machine.limit_after]
  refine settles.bind_through fun v hv => ?_
  rw [hv] at settles
  exact gives n k hk args v (Act.settles_ok_iff.mp settles)

end Mapped

/-! ### Vocabularies and rewritings -/

/-- Descriptors of a certain sort, whatever their slots are filled with. -/
structure Vocabulary (T : ClassTable) where
  Has : Value → Prop
  refill {C : Value → Value → Prop} {F : Value → Value} {d d' : Value} (has : Has d)
    (refills : Refills T C F d d') : Has d'

/-- All descriptors. -/
def Vocabulary.all (T : ClassTable) : Vocabulary T := ⟨fun _ => True, fun _ _ => trivial⟩

/-- **A natural rewriting** of the descriptors of one vocabulary into those of another. -/
structure Rewriting (T : ClassTable) (E E' : Vocabulary T) (g : Value) : Prop where
  gives {d : Value} (has : E.Has d) (steady : Steady T d) :
    ∃ e, (limit g [d]).Yields T e ∧ E'.Has e ∧ Steady T e
  natural {h : Value → Option Value} {d d' e e' : Value} (has : E.Has d) (has' : E.Has d')
    (steady : Steady T d) (steady' : Steady T d') (mapped : Mapped T h d d')
    (given : (limit g [d]).Yields T e) (given' : (limit g [d']).Yields T e') : Mapped T h e e'

variable {E E' E'' : Vocabulary T}

namespace Rewriting

open Classical in
/-- **What is true of all that a descriptor holds** is true of all that the rewritten one holds. -/
theorem holds (rewriting : Rewriting T E E' g) (has : E.Has d) (steady : Steady T d)
    (holds : HoldsOnly T P d) (given : (limit g [d]).Yields T e) : HoldsOnly T P e := by
  -- The function that aborts where the property fails leaves the descriptor alone.
  let guard : Value → Option Value := fun x => if P x then some x else none
  have guard_eq : ∀ x, P x → guard x = some x := fun x hx => if_pos hx
  have of_guard : ∀ x y, guard x = some y → P x := fun x y hxy => by
    by_contra hx
    simp [guard, hx] at hxy
  have self : Mapped T guard d d := .self steady.fillable
    ⟨fun x hx => guard_eq x (holds.atHand x hx),
      fun n k hk args v yields => guard_eq v (holds.behind n k hk args v yields)⟩
  -- So it leaves the rewritten descriptor alone, and finds nothing there to abort at.
  have mapped := rewriting.natural has has steady steady self given given
  refine ⟨fun x hx => ?_, fun n k hk args v yields => ?_⟩
  · obtain ⟨y, -, hxy⟩ := mapped.atHand_left hx
    exact of_guard x y hxy
  · obtain ⟨k', hk', through⟩ := mapped.behind_right hk
    obtain rfl := (hk.unique hk').2
    have same := (through args _ yields.settles).unique yields.settles
    obtain ⟨x, hx, hxv⟩ := Ending.of_through same
    obtain rfl : v = x := by simpa using hx
    exact of_guard v v hxv

/-- Nothing is at hand in what a descriptor with a function slot is rewritten to. -/
theorem not_atHand (rewriting : Rewriting T E E' g) (has : E.Has d) (steady : Steady T d) {n : Nat}
    {k : Value} (hk : Behind T d n k) (given : (limit g [d]).Yields T e) : ¬ AtHand T e y := by
  intro hy
  -- With a function behind the slot that always aborts, the rewriting has nothing to show.
  obtain ⟨d', refills⟩ := Refills.exists_of_fillable
    (C := fun x y => (limit (.function .betray) [x]).Yields T y) steady.fillable
    (.after (.function .betray)) fun x hx => absurd hx hk.not_atHand
  have betrays : ∀ v, (limit (.function .betray) [v]).Settles T (some (.error .abort)) := by
    intro v
    rw [Machine.limit_eq]
    exact Act.settles_throw .abort
  have mapped : Mapped T (fun _ => none) d d' :=
    .of_refills refills (fun n k _ args v _ => betrays v) fun x y hx => absurd hx hk.not_atHand
  have steady' := mapped.steady steady refills.fillable_right
  obtain ⟨e', given', -, -⟩ := rewriting.gives (E.refill has refills) steady'
  have aborted :=
    rewriting.natural has (E.refill has refills) steady steady' mapped given given'
  obtain ⟨z, -, impossible⟩ := aborted.atHand_left hy
  simp at impossible

/-- What is true of all that is at hand in a descriptor is true of all that is at hand in the
rewritten one. -/
theorem atHand (rewriting : Rewriting T E E' g) (has : E.Has d) (steady : Steady T d)
    (given : (limit g [d]).Yields T e) (hP : ∀ x, AtHand T d x → P x) :
    ∀ y, AtHand T e y → P y := by
  by_cases function : ∃ n k, Behind T d n k
  · obtain ⟨n, k, hk⟩ := function
    exact fun y hy => absurd hy (rewriting.not_atHand has steady hk given)
  · have holds : HoldsOnly T P d := ⟨hP, fun n k hk => absurd ⟨n, k, hk⟩ function⟩
    exact (rewriting.holds has steady holds given).atHand

/-- To leave descriptors alone is natural. -/
theorem identity {i : Value} (hi : ∀ d, Act.EndsAs T (limit i [d]) (pure d)) :
    Rewriting T E E i where
  gives {d} has steady := ⟨d, (hi d).yields (Act.yields_pure d), has, steady⟩
  natural {h d d' e e'} has has' steady steady' mapped given given' := by
    obtain rfl := ((hi d).yields (Act.yields_pure d)).unique given
    obtain rfl := ((hi d').yields (Act.yields_pure d')).unique given'
    exact mapped

/-- Two natural rewritings, one after the other, are natural. -/
theorem comp {k : Value} (hf : Rewriting T E E' f) (hg : Rewriting T E' E'' g)
    (hk : ∀ d, Act.EndsAs T (limit k [d]) (limit f [d] >>= fun e => limit g [e])) :
    Rewriting T E E'' k where
  gives {d} has steady := by
    obtain ⟨e, given, has', steady'⟩ := hf.gives has steady
    obtain ⟨u, given', has'', steady''⟩ := hg.gives has' steady'
    exact ⟨u, (hk d).yields (given.bind given'), has'', steady''⟩
  natural {h d₁ d₂ u₁ u₂} has₁ has₂ steady₁ steady₂ mapped given₁ given₂ := by
    obtain ⟨e₁, first₁, has₁', steady₁'⟩ := hf.gives has₁ steady₁
    obtain ⟨e₂, first₂, has₂', steady₂'⟩ := hf.gives has₂ steady₂
    obtain ⟨v₁, second₁, -⟩ := hg.gives has₁' steady₁'
    obtain ⟨v₂, second₂, -⟩ := hg.gives has₂' steady₂'
    obtain rfl := ((hk d₁).yields (first₁.bind second₁)).unique given₁
    obtain rfl := ((hk d₂).yields (first₂.bind second₂)).unique given₂
    exact hg.natural has₁' has₂' steady₁' steady₂'
      (hf.natural has₁ has₂ steady₁ steady₂ mapped first₁ first₂) second₁ second₂

end Rewriting

/-! ### Trees of a vocabulary -/

/-- The value is a tree with a descriptor of the vocabulary that holds values with the property. -/
inductive Over.Step (T : ClassTable) (E : Vocabulary T) (total : Prop) (P : Value → Prop) :
    Value → Prop where
  | failed : Step T E total P (.tree .failed)
  | done {p : Payload} (answers : total → ∃ o, (p.force limit).Settles T o ∧ o.Answers) :
      Step T E total P (.tree (.done p))
  | suspended {d : Value} (has : E.Has d) (steady : Steady T d) (holds : HoldsOnly T P d) :
      Step T E total P (.tree (.suspended d))

/-- **Trees of the descriptors of a vocabulary.** Their slots hold such trees, and their function
slots give such trees or abort. With `total`, payloads return or abort as well. -/
def Over (T : ClassTable) (E : Vocabulary T) (total : Prop) (v : Value) : Prop :=
  ∃ P, (∀ v, P v → Over.Step T E total P v) ∧ P v

theorem HoldsOnly.mono (holds : HoldsOnly T P d) (hPQ : ∀ x, P x → Q x) : HoldsOnly T Q d :=
  ⟨fun x hx => hPQ x (holds.atHand x hx),
    fun n k hk args v yields => hPQ v (holds.behind n k hk args v yields)⟩

namespace Over

theorem Step.mono (hPQ : ∀ x, P x → Q x) (step : Step T E total P t) : Step T E total Q t := by
  cases step with
  | failed => exact .failed
  | done answers => exact .done answers
  | suspended has steady holds => exact .suspended has steady (holds.mono hPQ)

theorem step (ht : Over T E total t) : Step T E total (Over T E total) t := by
  obtain ⟨P, closed, hv⟩ := ht
  exact (closed t hv).mono fun u hu => ⟨P, closed, hu⟩

theorem of_step (step : Step T E total (Over T E total) t) : Over T E total t :=
  ⟨Step T E total (Over T E total), fun _ hu => hu.mono fun _ hx => hx.step, step⟩

theorem exists_tree (ht : Over T E total t) : ∃ u, t = .tree u := by
  cases ht.step with
  | failed => exact ⟨_, rfl⟩
  | done _ => exact ⟨_, rfl⟩
  | suspended _ _ _ => exact ⟨_, rfl⟩

theorem known (ht : Over T E total t) : t.isPoison = false := by
  obtain ⟨u, rfl⟩ := ht.exists_tree
  rfl

/-- Trees of a vocabulary are trees of any descriptors. -/
theorem all (ht : Over T E total t) : Over T (.all T) total t := by
  refine ⟨Over T E total, fun u hu => ?_, ht⟩
  cases hu.step with
  | failed => exact .failed
  | done answers => exact .done answers
  | suspended has steady holds => exact .suspended trivial steady holds

/-- A property of trees follows if it goes from what is at hand in a tree over to the tree. The
induction is on the size of what is at hand. -/
theorem induction {motive : Value → Prop} (ht : Over T E total t) (failed : motive (.tree .failed))
    (done : ∀ p, Over T E total (.tree (.done p)) → motive (.tree (.done p)))
    (suspended : ∀ d, E.Has d → Steady T d → HoldsOnly T (Over T E total) d →
      (∀ x, AtHand T d x → motive x) → motive (.tree (.suspended d))) : motive t := by
  induction hn : sizeOf t using Nat.strong_induction_on generalizing t with
  | _ n ih =>
    cases ht.step with
    | failed => exact failed
    | @done p answers => exact done p ht
    | @suspended d has steady holds =>
      refine suspended d has steady holds fun x hx => ?_
      have isOver := holds.atHand x hx
      rcases hx.sizeOf_lt with smaller | ⟨s, rfl⟩
      · refine ih (sizeOf x) ?_ isOver rfl
        rw [← hn]
        simp only [Value.tree.sizeOf_spec, Tree.suspended.sizeOf_spec]
        omega
      -- What a class gives its instances is a scalar, and that is no tree.
      · obtain ⟨u, hu⟩ := isOver.exists_tree
        simp at hu

end Over

/-! ### Working on slots -/

/-- A function that gives something for all that a descriptor holds is mapped over it. -/
theorem exists_fmap (has : E.Has d) (steady : Steady T d) (holds : HoldsOnly T P d)
    (gives : ∀ x, AtHand T d x → ∃ y, (limit f [x]).Yields T y)
    (behind : ∀ n k, Behind T d n k → ∀ x, P x → ∃ y, (limit f [x]).Yields T y) :
    ∃ d', (fmap limit d f).Yields T d' ∧ Mapped T (f.graph T) d d' ∧ E.Has d' ∧ Steady T d' := by
  obtain ⟨d', refills⟩ := Refills.exists_of_fillable steady.fillable (.after f) gives
  have mapped : Mapped T (f.graph T) d d' := by
    refine .of_refills refills (fun n k hk args v yields => ?_) fun x y _ => Value.graph_eq
    obtain ⟨y, hy⟩ := behind n k hk v (holds.behind n k hk args v yields)
    rw [Ending.through_some (Value.graph_eq hy)]
    exact hy.settles
  exact ⟨d', refills.yields_fmap fun _ _ h => h, mapped, E.refill has refills,
    mapped.steady steady refills.fillable_right⟩

theorem yields_hoist_suspended (rewritten : (limit g [d]).Yields T d')
    (mapped : (fmap limit d' (.frame (.hoist g))).Yields T d'') :
    (Tree.hoist limit g (.tree (.suspended d))).Yields T (.tree (.suspended d'')) :=
  rewritten.bind (mapped.bind (Act.yields_pure _))

theorem limit_after_hoist (k : Value) (args : List Value) :
    limit (.after (.frame (.hoist g)) k) args = limit k args >>= Tree.hoist limit g := by
  rw [Value.after, Machine.limit_after]
  exact congrArg _ (funext fun v => Machine.limit_frame _ v)

theorem graph_hoist (hoisted : (Tree.hoist limit g x).Yields T y) :
    Value.graph T (.frame (.hoist g)) x = some y := by
  refine Value.graph_eq ?_
  rw [Machine.limit_frame]
  exact hoisted

/-! ### Hoisting -/

namespace Over

/-- **To hoist a natural rewriting** over a tree gives something. -/
theorem exists_hoist (rewriting : Rewriting T E E' g) (ht : Over T E total t) :
    ∃ r, (Tree.hoist limit g t).Yields T r := by
  refine ht.induction (motive := fun t => ∃ r, (Tree.hoist limit g t).Yields T r)
    ⟨_, Act.yields_pure _⟩ (fun p _ => ⟨_, Act.yields_pure _⟩) ?_
  intro d has steady holds ih
  obtain ⟨e, given, has', steady'⟩ := rewriting.gives has steady
  -- What is at hand in the rewritten descriptor was at hand before, so it can be hoisted.
  have contents : ∀ y, AtHand T e y → ∃ r, (limit (.frame (.hoist g)) [y]).Yields T r := by
    simp only [Machine.limit_frame]
    exact rewriting.atHand has steady given ih
  obtain ⟨d', refills⟩ :=
    Refills.exists_of_fillable steady'.fillable (.after (.frame (.hoist g))) contents
  exact ⟨_, yields_hoist_suspended given (refills.yields_fmap fun _ _ h => h)⟩

/-- **What hoisting makes of a suspended tree.** The descriptor is rewritten, and hoisting is mapped
over what the rewritten descriptor holds, which is trees of the first vocabulary still. -/
structure Hoists (T : ClassTable) (E E' : Vocabulary T) (total : Prop) (g d e d' : Value) : Prop where
  given : (limit g [d]).Yields T e
  has : E'.Has e
  steady : Steady T e
  holds : HoldsOnly T (Over T E total) e
  mapped : Mapped T (Value.graph T (.frame (.hoist g))) e d'
  has_mapped : E'.Has d'
  steady_mapped : Steady T d'
  hoisted : (Tree.hoist limit g (.tree (.suspended d))).Yields T (.tree (.suspended d'))

theorem exists_hoists (rewriting : Rewriting T E E' g) (has : E.Has d) (steady : Steady T d)
    (holds : HoldsOnly T (Over T E total) d) : ∃ e d', Hoists T E E' total g d e d' := by
  obtain ⟨e, given, has', steady'⟩ := rewriting.gives has steady
  have holds' := rewriting.holds has steady holds given
  have gives : ∀ x, Over T E total x → ∃ y, (limit (.frame (.hoist g)) [x]).Yields T y := by
    simp only [Machine.limit_frame]
    exact fun x hx => hx.exists_hoist rewriting
  obtain ⟨d', fmapped, mapped, has'', steady''⟩ :=
    exists_fmap has' steady' holds' (fun x hx => gives x (holds'.atHand x hx)) fun _ _ _ => gives
  exact ⟨e, d', given, has', steady', holds', mapped, has'', steady'',
    yields_hoist_suspended given fmapped⟩

/-- **What hoisting gives** is a tree of the other vocabulary. -/
theorem hoist {r : Value} (rewriting : Rewriting T E E' g) (ht : Over T E total t)
    (hoisted : (Tree.hoist limit g t).Yields T r) : Over T E' total r := by
  refine ⟨fun r => ∃ t, Over T E total t ∧ (Tree.hoist limit g t).Yields T r, ?_, t, ht, hoisted⟩
  rintro r ⟨t, ht, hoisted⟩
  cases ht.step with
  | failed =>
    obtain rfl := (Act.yields_pure _).unique hoisted
    exact .failed
  | done answers =>
    obtain rfl := (Act.yields_pure _).unique hoisted
    exact .done answers
  | suspended has steady holds =>
    obtain ⟨e, d', hoists⟩ := exists_hoists rewriting has steady holds
    obtain rfl := hoists.hoisted.unique hoisted
    refine .suspended hoists.has_mapped hoists.steady_mapped
      (hoists.mapped.holds hoists.steady hoists.holds fun x y hx hxy => ?_)
    obtain ⟨y', hoisted'⟩ := hx.exists_hoist rewriting
    rw [graph_hoist hoisted'] at hxy
    exact ⟨x, hx, Option.some.inj hxy ▸ hoisted'⟩

end Over

/-! ### A dialogue that gets louder -/

namespace Dialogue

variable {own : List (String × Value)} {m x : Value}

/-- Says everything twice, and asks as before. -/
def loud : Value :=
  .function (.closure ["d"] (.cases (.var "d")
    [(("Say", [("m", "message"), ("k", "next")]), .make "Say"
      [("message", .list [.var "m", .var "m"]), ("next", .var "k")])] (some (.var "d"))) [])

theorem yields_loud_say (hm : table.memberOf? sayClass.id own .scalar "message" = some m)
    (hx : SlotHolds table sayClass own ⟨"next", .direct⟩ x) :
    (limit loud [.descriptor sayClass own]).Yields table (saying (.list [m, m]) x) := by
  rw [loud, Machine.limit_closure]
  have belongs : ((Value.descriptor sayClass own).belongsTo "Say").Yields table true := by
    rintro ⟨classes, asked, log, remarks⟩ hw
    obtain rfl : classes = table := hw
    exact ⟨_, rfl, rfl⟩
  refine (Act.yields_pure (Value.descriptor sayClass own)).bind ?_
  -- The first case is the one of statements, so the fields are looked up and a statement is made.
  refine Act.Yields.bind (x := some (saying (.list [m, m]) x)) (belongs.bind ?_)
    (Act.yields_pure _)
  refine Act.Yields.bind (x := [("k", x), ("m", m), ("d", .descriptor sayClass own)])
    ((yields_lookup hm).bind ((yields_lookup hx).bind (Act.yields_pure _))) ?_
  rintro ⟨classes, asked, log, remarks⟩ hw
  obtain rfl : classes = table := hw
  exact ⟨_, rfl, rfl⟩

theorem yields_loud_ask :
    (limit loud [.descriptor askClass own]).Yields table (.descriptor askClass own) := by
  rw [loud, Machine.limit_closure]
  rintro ⟨classes, asked, log, remarks⟩ hw
  obtain rfl : classes = table := hw
  exact ⟨_, rfl, rfl⟩

/-- Statements and questions. -/
def lines : Vocabulary table where
  Has d := (∃ m x, d = saying m x) ∨ ∃ k, d = asking k
  refill {C F d d'} has refills := by
    rcases has with ⟨m, x, rfl⟩ | ⟨k, rfl⟩
    · cases refills with
      | direct slotted kind holds content =>
        obtain ⟨rfl, rfl⟩ := slotted.unique (slotted_say m x)
        exact .inl ⟨m, _, rfl⟩
      | function slotted kind holds =>
        obtain ⟨rfl, -⟩ := slotted.unique (slotted_say m x)
        simp at kind
    · cases refills with
      | direct slotted kind holds content =>
        obtain ⟨rfl, -⟩ := slotted.unique (slotted_ask k)
        simp at kind
      | function slotted kind holds =>
        obtain ⟨rfl, rfl⟩ := slotted.unique (slotted_ask k)
        exact .inr ⟨_, rfl⟩

theorem steady_saying (m x : Value) : Steady table (saying m x) :=
  ⟨.effect (slotted_say m x) (holds_say m x), fun _ _ hk => absurd hk not_behind_saying⟩

/-- A function mapped over a statement is applied to what follows. -/
theorem eq_of_mapped_saying {h : Value → Option Value} {m' x' : Value}
    (mapped : Mapped table h (saying m x) (saying m' x')) : m = m' ∧ h x = some x' := by
  cases mapped with
  | direct effect slot kind payload holds holds' content =>
    cases slot
    obtain rfl := holds.unique (holds_say m x)
    obtain rfl := holds'.unique (holds_say m' x')
    have same := payload _ rfl ⟨"message", none, true, false⟩ (by simp) rfl (by simp)
    exact ⟨Option.some.inj same, content⟩
  | function effect slot kind => cases slot; cases kind

theorem mapped_saying {h : Value → Option Value} {x' : Value} (hx : h x = some x') :
    Mapped table h (saying m x) (saying m x') := by
  have refills : Refills table (fun y z => h y = some z) id (saying m x) (saying m x') :=
    .direct (slotted_say m x) rfl (holds_say m x) hx
  exact (Renews.of_refills refills).mono (fun _ _ _ content => content)
    fun _ _ _ hk => absurd hk not_behind_saying

/-- To get louder is natural. -/
theorem rewriting_loud : Rewriting table lines lines loud where
  gives {d} has steady := by
    rcases has with ⟨m, x, rfl⟩ | ⟨k, rfl⟩
    · exact ⟨_, yields_loud_say rfl (holds_say m x), .inl ⟨_, x, rfl⟩, steady_saying _ x⟩
    · exact ⟨_, yields_loud_ask, .inr ⟨k, rfl⟩, steady⟩
  natural {h d d' e e'} has has' steady steady' mapped given given' := by
    rcases has with ⟨m, x, rfl⟩ | ⟨k, rfl⟩
    · rcases has' with ⟨m', x', rfl⟩ | ⟨k', rfl⟩
      · obtain ⟨rfl, hx⟩ := eq_of_mapped_saying mapped
        obtain rfl := (yields_loud_say rfl (holds_say m x)).unique given
        obtain rfl := (yields_loud_say rfl (holds_say m x')).unique given'
        exact mapped_saying hx
      · cases mapped
    · rcases has' with ⟨m', x', rfl⟩ | ⟨k', rfl⟩
      · cases mapped
      · obtain rfl := yields_loud_ask.unique given
        obtain rfl := yields_loud_ask.unique given'
        exact mapped

theorem over_say (hx : Over table lines total x) : Over table lines total (say m x) := by
  refine .of_step (.suspended (.inl ⟨m, x, rfl⟩) (steady_saying m x) ⟨fun y hy => ?_, ?_⟩)
  · rw [eq_of_atHand_saying hy]
    exact hx
  · exact fun _ _ hk => absurd hk not_behind_saying

theorem over_pure (v : Value) : Over T E total (.tree (Tree.pure v)) :=
  .of_step (.done fun _ => ⟨_, Act.settles_pure v, .inl ⟨v, rfl⟩⟩)

theorem over_ask_echo : Over table lines total (ask echo) := by
  refine .of_step (.suspended (.inr ⟨echo, rfl⟩) ⟨.effect (slotted_ask echo) (holds_ask echo), ?_⟩
    ⟨fun y hy => absurd hy not_atHand_asking, ?_⟩)
  · intro n k hk args
    obtain ⟨rfl, rfl⟩ := eq_of_behind_asking hk
    by_cases length : args.length = 1
    · obtain ⟨v, rfl⟩ := List.length_eq_one_iff.mp length
      exact ⟨_, (yields_echo v).settles, fun _ => .inl ⟨_, rfl⟩⟩
    · exact ⟨_, settles_echo length, fun same => absurd same length⟩
  · intro n k hk args v yields
    obtain ⟨rfl, rfl⟩ := eq_of_behind_asking hk
    by_cases length : args.length = 1
    · obtain ⟨u, rfl⟩ := List.length_eq_one_iff.mp length
      obtain rfl := (yields_echo u).unique yields
      exact over_say (over_pure _)
    · simpa using yields.settles.unique (settles_echo length)

end Dialogue

end EffectTrees
