import EffectTrees.Proofs.Elimination.Postponed
import EffectTrees.Proofs.Tree.Applicative
import EffectTrees.Proofs.Tree.Functor

/-!
# Elimination fuses with binding

To bind a function to a tree and to tear the result down is to tear the tree down at once, into a
target that goes on with what the function makes of a value (`iterateIn_bind`). The algebra may be any
program: it may call what it finds in a function slot as often as it likes, or give it away. So what
both sides come to is compared up to functions that bind and iterate on the one side and iterate into
the other target on the other side (`Fusion.stepwise`). That these do the same when they are called is
a part of what is proved.

* `Fusion.fused` — the target: a value becomes what the iteration makes of the tree that the function
  gives, and absence is what it was.
* `Fusible` — the trees that are bound: their payloads answer with values of a kind, on which the
  function gives trees, and their slots can be filled.
* `Fusion.matched_stepwise`, `Fusion.matched_fused` — each side follows the other one, within every
  depth of calls. The tree is bound as far as it is at hand before the iteration starts, whereas the
  fused iteration binds leaf by leaf. This makes no difference as binding comes to a tree in any case
  (`Fusible.exists_bindsTo`).
-/

namespace EffectTrees

open Machine (limit call)
open Act (EndsLike)

variable {T : ClassTable} {A : Value → Prop} {algebra target f d d' g t u x x' : Value} {m n : Nat}

/-! ### Trees that are bound -/

/-- **Trees to which a function on values of a kind can be bound.** Payloads answer with such values,
slots can be filled and hold such trees, and function slots give such trees or abort. -/
structure Fusible (T : ClassTable) (A : Value → Prop) (t : Value) : Prop where
  isOver : Over T (.all T) True t
  bears : Bears T A t

/-- Whatever the function gives are such trees. -/
def GivesFusible (T : ClassTable) (A : Value → Prop) (g : Value) : Prop :=
  ∀ {args : List Value} {w w' : World} {x : Value}, w.classes = T →
    (limit g args).runIn w = some (.ok x, w') → Fusible T A x

/-- The function gives a tree for each value of the kind. -/
def GivesTrees (T : ClassTable) (A : Value → Prop) (f : Value) : Prop :=
  ∀ v, A v → ∃ u, (limit f [v]).Yields T (.tree u)

namespace Fusible

theorem fillable (h : Fusible T A (.tree (.suspended d))) : Fillable T d := by
  cases h.isOver.step with
  | suspended has steady holds => exact steady.fillable

theorem atHand (h : Fusible T A (.tree (.suspended d))) (hx : AtHand T d x) : Fusible T A x := by
  cases h.isOver.step with
  | suspended has steady holds =>
    cases h.bears.step with
    | suspended contents behind => exact ⟨holds.atHand x hx, contents x hx⟩

theorem behind (h : Fusible T A (.tree (.suspended d))) (hg : Behind T d n g) :
    GivesFusible T A g := by
  intro args w w' x hw run
  cases h.isOver.step with
  | suspended has steady holds =>
    cases h.bears.step with
    | suspended contents behind =>
      obtain ⟨o, settles, values⟩ := behind n g hg args
      obtain ⟨yields, rfl, -⟩ := settles.yields_of_run hw run
      -- The function does not give the unknown argument, since it gives a tree over the vocabulary.
      have isOver := holds.behind n g hg args x yields
      refine ⟨isOver, (values x rfl).resolve_left ?_⟩
      rintro rfl
      exact absurd isOver.known (by simp [Value.isPoison])

end Fusible

/-! ### What binding comes to -/

/-- **What it comes to to bind a function**, with a rule for each shape of a tree. -/
inductive BindsTo (T : ClassTable) (f : Value) : Value → Value → Prop where
  | failed : BindsTo T f (.tree .failed) (.tree .failed)
  | value {p : Payload} {v : Value} {u : Tree} (value : (p.resolve limit).Yields T (some v))
      (given : (limit f [v]).Yields T (.tree u)) : BindsTo T f (.tree (.done p)) (.tree u)
  | nothing {p : Payload} (nothing : (p.resolve limit).Yields T none) :
      BindsTo T f (.tree (.done p)) (.tree .failed)
  | suspended {d d' : Value}
      (refills : Refills T (fun x y => (limit (.frame (.bind f)) [x]).Yields T y)
        (.after (.frame (.bind f))) d d') :
      BindsTo T f (.tree (.suspended d)) (.tree (.suspended d'))

theorem BindsTo.yields (h : BindsTo T f t u) : (limit (.frame (.bind f)) [t]).Yields T u := by
  rw [Machine.limit_frame]
  cases h with
  | failed => exact Act.yields_pure _
  | value value given => exact binding_some value (guarded_known given rfl)
  | nothing nothing => exact binding_none nothing
  | suspended refills =>
    exact (refills.yields_fmap fun _ _ yields => yields).bind (Act.yields_pure _)

/-- To bind a function that gives trees comes to something. -/
theorem Fusible.exists_bindsTo (h : Fusible T A t) (hf : GivesTrees T A f) :
    ∃ u, BindsTo T f t u := by
  -- Contents are bound first. That they can be written back is known from the vocabulary.
  have bound : Over T (.all T) True t → ∃ u, BindsTo T f t u := by
    refine h.bears.induction (motive := fun t => Over T (.all T) True t → ∃ u, BindsTo T f t u)
      (fun _ => ⟨_, .failed⟩) (fun p hp _ => ?_) fun d _ ih isOver => ?_
    · rcases hp.resolve with ⟨v, hv, value⟩ | nothing
      · obtain ⟨u, given⟩ := hf v hv
        exact ⟨_, .value value given⟩
      · exact ⟨_, .nothing nothing⟩
    · cases isOver.step with
      | suspended has steady holds =>
        have contents : ∀ x, AtHand T d x → ∃ y, (limit (.frame (.bind f)) [x]).Yields T y := by
          intro x hx
          obtain ⟨y, bound⟩ := ih x hx (holds.atHand x hx)
          exact ⟨y, bound.yields⟩
        obtain ⟨d', refills⟩ :=
          Refills.exists_of_fillable steady.fillable (.after (.frame (.bind f))) contents
        exact ⟨_, .suspended refills⟩
  exact bound h.isOver

/-! ### The target that goes on -/

namespace Fusion

/-- The function that gives what absence is in a target. -/
def absence (target : Value) : Value :=
  .function (.closure [] (.library "target_empty" [.var "t"]) [("t", target)])

/-- **The target that goes on with what a function makes of a value.** -/
def fused (algebra target f : Value) : Value :=
  .target (.custom [("pure", .after (.frame (.iterateIn algebra target)) f),
    ("empty", absence target)])

theorem limit_absence (target : Value) :
    limit (absence target) [] = target.invoke limit .empty [] := by
  rw [absence, Machine.limit_closure]
  rfl

/-- A value becomes what the iteration makes of the tree that the function gives. -/
theorem fused_pure (algebra target f v : Value) :
    (fused algebra target f).invoke limit .pure [v] =
      limit f [v] >>= Tree.iterateIn limit algebra target := by
  change limit (.after (.frame (.iterateIn algebra target)) f) [v] = _
  rw [Value.after, Machine.limit_after]
  exact congrArg _ (funext fun u => Machine.limit_frame _ u)

/-- Absence is what it was. -/
theorem fused_empty (algebra target f : Value) :
    (fused algebra target f).invoke limit .empty [] = target.invoke limit .empty [] :=
  limit_absence target

theorem quiet_absence (ht : Quiet target) : Quiet (absence target) :=
  .of_shape (.function (.closure rfl (.cons ⟨rfl, ht⟩ .nil)))

/-! ### The two sides -/

/-- Functions that go on, with `F` from what `I` makes of a function, are exchanged for functions that
go on with `F'` from what `I'` makes of a related one. -/
def goingOn (T : ClassTable) (A : Value → Prop) (F F' : Value) (I I' : Value → Value) : Exchange where
  Swaps C f f' := ∃ g g', C g g' ∧ GivesFusible T A g ∧ GivesFusible T A g' ∧
    f = .after F (I g) ∧ f' = .after F' (I' g')
  mono h := by
    rintro f f' ⟨g, g', hg, gives, gives', hf, hf'⟩
    exact ⟨g, g', h _ _ hg, gives, gives', hf, hf'⟩
  typeName := by
    rintro C f f' ⟨g, g', -, -, -, rfl, rfl⟩
    rfl
  left_ne := by
    rintro C f f' ⟨g, g', -, -, -, rfl, rfl⟩
    simp
  right_ne := by
    rintro C f f' ⟨g, g', -, -, -, rfl, rfl⟩
    simp

variable (T A algebra target f)

/-- To iterate. -/
def iterating : Value := .frame (.iterateIn algebra target)

/-- To iterate into the fused target. -/
def iteratingFused : Value := .frame (.iterateIn algebra (fused algebra target f))

/-- The function whose results are bound. -/
def bindingAfter (g : Value) : Value := .after (.frame (.bind f)) g

/-- Binding and iterating on the left, the fused iteration on the right. -/
def stepwise : Comparison :=
  { goingOn T A (iterating algebra target) (iteratingFused algebra target f) (bindingAfter f) id with
    classes := T, observed := False }

/-- The other way around. -/
def allAtOnce : Comparison :=
  { goingOn T A (iteratingFused algebra target f) (iterating algebra target) id (bindingAfter f) with
    classes := T, observed := False }

variable {T A algebra target f}

theorem rel_iterating (ha : Quiet algebra) (htarget : Quiet target) (X : Exchange) :
    X.Rel (iterating algebra target) (iterating algebra target) :=
  .frame (.iterateIn (ha.rel X) (htarget.rel X))

/-- The value of a run within some depth. -/
def RunsTo (T : ClassTable) (n : Nat) (f x y : Value) : Prop :=
  ∃ w w', w.classes = T ∧ (call n f [x]).runIn w = some (.ok y, w')

/-- A descriptor that is bound within some depth is filled with what the contents are bound to. -/
theorem exists_refills_of_runsTo {Y : Value → Value} (fusible : Fusible T A (.tree (.suspended d)))
    (hY : ∀ x, Fusible T A x → (limit (.frame (.bind f)) [x]).Yields T (Y x))
    (run : RunsTo T n (.frame (.bind f)) (.tree (.suspended d)) u) :
    ∃ d', u = .tree (.suspended d') ∧
      Refills T (fun x y => y = Y x ∧ RunsTo T n (.frame (.bind f)) x y) (.after (.frame (.bind f)))
        d d' := by
  obtain ⟨w, w', hw, run⟩ := run
  cases n with
  | zero => simp at run
  | succ n =>
    change (fmap (call n) d (.frame (.bind f)) >>= fun d' =>
      pure (Value.tree (.suspended d'))).runIn w = some (.ok u, w') at run
    obtain ⟨d', w₁, filled, run⟩ := Act.exists_runs_of_bind run
    obtain ⟨rfl, -⟩ : .tree (.suspended d') = u ∧ w₁ = w' := by simpa using run
    refine ⟨d', rfl, ?_⟩
    have contents : ∀ x, AtHand T d x → (call n (.frame (.bind f)) [x]).FaultOr T
        fun y => y = Y x ∧ RunsTo T (n + 1) (.frame (.bind f)) x y := by
      -- Whatever a run within a depth gives is what binding comes to in any case.
      intro x hx w hw r w' run
      obtain ⟨rfl, hw'⟩ := (hY x (fusible.atHand hx)).of_run hw (Machine.runIn_limit_of_call run)
      exact .inr ⟨_, rfl, ⟨rfl, w, w', hw, Machine.runIn_call_of_le (Nat.le_succ n) run⟩, hw'⟩
    rcases faultOr_fmap contents w hw _ _ filled with ⟨s, hs⟩ | ⟨_, same, refills, -⟩
    · simp at hs
    · obtain rfl := Except.ok.inj same
      exact refills

/-! ### Side by side -/

/-- Both sides go into a suspended tree, and the algebra is called with what they make of it. -/
theorem matched_suspended {K : Comparison} {F F' : Value} {I I' : Value → Value}
    {b b' : Value → Act Value} {c c' : Act Value} (hT : K.classes = T)
    (exchange : K.toExchange = goingOn T A F F' I I') (hn : K.Callers (call n) limit)
    (ha : Quiet algebra) (related : K.Rel d d') (fusible : Fusible T A (.tree (.suspended d)))
    (fusible' : Fusible T A (.tree (.suspended d')))
    (fills : Fills T b (fun g => .after F (I g)) d c)
    (fills' : Fills T b' (fun g => .after F' (I' g)) d' c')
    (content : ∀ x x', Fusible T A x → Fusible T A x' → AtHand T d x → K.Rel x x' →
      K.Matched K.Rel (b x) (b' x')) :
    K.Matched K.Rel (c >>= fun v => call n algebra [v]) (c' >>= fun v => limit algebra [v]) := by
  subst hT
  have filled : K.Matched K.Rel c c' := by
    refine .fills related fills fills' (fun _ _ => fusible'.fillable)
      (fun x x' hx hx' => content x x' (fusible.atHand hx) (fusible'.atHand hx') hx) ?_
    -- Behind function slots stand the functions that are exchanged, and none other.
    intro k g g' held held' hg
    rw [exchange] at hg ⊢
    exact .swap ⟨g, g', hg, fusible.behind held, fusible'.behind held', rfl, rfl⟩
  exact filled.bind fun v v' hv => hn _ _ _ _ (ha.rel _) (.cons hv .nil)

/-- The first step of a call within a depth, and what is known of its value. -/
theorem matched_given {K : Comparison} {i i' : Value} {args args' : List Value} {n : Nat}
    (hT : K.classes = T) (hn : K.Callers (call n) limit) (hi : K.Rel i i')
    (hargs : List.Forall₂ K.Rel args args') (fusible : GivesFusible T A i)
    (fusible' : GivesFusible T A i') :
    K.Matched (fun x x' => Fusible T A x ∧ K.Rel x x' ∧ Fusible T A x') (call n i args)
      (limit i' args') := by
  subst hT
  exact ((hn i i' args args' hi hargs).and_right fun _ _ _ hw run => fusible' hw run).and_left
    fun _ _ _ hw run => fusible hw (Machine.runIn_limit_of_call run)

/-- A tree that is related to a failed one is absent on both sides. -/
theorem matched_absent (htarget : Quiet target)
    (hn : (stepwise T A algebra target f).Callers (call n) limit)
    (hu : (stepwise T A algebra target f).Rel u (.tree .failed)) :
    (stepwise T A algebra target f).Matched (stepwise T A algebra target f).Rel
      (Tree.iterateIn (call n) algebra target u)
      ((fused algebra target f).invoke limit .empty []) := by
  rw [fused_empty]
  cases hu.shape with
  | tree t =>
    cases t with
    | failed => exact .invoke hn (htarget.rel _) .empty .nil

/-- What is absent in the fused target is absent after binding. -/
theorem matched_empty (htarget : Quiet target)
    (hn : (allAtOnce T A algebra target f).Callers (call n) limit) :
    (allAtOnce T A algebra target f).Matched (allAtOnce T A algebra target f).Rel
      ((fused algebra target f).invoke (call n) .empty [])
      (Tree.iterateIn limit algebra target (.tree .failed)) := by
  change Comparison.Matched _ _ (call n (absence target) []) (target.invoke limit .empty [])
  rw [← limit_absence]
  exact hn _ _ _ _ ((quiet_absence htarget).rel _) .nil

/-- What the fused target makes of a value is what the iteration makes of the tree that is given. -/
theorem matched_pure {v v' : Value} (ha : Quiet algebra) (htarget : Quiet target) (hf : Quiet f)
    (hn : (allAtOnce T A algebra target f).Callers (call n) limit)
    (hv : (allAtOnce T A algebra target f).Rel v v') (given : (limit f [v']).Yields T u) :
    (allAtOnce T A algebra target f).Matched (allAtOnce T A algebra target f).Rel
      ((fused algebra target f).invoke (call n) .pure [v])
      (Tree.iterateIn limit algebra target u) := by
  change Comparison.Matched _ _ (call n (.after (iterating algebra target) f) [v]) _
  cases n with
  | zero => exact .tooDeep
  | succ n =>
    have hn := hn.of_succ
    have gives := hn f f [v] [v'] (hf.rel _) (.cons hv .nil)
    refine Comparison.Matched.start_left id gives given fun y hy => ?_
    have iterated := hn _ _ [y] [u] (rel_iterating ha htarget _) (.cons hy .nil)
    rwa [iterating, Machine.limit_frame] at iterated

/-! ### One side follows the other -/

section

variable (ha : Quiet algebra) (htarget : Quiet target) (hf : Quiet f) (gives : GivesTrees T A f)
include ha htarget hf gives

/-- **The fused iteration follows.** -/
theorem matched_stepwise (hm : (stepwise T A algebra target f).Callers (call m) limit)
    (hn : (stepwise T A algebra target f).Callers (call n) limit)
    (related : (stepwise T A algebra target f).Rel x x') (fusible : Fusible T A x)
    (fusible' : Fusible T A x') (bound : RunsTo T m (.frame (.bind f)) x u) :
    (stepwise T A algebra target f).Matched (stepwise T A algebra target f).Rel
      (call n (iterating algebra target) [u]) (limit (iteratingFused algebra target f) [x']) := by
  have : Nonempty Value := ⟨.null⟩
  choose! Y hY using fun x (h : Fusible T A x) => h.exists_bindsTo gives
  induction n generalizing x x' u with
  | zero => exact .tooDeep
  | succ n ih =>
    have hn := hn.of_succ
    rw [iteratingFused, Machine.limit_frame]
    change Comparison.Matched _ _ (Tree.iterateIn (call n) algebra target u)
      (Tree.iterateIn limit algebra (fused algebra target f) x')
    -- What is bound on the left is related to what would be bound on the right.
    obtain ⟨u', bound'⟩ := fusible'.exists_bindsTo gives
    have hu : (stepwise T A algebra target f).Rel u u' := by
      obtain ⟨w, w', hw, run⟩ := bound
      have binds := hm _ _ [x] [x'] (.frame (.bind (hf.rel _))) (.cons related .nil)
      exact binds.related_of_run id hw run bound'.yields
    cases bound' with
    | failed => exact matched_absent htarget hn hu
    | nothing nothing => exact .start_right id nothing (matched_absent htarget hn hu)
    | @value _ v _ value given =>
      -- The tree that the function gives is at hand on the left, and still to be given on the right.
      refine .start_right id value ?_
      change Comparison.Matched _ _ _ ((fused algebra target f).invoke limit .pure [v])
      rw [fused_pure]
      exact .start_right id given (.iterateIn hn (ha.rel _) (htarget.rel _) hu)
    | @suspended d' _ _ =>
      cases related.shape with
      | tree t =>
        cases t with
        | @suspended d _ hd =>
          have yields := fun y hy => (hY y hy).yields
          obtain ⟨d₁, rfl, refills⟩ := exists_refills_of_runsTo fusible yields bound
          refine matched_suspended rfl rfl hn ha hd fusible fusible'
            (fills_refilled (refills.mono fun _ _ _ h => h.1)) (fills_fmap T limit d' _) ?_
          intro y y' fusible fusible' hy related
          obtain ⟨_, -, rfl, bound⟩ := refills.atHand_left hy
          exact ih hn related fusible fusible' bound

/-- To bind first, within some depth, makes no difference. -/
theorem matched_bound (hm : (stepwise T A algebra target f).Callers (call m) limit)
    (hn : (stepwise T A algebra target f).Callers (call n) limit)
    (related : (stepwise T A algebra target f).Rel x x') (fusible : Fusible T A x)
    (fusible' : Fusible T A x') :
    (stepwise T A algebra target f).Matched (stepwise T A algebra target f).Rel
      (call m (.frame (.bind f)) [x] >>= fun u => call n (iterating algebra target) [u])
      (limit (iteratingFused algebra target f) [x']) := by
  obtain ⟨u', bound'⟩ := fusible'.exists_bindsTo gives
  have bound := hm _ _ [x] [x'] (.frame (.bind (hf.rel _))) (.cons related .nil)
  refine Comparison.Matched.start_left id (bound.and_left (R := RunsTo T m (.frame (.bind f)) x)
    fun w w' u hw run => ⟨w, w', hw, run⟩) bound'.yields fun u hu => ?_
  exact matched_stepwise ha htarget hf gives hm hn related fusible fusible' hu.1

/-- **To bind and iterate follows** likewise. -/
theorem matched_fused (hn : (allAtOnce T A algebra target f).Callers (call n) limit)
    (related : (allAtOnce T A algebra target f).Rel x x') (fusible : Fusible T A x)
    (fusible' : Fusible T A x') (bound : BindsTo T f x' u) :
    (allAtOnce T A algebra target f).Matched (allAtOnce T A algebra target f).Rel
      (call n (iteratingFused algebra target f) [x]) (limit (iterating algebra target) [u]) := by
  have : Nonempty Value := ⟨.null⟩
  choose! Y hY using fun x (h : Fusible T A x) => h.exists_bindsTo gives
  induction n generalizing x x' u with
  | zero => exact .tooDeep
  | succ n ih =>
    have hn := hn.of_succ
    rw [iterating, Machine.limit_frame]
    change Comparison.Matched _ _ (Tree.iterateIn (call n) algebra (fused algebra target f) x)
      (Tree.iterateIn limit algebra target u)
    obtain ⟨t, rfl⟩ := fusible.isOver.exists_tree
    cases related.shape with
    | tree t =>
      cases t with
      | failed =>
        cases bound with
        | failed => exact matched_empty htarget hn
      | done hp =>
        cases bound with
        | value value given =>
          -- The payload is computed on the left only, since on the right binding has done so.
          refine Comparison.Matched.start_left id (.resolve hn hp) value fun r hr => ?_
          cases hr with
          | some hv => exact matched_pure ha htarget hf hn hv given
        | nothing nothing =>
          refine Comparison.Matched.start_left id (.resolve hn hp) nothing fun r hr => ?_
          cases hr with
          | none => exact matched_empty htarget hn
      | @suspended d d' hd =>
        cases bound with
        | @suspended _ d₁ refills =>
          have refills : Refills T (fun y z => z = Y y) (.after (.frame (.bind f))) d' d₁ :=
            refills.mono fun y z hy yields => yields.unique (hY y (fusible'.atHand hy)).yields
          refine matched_suspended rfl rfl hn ha hd fusible fusible' (fills_fmap T _ d _)
            (fills_refilled refills) ?_
          intro y y' fusible fusible' _ related
          exact ih hn related fusible fusible' (hY y' fusible')

/-- What the exchanged functions do within some depth. -/
theorem callers_stepwise (n : Nat) : (stepwise T A algebra target f).Callers (call n) limit := by
  refine Comparison.callers_call (fun n hn i i' args args' swap hargs => ?_) n
  obtain ⟨g, g', hg, fusible, fusible', rfl, rfl⟩ := swap
  change Comparison.Matched _ _ (call n (bindingAfter f g) args >>= fun u =>
    call n (iterating algebra target) [u]) (limit (.after (iteratingFused algebra target f) g') args')
  rw [Value.after, Machine.limit_after]
  -- To bind after the function takes one depth more than to call it.
  cases n with
  | zero =>
    intro w w' _ r w₁ run
    simp [Act.runIn_bind] at run
  | succ m =>
    have hm := hn.of_succ
    change Comparison.Matched _ _ ((call m g args >>= fun x => call m (.frame (.bind f)) [x]) >>= _) _
    rw [bind_assoc]
    refine (matched_given rfl hm hg hargs fusible fusible').bind ?_
    rintro x x' ⟨fusible, related, fusible'⟩
    exact matched_bound ha htarget hf gives hm hn related fusible fusible'

theorem callers_allAtOnce (n : Nat) : (allAtOnce T A algebra target f).Callers (call n) limit := by
  refine Comparison.callers_call (fun n hn i i' args args' swap hargs => ?_) n
  obtain ⟨g, g', hg, fusible, fusible', rfl, rfl⟩ := swap
  change Comparison.Matched _ _ (call n g args >>= fun x =>
    call n (iteratingFused algebra target f) [x])
      (limit (.after (iterating algebra target) (bindingAfter f g')) args')
  rw [Value.after, Machine.limit_after, bindingAfter, Value.after, Machine.limit_after, bind_assoc]
  refine (matched_given rfl hn hg hargs fusible fusible').bind ?_
  rintro x x' ⟨fusible, related, fusible'⟩
  obtain ⟨u', bound⟩ := fusible'.exists_bindsTo gives
  exact .start_right id bound.yields
    (matched_fused ha htarget hf gives hn related fusible fusible' bound)

end

/-- What is exchanged on the one side is exchanged on the other side the other way around. -/
theorem flip_stepwise {v v' : Value} (h : (stepwise T A algebra target f).Rel v v') :
    (allAtOnce T A algebra target f).Rel v' v := by
  refine h.flip ?_
  rintro C _ _ ⟨g, g', hg, fusible, fusible', left, right⟩
  exact ⟨g', g, hg, fusible', fusible, right, left⟩

end Fusion

open Fusion in
/-- **Elimination fuses with binding.** To bind a function and to iterate ends like the iteration into
the target that goes on with the function, with values that differ in functions that do the one or the
other. To call values that differ in this way, with arguments that do, ends alike, too. -/
theorem iterateIn_bind (ha : Quiet algebra) (htarget : Quiet target) (hf : Quiet f) (ht : Quiet t)
    (fusible : Fusible T A t) (gives : GivesTrees T A f) :
    EndsLike T (stepwise T A algebra target f).Rel
        (t.invoke limit .bind [f] >>= Tree.iterateIn limit algebra target)
        (Tree.iterateIn limit algebra (fused algebra target f) t) ∧
      ∀ g g' args args', (stepwise T A algebra target f).Rel g g' →
        List.Forall₂ (stepwise T A algebra target f).Rel args args' →
          EndsLike T (stepwise T A algebra target f).Rel (limit g args) (limit g' args') := by
  have callers := callers_stepwise ha htarget hf gives
  have callers' := callers_allAtOnce ha htarget hf gives
  refine ⟨?_, fun g g' args args' hg hargs => ?_⟩
  · obtain ⟨u, bound⟩ := fusible.exists_bindsTo gives
    -- Each side follows within every depth, and so without a bound on the depth.
    have there : (stepwise T A algebra target f).Matched (stepwise T A algebra target f).Rel
        (limit (.frame (.bind f)) [t] >>= fun u => limit (iterating algebra target) [u])
        (limit (iteratingFused algebra target f) [t]) := by
      have tends := (Machine.tends_limit (.frame (.bind f)) [t]).bind fun u =>
        Machine.tends_limit (iterating algebra target) [u]
      exact .of_tends (fun n => matched_bound ha htarget hf gives (callers n) (callers n)
        (ht.rel _) fusible fusible) tends
    have back : (allAtOnce T A algebra target f).Matched (allAtOnce T A algebra target f).Rel
        (limit (iteratingFused algebra target f) [t])
        (limit (.frame (.bind f)) [t] >>= fun u => limit (iterating algebra target) [u]) :=
      .of_tends (fun n => .start_right id bound.yields
        (matched_fused ha htarget hf gives (callers' n) (ht.rel _) fusible fusible bound))
        (Machine.tends_limit _ _)
    simp only [iterating, iteratingFused, Machine.limit_frame] at there back
    exact .of_unobserved there back id id rfl
  · have there := Comparison.callers_limit callers g g' args args' hg hargs
    have back := Comparison.callers_limit callers' g' g args' args (flip_stepwise hg)
      (forall₂_flip (fun _ _ => flip_stepwise) hargs)
    exact .of_unobserved there back id id rfl

/-! ### Fusion in a dialogue -/

namespace Fusion

open Dialogue

theorem quiet_say {m x : Value} (hm : Quiet m) (hx : Quiet x) : Quiet (say m x) :=
  .suspended (.of_shape (.descriptor _ (.cons ⟨rfl, hm⟩ (.cons ⟨rfl, hx⟩ .nil))))

theorem quiet_farewell : Quiet farewell :=
  .frame (.always (quiet_say (.scalar _) (.pure (.scalar _))))

theorem quiet_hello : Quiet (say (.str "hello") (ask echo)) :=
  quiet_say (.scalar _) (Postponed.quiet_ask Postponed.quiet_echo)

theorem fusible_hello : Fusible table (fun _ => True) (say (.str "hello") (ask echo)) := by
  have isOver : Over table lines True (say (.str "hello") (ask echo)) := over_say over_ask_echo
  exact ⟨isOver.all, isOver.bears⟩

theorem givesTrees_farewell : GivesTrees T A farewell := by
  intro v _
  refine ⟨.suspended (saying (.str "bye") (.tree (Tree.pure (.int 2)))), ?_⟩
  rw [farewell, Machine.limit_frame]
  exact Act.yields_pure _

end Fusion

open Dialogue Fusion Postponed in
/-- The algebra answers a question and logs what is said, and the function says goodbye. -/
theorem iterateIn_bind_dialogue :
    (Quiet clerk ∧ Quiet (.target .list) ∧ Quiet farewell ∧ Quiet (say (.str "hello") (ask echo)) ∧
      Fusible table (fun _ => True) (say (.str "hello") (ask echo)) ∧
      GivesTrees table (fun _ => True) farewell) ∧
      EndsLike table (stepwise table (fun _ => True) clerk (.target .list) farewell).Rel
        ((say (.str "hello") (ask echo)).invoke limit .bind [farewell] >>=
          Tree.iterateIn limit clerk (.target .list))
        (Tree.iterateIn limit clerk (fused clerk (.target .list) farewell)
          (say (.str "hello") (ask echo))) := by
  have fusion := iterateIn_bind quiet_clerk quiet_list_target quiet_farewell quiet_hello
    fusible_hello givesTrees_farewell
  exact ⟨⟨quiet_clerk, quiet_list_target, quiet_farewell, quiet_hello, fusible_hello,
    givesTrees_farewell⟩, fusion.1⟩

end EffectTrees
