import EffectTrees.Proofs.Tree.Functor

/-!
# Folding trees into trees

A tree can be folded into trees again, with a function that lifts each descriptor. The fold wraps
what the descriptor holds into finished trees, and goes on from these by binding. That leads to what
is held itself (`yields_unwrapped`), since a tree is a value that is known, and a guard lets it
through. So the fold builds the tree anew that it has come from. If descriptors are rewritten before
they are lifted, it builds the tree that hoisting gives (`fold_similar_hoist`).

The two trees are similar and not equal: the fold has computed the payloads of finished trees, which
hoisting leaves as they are.
-/

namespace EffectTrees

open Machine (limit)

variable {T : ClassTable} {total : Prop} {E E' : Vocabulary T} {P : Value → Prop}
  {h h' : Value → Option Value} {R : Value → Value → Prop} {d d' e f g r t u w x : Value}

/-! ### Similar trees and equal ones -/

/-- What is in concord is alike, if what is related is known. -/
theorem Concord.alike {mayFail : Prop} {a b : Act Value} (concord : Concord T mayFail R a b)
    (known : ∀ y z, R y z → y.isPoison = false ∧ z.isPoison = false) : Alike T mayFail R a b := by
  cases concord with
  | values left right related =>
    exact .values left right (known _ _ related).1 (known _ _ related).2 related
  | aborts left right =>
    exact .nothing (yields_probe_none_of_abort left) (yields_probe_none_of_abort right)
  | lost may left right => exact .lost may left right

theorem Equal.known (equal : Equal T t u) (known : t.isPoison = false) : u.isPoison = false := by
  cases equal.step with
  | refl => exact known
  | suspended renews => rfl

/-- What is alike stays alike if the one side is replaced by what is in concord with it. -/
theorem Alike.trans_concord {mayFail : Prop} {S : Value → Value → Prop} {a b c : Act Value}
    (alike : Alike T mayFail R a b) (concord : Concord T mayFail (Equal T) b c)
    (trans : ∀ x y z, R x y → Equal T y z → S x z) : Alike T mayFail S a c := by
  cases alike with
  | values left right known known' related =>
    cases concord with
    | values left' right' equal =>
      obtain rfl := right.unique left'
      exact .values left right' known (equal.known known') (trans _ _ _ related equal)
    | aborts left' _ => simpa using right.settles.unique left'
    | lost _ left' _ => exact absurd left' right.not_lost
  | nothing left right =>
    cases concord with
    | @values v v' left' right' equal =>
      cases known : v.isPoison with
      | false => exact absurd ((left'.probe known).unique right) (by simp)
      | true =>
        -- Only the unknown argument is equal to the unknown argument.
        obtain rfl := Value.isPoison_iff.mp known
        cases equal.step
        exact .nothing left (Act.settles_ok_iff.mp right'.settles.probe)
    | aborts _ right' => exact .nothing left (yields_probe_none_of_abort right')
    | lost _ left' _ => exact absurd left'.probe right.not_lost
  | lost may left right =>
    cases concord with
    | values left' _ _ => exact absurd right left'.not_lost
    | aborts left' _ =>
      exact absurd right.probe (yields_probe_none_of_abort left').not_lost
    | lost _ _ right' => exact .lost may left right'

/-- What is equal to a similar tree is similar. -/
theorem Similar.trans_equal (similar : Similar T t u) (equal : Equal T u w) : Similar T t w := by
  refine ⟨fun t w => ∃ u, Similar T t u ∧ Equal T u w, ?_, u, similar, equal⟩
  rintro t w ⟨u, similar, equal⟩
  cases equal.step with
  | refl => exact similar.step.mono fun x y hxy => ⟨y, hxy, Equal.refl y⟩
  | suspended renews' =>
    cases similar.step with
    | hopeless left right => cases right
    | suspended renews =>
      refine .suspended ((renews.comp renews').mono (fun _ _ _ both => both) ?_)
      intro n k k'' _ behind args
      obtain ⟨k', alike, concord⟩ := behind
      exact (alike args).trans_concord (concord args) fun x y z hxy hyz => ⟨y, hxy, hyz⟩

/-! ### Lifted descriptors -/

/-- What the fold goes on with. -/
def refolding (transform : Value) : Value := .frame (.fold transform (.target .tree))

variable {transform : Value}

theorem limit_refolding (x : Value) :
    limit (refolding transform) [x] = Tree.fold limit transform (.target .tree) x :=
  Machine.limit_frame _ x

theorem graph_pure (x : Value) : Value.graph T (.frame .pure) x = some (.tree (Tree.pure x)) := by
  refine Value.graph_eq ?_
  rw [Machine.limit_frame]
  exact Act.yields_pure _

/-- To lift a descriptor wraps what it holds. -/
theorem exists_lift (has : E.Has e) (steady : Steady T e) :
    ∃ e', (Tree.lift limit e).Yields T (.tree (.suspended e')) ∧
      Mapped T (Value.graph T (.frame .pure)) e e' ∧ E.Has e' ∧ Steady T e' := by
  have gives : ∀ x, ∃ y, (limit (.frame .pure) [x]).Yields T y := by
    intro x
    rw [Machine.limit_frame]
    exact ⟨_, Act.yields_pure _⟩
  obtain ⟨e', fmapped, mapped, has', steady'⟩ :=
    exists_fmap (P := fun _ => True) (f := .frame .pure) has steady
      ⟨fun _ _ => trivial, fun _ _ _ _ _ _ => trivial⟩ (fun x _ => gives x) fun _ _ _ x _ => gives x
  exact ⟨e', fmapped.bind (Act.yields_pure _), mapped, has', steady'⟩

/-- To go on from what has been wrapped is to go on from what was held. -/
theorem yields_unwrapped (known : x.isPoison = false)
    (folded : (Tree.fold limit transform (.target .tree) x).Yields T r)
    (knownResult : r.isPoison = false) :
    (limit (.frame (.bind (refolding transform))) [.tree (Tree.pure x)]).Yields T r := by
  rw [Machine.limit_frame]
  refine binding_some (resolve_pure known) (guarded_known ?_ knownResult)
  rw [limit_refolding]
  exact folded

/-- To wrap and to go on from what has been wrapped. -/
noncomputable def unwrapping (T : ClassTable) (transform x : Value) : Option Value :=
  (Value.graph T (.frame .pure) x).bind (Value.graph T (.frame (.bind (refolding transform))))

theorem unwrapping_eq (known : x.isPoison = false)
    (folded : (Tree.fold limit transform (.target .tree) x).Yields T r)
    (knownResult : r.isPoison = false) : unwrapping T transform x = some r := by
  rw [unwrapping, graph_pure]
  exact Value.graph_eq (yields_unwrapped known folded knownResult)

theorem yields_refold_suspended {m : Value} (transformed : (limit transform [d]).Yields T m)
    (bound : (m.invoke limit .bind [refolding transform]).Yields T r) :
    (Tree.fold limit transform (.target .tree) (.tree (.suspended d))).Yields T r := by
  refine (Act.yields_pure ()).bind (transformed.bind ?_)
  change (limit (.frame (.bind (refolding transform))) [m]).Yields T r
  rw [Machine.limit_frame]
  exact bound

/-! ### Folding into trees -/

/-- The function lifts what the rewriting gives. -/
def LiftsAfter (T : ClassTable) (g transform : Value) : Prop :=
  ∀ d, Act.EndsAs T (limit transform [d]) (limit g [d] >>= Tree.lift limit)

namespace Over

/-- To fold a tree into trees gives something. -/
theorem exists_refold (rewriting : Rewriting T E E' g) (lifts : LiftsAfter T g transform)
    (ht : Over T E True t) :
    ∃ r, (Tree.fold limit transform (.target .tree) t).Yields T r ∧ r.isPoison = false := by
  refine ht.induction (motive := fun t =>
    ∃ r, (Tree.fold limit transform (.target .tree) t).Yields T r ∧ r.isPoison = false)
    ⟨_, Act.yields_pure _, rfl⟩ (fun p hp => ?_) ?_
  · cases hp.step with
    | done answers =>
      obtain ⟨o, settles, hanswers⟩ := answers trivial
      rcases Payload.cases settles hanswers with ⟨v, -, value⟩ | nothing
      · exact ⟨_, value.bind (Act.yields_pure _), rfl⟩
      · exact ⟨_, nothing.bind (Act.yields_pure _), rfl⟩
  · intro d has steady holds ih
    obtain ⟨e, given, has', steady'⟩ := rewriting.gives has steady
    obtain ⟨e', lifted, mapped, -, steady''⟩ := exists_lift has' steady'
    have folds := rewriting.atHand has steady given fun x hx =>
      show Over T E True x ∧ _ from ⟨holds.atHand x hx, ih x hx⟩
    have contents : ∀ z, AtHand T e' z →
        ∃ y, (limit (.frame (.bind (refolding transform))) [z]).Yields T y := by
      intro z hz
      obtain ⟨x, hx, hxz⟩ := mapped.atHand_right hz
      rw [graph_pure] at hxz
      obtain rfl := Option.some.inj hxz
      obtain ⟨isOver, r, folded, known⟩ := folds x hx
      exact ⟨r, yields_unwrapped isOver.known folded known⟩
    obtain ⟨d', refills⟩ := Refills.exists_of_fillable steady''.fillable
      (.after (.frame (.bind (refolding transform)))) contents
    have bound : ((Value.tree (.suspended e')).invoke limit .bind [refolding transform]).Yields T
        (.tree (.suspended d')) := (refills.yields_fmap fun _ _ h => h).bind (Act.yields_pure _)
    exact ⟨_, yields_refold_suspended ((lifts d).yields (given.bind lifted)) bound, rfl⟩

/-- What the fold makes of a suspended tree: what the rewritten descriptor holds is wrapped and bound
again. -/
theorem exists_refold_suspended (rewriting : Rewriting T E E' g) (lifts : LiftsAfter T g transform)
    (has : E.Has d) (steady : Steady T d) (holds : HoldsOnly T (Over T E True) d)
    (given : (limit g [d]).Yields T e) :
    ∃ d', Mapped T (unwrapping T transform) e d' ∧ E'.Has d' ∧ Steady T d' ∧
      (Tree.fold limit transform (.target .tree) (.tree (.suspended d))).Yields T
        (.tree (.suspended d')) := by
  obtain ⟨e₁, given₁, has', steady'⟩ := rewriting.gives has steady
  obtain rfl := given₁.unique given
  have holds' := rewriting.holds has steady holds given
  obtain ⟨e', lifted, mapped, has'', steady''⟩ := exists_lift has' steady'
  -- What is held now is trees that have been wrapped, also behind a function slot.
  have wrapped : HoldsOnly T (fun z => ∃ x, Over T E True x ∧ z = .tree (Tree.pure x)) e' := by
    refine mapped.holds steady' holds' fun x z hx hxz => ⟨x, hx, ?_⟩
    rw [graph_pure] at hxz
    exact (Option.some.inj hxz).symm
  have gives : ∀ z, (∃ x, Over T E True x ∧ z = .tree (Tree.pure x)) →
      ∃ y, (limit (.frame (.bind (refolding transform))) [z]).Yields T y := by
    rintro z ⟨x, hx, rfl⟩
    obtain ⟨r, folded, known⟩ := hx.exists_refold rewriting lifts
    exact ⟨r, yields_unwrapped hx.known folded known⟩
  obtain ⟨d', fmapped, mapped', has₂, steady₂⟩ :=
    exists_fmap has'' steady'' wrapped (fun z hz => gives z (wrapped.atHand z hz)) fun _ _ _ => gives
  exact ⟨d', mapped.comp mapped', has₂, steady₂, yields_refold_suspended
    ((lifts d).yields (given.bind lifted)) (fmapped.bind (Act.yields_pure _))⟩

/-- **What the fold gives** is a tree of the vocabulary of the rewritten descriptors. -/
theorem refold (rewriting : Rewriting T E E' g) (lifts : LiftsAfter T g transform)
    (ht : Over T E True t) (folded : (Tree.fold limit transform (.target .tree) t).Yields T r) :
    Over T E' True r := by
  refine ⟨fun r => ∃ t, Over T E True t ∧
    (Tree.fold limit transform (.target .tree) t).Yields T r, ?_, t, ht, folded⟩
  rintro r ⟨t, ht, folded⟩
  cases ht.step with
  | failed =>
    obtain rfl := (Act.yields_pure _).unique folded
    exact .failed
  | done answers =>
    obtain ⟨o, settles, hanswers⟩ := answers trivial
    rcases Payload.cases settles hanswers with ⟨v, -, value⟩ | nothing
    · obtain rfl := (value.bind (Act.yields_pure (Value.tree (Tree.pure v)))).unique folded
      exact .done fun _ => ⟨_, Act.settles_pure v, .inl ⟨v, rfl⟩⟩
    · obtain rfl := (nothing.bind (Act.yields_pure (Value.tree .failed))).unique folded
      exact .failed
  | suspended has steady holds =>
    obtain ⟨e, given, -, steady'⟩ := rewriting.gives has steady
    obtain ⟨d', mapped, has₂, steady₂, folds⟩ :=
      exists_refold_suspended rewriting lifts has steady holds given
    obtain rfl := folds.unique folded
    have holds' := rewriting.holds has steady holds given
    refine .suspended has₂ steady₂ (mapped.holds steady' holds' fun x y hx hxy => ?_)
    obtain ⟨y', foldedX, known⟩ := hx.exists_refold rewriting lifts
    rw [unwrapping_eq hx.known foldedX known] at hxy
    exact ⟨x, hx, Option.some.inj hxy ▸ foldedX⟩

end Over

/-- What the fold and what hoisting make of one tree. -/
def Rebuilt (T : ClassTable) (E : Vocabulary T) (g transform r r' : Value) : Prop :=
  ∃ t, Over T E True t ∧ (Tree.fold limit transform (.target .tree) t).Yields T r ∧
    (Tree.hoist limit g t).Yields T r'

theorem Rebuilt.known (rewriting : Rewriting T E E' g) (lifts : LiftsAfter T g transform)
    {r r' : Value} (rebuilt : Rebuilt T E g transform r r') :
    r.isPoison = false ∧ r'.isPoison = false := by
  obtain ⟨t, ht, folded, hoisted⟩ := rebuilt
  obtain ⟨u, folded', known⟩ := ht.exists_refold rewriting lifts
  obtain rfl := folded'.unique folded
  exact ⟨known, (ht.hoist rewriting hoisted).known⟩

theorem Over.exists_rebuilt (rewriting : Rewriting T E E' g) (lifts : LiftsAfter T g transform)
    (ht : Over T E True t) :
    ∃ r r', (Tree.fold limit transform (.target .tree) t).Yields T r ∧
      (Tree.hoist limit g t).Yields T r' ∧ Rebuilt T E g transform r r' := by
  obtain ⟨r, folded, -⟩ := ht.exists_refold rewriting lifts
  obtain ⟨r', hoisted⟩ := ht.exists_hoist rewriting
  exact ⟨r, r', folded, hoisted, t, ht, folded, hoisted⟩

/-- **To fold into trees** with rewritten descriptors that are lifted builds a tree that is similar
to the one that hoisting the rewriting gives. -/
theorem refold_similar (rewriting : Rewriting T E E' g) (lifts : LiftsAfter T g transform)
    (ht : Over T E True t) :
    ∃ r r', (Tree.fold limit transform (.target .tree) t).Yields T r ∧
      (Tree.hoist limit g t).Yields T r' ∧ Similar T r r' := by
  obtain ⟨r, r', folded, hoisted, rebuilt⟩ := ht.exists_rebuilt rewriting lifts
  -- To have been built from the same tree is a relation that is its own justification.
  refine ⟨r, r', folded, hoisted, Rebuilt T E g transform, ?_, rebuilt⟩
  rintro r r' ⟨t, ht, folded, hoisted⟩
  cases ht.step with
  | failed =>
    obtain rfl := (Act.yields_pure _).unique folded
    obtain rfl := (Act.yields_pure _).unique hoisted
    exact .hopeless .failed .failed
  | @done p answers =>
    obtain rfl := (Act.yields_pure _).unique hoisted
    obtain ⟨o, settles, hanswers⟩ := answers trivial
    rcases Payload.cases settles hanswers with ⟨v, known, value⟩ | nothing
    · obtain rfl := (value.bind (Act.yields_pure (Value.tree (Tree.pure v)))).unique folded
      exact .done (resolve_pure known) value
    · obtain rfl := (nothing.bind (Act.yields_pure (Value.tree .failed))).unique folded
      exact .hopeless .failed (.done nothing)
  | @suspended d has steady holds =>
    obtain ⟨e, d', hoists⟩ := Over.exists_hoists rewriting has steady holds
    obtain rfl := hoists.hoisted.unique hoisted
    obtain ⟨d₁, mapped, -, -, folds⟩ :=
      Over.exists_refold_suspended rewriting lifts has steady holds hoists.given
    obtain rfl := folds.unique folded
    -- Both descriptors are made of the rewritten one: its contents folded on the left, and hoisted
    -- on the right.
    have renews : Renews T (Rebuilt T E g transform)
        (ConcordBehind T (Rebuilt T E g transform)) d₁ d' := by
      refine mapped.diverge hoists.mapped hoists.steady hoists.holds fun x hx => ?_
      obtain ⟨y, z, foldedX, hoistedX, rebuiltX⟩ := hx.exists_rebuilt rewriting lifts
      have unwrapped := unwrapping_eq hx.known foldedX (rebuiltX.known rewriting lifts).1
      exact ⟨y, z, unwrapped, graph_hoist hoistedX, rebuiltX⟩
    exact .suspended (renews.mono (fun _ _ _ h => h) fun n k k' _ concord args =>
      (concord args).alike fun y z => Rebuilt.known rewriting lifts)

/-- **Folding into trees agrees with hoisting.** Both give similar trees of the vocabulary of the
rewritten descriptors, whose function slots give trees or abort. With descriptors that are lifted as
they are, the tree is built anew. Descriptors can be copied (`Fillable`, which is part of `Over`), those
of the tree and those that they are rewritten to: to fold, to hoist and to lift make copies. -/
theorem fold_similar_hoist (rewriting : Rewriting T E E' g) (lifts : LiftsAfter T g transform)
    (ht : Over T E True t) :
    (∃ r r', (Tree.fold limit transform (.target .tree) t).Yields T r ∧
      (Tree.hoist limit g t).Yields T r' ∧ Over T E' True r ∧ Over T E' True r' ∧
      Similar T r r') ∧
    ∀ lift, (∀ d, Act.EndsAs T (limit lift [d]) (Tree.lift limit d)) →
      ∃ r, (Tree.fold limit lift (.target .tree) t).Yields T r ∧ Over T E True r ∧
        Similar T r t := by
  obtain ⟨r, r', folded, hoisted, similar⟩ := refold_similar rewriting lifts ht
  refine ⟨⟨r, r', folded, hoisted, ht.refold rewriting lifts folded, ht.hoist rewriting hoisted,
    similar⟩, fun lift hlift => ?_⟩
  -- To lift descriptors as they are is to lift what the identity gives.
  have identity : ∀ d, Act.EndsAs T (limit (.frame .identity) [d]) (pure d) :=
    fun d => .of_eq (Machine.limit_frame _ d)
  have lifts' : LiftsAfter T (.frame .identity) lift := by
    intro d
    rw [Machine.limit_frame]
    exact hlift d
  obtain ⟨r, r', folded, hoisted, similar⟩ :=
    refold_similar (Rewriting.identity (E := E) identity) lifts' ht
  obtain ⟨r'', hoisted', equal⟩ := hoist_identity identity ht
  obtain rfl := hoisted.unique hoisted'
  exact ⟨r, folded, ht.refold (.identity identity) lifts' folded, similar.trans_equal equal⟩

/-! ### A dialogue that is built anew -/

open Dialogue

/-- The function that lifts what the rewriting gives. -/
def liftingAfter (g : Value) : Value :=
  .function (.after (.function (.closure ["d"] (.library "lift" [.var "d"]) [])) g)

theorem liftsAfter_liftingAfter (g : Value) : LiftsAfter T g (liftingAfter g) := by
  intro d
  rw [liftingAfter, Machine.limit_after]
  refine .of_eq (congrArg _ (funext fun e => ?_))
  rw [Machine.limit_closure]
  rfl

theorem fold_similar_hoist_dialogue :
    Over table lines True (say (.str "hello") (ask echo)) ∧ Rewriting table lines lines loud ∧
      LiftsAfter table loud (liftingAfter loud) ∧
      (∃ r r', (Tree.fold limit (liftingAfter loud) (.target .tree)
          (say (.str "hello") (ask echo))).Yields table r ∧
        (Tree.hoist limit loud (say (.str "hello") (ask echo))).Yields table r' ∧
        Over table lines True r ∧ Over table lines True r' ∧ Similar table r r') ∧
      ∃ r, (Tree.fold limit (liftingAfter (.frame .identity)) (.target .tree)
          (say (.str "hello") (ask echo))).Yields table r ∧ Over table lines True r ∧
        Similar table r (say (.str "hello") (ask echo)) := by
  have isOver : Over table lines True (say (.str "hello") (ask echo)) := over_say over_ask_echo
  have agrees := fold_similar_hoist rewriting_loud (liftsAfter_liftingAfter loud) isOver
  refine ⟨isOver, rewriting_loud, liftsAfter_liftingAfter loud, agrees.1, agrees.2 _ fun d => ?_⟩
  have lifts := liftsAfter_liftingAfter (T := table) (.frame .identity) d
  rw [Machine.limit_frame] at lifts
  exact lifts

end EffectTrees
