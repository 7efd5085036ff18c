import EffectTrees.Proofs.Elimination.Target
import EffectTrees.Proofs.Tree.Hoist
import EffectTrees.Proofs.Tree.Monad

/-!
# Hoisting is functorial

Natural rewritings compose, and so does hoisting them over trees. Unlike binding, hoisting leaves
finished trees alone, so the laws hold literally but for the copies that are made of descriptors:
two trees are *equal* (`Equal`) if they have the very same leaves, descriptors of the same class with
the same payload, and equal trees in their slots, where function slots give equal trees or both
abort.

* To hoist the identity changes nothing (`hoist_identity`).
* To hoist two rewritings, one after the other, is to hoist their composite (`hoist_comp`).
* To hoist over a bound tree is to hoist over the tree, and over the trees that the function gives
  (`hoist_bind`).

In each law both sides work on the slots of one rewritten descriptor, with two partial functions that
agree on trees (`Mapped.diverge`). On the one side the descriptor is rewritten after a function
has been mapped over it already. There naturality takes the rewriting first.
-/

namespace EffectTrees

open Machine (limit)

variable {T : ClassTable} {total : Prop} {E E' E'' : Vocabulary T} {P : Value → Prop}
  {h h' : Value → Option Value} {R S : Value → Value → Prop} {d d' e f g i k k' t u v : Value}

/-! ### Equal trees -/

/-- Two computations give related values, or both abort. They may both be lost instead, where they
may fail. -/
inductive Concord (T : ClassTable) (mayFail : Prop) (R : Value → Value → Prop) (a b : Act Value) :
    Prop where
  | values {v v' : Value} (left : a.Yields T v) (right : b.Yields T v') (related : R v v')
  | aborts (left : a.Settles T (some (.error .abort)))
      (right : b.Settles T (some (.error .abort)))
  | lost (may : mayFail) (left : a.Lost T) (right : b.Lost T)

/-- Two functions of `n` arguments are in concord on all arguments. They may fail only for a number
of arguments that they do not take. -/
def ConcordBehind (T : ClassTable) (R : Value → Value → Prop) (n : Nat) (k k' : Value) : Prop :=
  ∀ args, Concord T (args.length ≠ n) R (limit k args) (limit k' args)

theorem Concord.mono {mayFail : Prop} {a b : Act Value} (concord : Concord T mayFail R a b)
    (hRS : ∀ y z, R y z → S y z) : Concord T mayFail S a b := by
  cases concord with
  | values left right related => exact .values left right (hRS _ _ related)
  | aborts left right => exact .aborts left right
  | lost may left right => exact .lost may left right

theorem ConcordBehind.mono {n : Nat} (both : ConcordBehind T R n k k')
    (hRS : ∀ y z, R y z → S y z) : ConcordBehind T S n k k' := fun args => (both args).mono hRS

/-- Two trees are the same leaf, or have the same descriptor with related contents. -/
inductive Equal.Step (T : ClassTable) (R : Value → Value → Prop) : Value → Value → Prop where
  | refl (t : Value) : Step T R t t
  | suspended {d d' : Value} (renews : Renews T R (ConcordBehind T R) d d') :
      Step T R (.tree (.suspended d)) (.tree (.suspended d'))

/-- **Equal trees.** -/
def Equal (T : ClassTable) (t u : Value) : Prop :=
  ∃ R, (∀ t u, R t u → Equal.Step T R t u) ∧ R t u

/-- What trees that are equal are equal to. -/
theorem Equal.step (equal : Equal T t u) : Equal.Step T (Equal T) t u := by
  obtain ⟨R, closed, related⟩ := equal
  cases closed t u related with
  | refl => exact .refl t
  | suspended renews =>
    exact .suspended (renews.mono (fun _ _ _ hxy => ⟨R, closed, hxy⟩) fun _ _ _ _ both =>
      both.mono fun _ _ hxy => ⟨R, closed, hxy⟩)

theorem Equal.refl (t : Value) : Equal T t t := ⟨Eq, fun _ _ h => h ▸ .refl _, rfl⟩

/-- What two partial functions make of one outcome is in concord if they agree on its value. -/
theorem Concord.of_through {mayFail : Prop} {a b : Act Value} {o : Ending Value}
    (left : a.Settles T (o.through h)) (right : b.Settles T (o.through h'))
    (answers : ¬ mayFail → o.Answers)
    (agree : ∀ v, o = some (.ok v) → ∃ y z, h v = some y ∧ h' v = some z ∧ R y z) :
    Concord T mayFail R a b := by
  match o with
  | none =>
    have may : mayFail := by
      by_contra never
      simpa [Ending.Answers] using answers never
    exact .lost may left.lost_of_none right.lost_of_none
  | some (.error .abort) => exact .aborts left right
  | some (.error (.fault s)) =>
    have may : mayFail := by
      by_contra never
      simpa [Ending.Answers] using answers never
    exact .lost may left.lost_of_fault right.lost_of_fault
  | some (.ok v) =>
    obtain ⟨y, z, hy, hz, related⟩ := agree v rfl
    rw [Ending.through_some hy] at left
    rw [Ending.through_some hz] at right
    exact .values (Act.settles_ok_iff.mp left) (Act.settles_ok_iff.mp right) related

/-- **One descriptor, two functions.** Descriptors with functions mapped over them that agree on what
is held are equal but for related contents. -/
theorem Mapped.diverge (left : Mapped T h d e) (right : Mapped T h' d d')
    (steady : Steady T d) (holds : HoldsOnly T P d)
    (agree : ∀ x, P x → ∃ y z, h x = some y ∧ h' x = some z ∧ R y z) :
    Renews T R (ConcordBehind T R) e d' := by
  refine left.fork right (fun x y z hx hxy hxz => ?_) ?_
  · obtain ⟨y', z', hy, hz, related⟩ := agree x (holds.atHand x hx)
    obtain rfl := Option.some.inj (hxy.symm.trans hy)
    obtain rfl := Option.some.inj (hxz.symm.trans hz)
    exact related
  · intro n k k₁ k₂ hk first second args
    obtain ⟨o, settles, answers⟩ := steady.settles n k hk args
    refine .of_through (first args o settles) (second args o settles) (fun never => ?_) ?_
    · exact answers (not_not.mp never)
    · rintro v rfl
      exact agree v (holds.behind n k hk args v (Act.settles_ok_iff.mp settles))

/-! ### The identity -/

/-- **To hoist the identity** changes nothing. -/
theorem hoist_identity (hi : ∀ d, Act.EndsAs T (limit i [d]) (pure d)) (ht : Over T E total t) :
    ∃ r, (Tree.hoist limit i t).Yields T r ∧ Equal T r t := by
  have rewriting : Rewriting T E E i := .identity hi
  obtain ⟨r, hoisted⟩ := ht.exists_hoist rewriting
  -- The relation that justifies itself: the first tree is hoisted from the second one.
  refine ⟨r, hoisted, fun r t => Over T E total t ∧ (Tree.hoist limit i t).Yields T r, ?_, ht,
    hoisted⟩
  rintro r t ⟨ht, hoisted⟩
  cases ht.step with
  | failed =>
    obtain rfl := (Act.yields_pure _).unique hoisted
    exact .refl _
  | done answers =>
    obtain rfl := (Act.yields_pure _).unique hoisted
    exact .refl _
  | @suspended d has steady holds =>
    obtain ⟨e, d', hoists⟩ := Over.exists_hoists rewriting has steady holds
    obtain rfl := hoists.hoisted.unique hoisted
    obtain rfl := ((hi d).yields (Act.yields_pure d)).unique hoists.given
    have self : Mapped T some d d :=
      .self steady.fillable ⟨fun _ _ => rfl, fun _ _ _ _ _ _ => rfl⟩
    refine .suspended (hoists.mapped.diverge self steady holds fun x hx => ?_)
    obtain ⟨y, hy⟩ := hx.exists_hoist rewriting
    exact ⟨y, x, graph_hoist hy, rfl, hx, hy⟩

/-! ### Composition -/

/-- **To hoist two rewritings**, one after the other, is to hoist their composite. -/
theorem hoist_comp (hf : Rewriting T E E' f) (hg : Rewriting T E' E'' g)
    (hk : ∀ d, Act.EndsAs T (limit k [d]) (limit f [d] >>= fun e => limit g [e]))
    (ht : Over T E total t) :
    ∃ r r', (Tree.hoist limit f t >>= Tree.hoist limit g).Yields T r ∧
      (Tree.hoist limit k t).Yields T r' ∧ Equal T r r' := by
  have composite : Rewriting T E E'' k := hf.comp hg hk
  have exist : ∀ t, Over T E total t → ∃ u r r', (Tree.hoist limit f t).Yields T u ∧
      (Tree.hoist limit g u).Yields T r ∧ (Tree.hoist limit k t).Yields T r' := by
    intro t ht
    obtain ⟨u, first⟩ := ht.exists_hoist hf
    obtain ⟨r, second⟩ := (ht.hoist hf first).exists_hoist hg
    obtain ⟨r', both⟩ := ht.exists_hoist composite
    exact ⟨u, r, r', first, second, both⟩
  obtain ⟨u, r, r', first, second, both⟩ := exist t ht
  -- The relation that justifies itself: both trees come from one tree, in two ways.
  refine ⟨r, r', first.bind second, both, fun r r' => ∃ t u, Over T E total t ∧
    (Tree.hoist limit f t).Yields T u ∧ (Tree.hoist limit g u).Yields T r ∧
    (Tree.hoist limit k t).Yields T r', ?_, t, u, ht, first, second, both⟩
  rintro r r' ⟨t, u, ht, first, second, both⟩
  have hu := ht.hoist hf first
  cases ht.step with
  | failed =>
    obtain rfl := (Act.yields_pure _).unique first
    obtain rfl := (Act.yields_pure _).unique second
    obtain rfl := (Act.yields_pure _).unique both
    exact .refl _
  | done answers =>
    obtain rfl := (Act.yields_pure _).unique first
    obtain rfl := (Act.yields_pure _).unique second
    obtain rfl := (Act.yields_pure _).unique both
    exact .refl _
  | @suspended d has steady holds =>
    obtain ⟨e, d₁, hoistsF⟩ := Over.exists_hoists hf has steady holds
    obtain rfl := hoistsF.hoisted.unique first
    cases hu.step with
    | suspended has₁ steady₁ holds₁ =>
      obtain ⟨e₁, d₂, hoistsG⟩ := Over.exists_hoists hg has₁ steady₁ holds₁
      obtain rfl := hoistsG.hoisted.unique second
      obtain ⟨e', d₃, hoistsK⟩ := Over.exists_hoists composite has steady holds
      obtain rfl := hoistsK.hoisted.unique both
      have rewritten : (limit g [e]).Yields T e' := by
        obtain ⟨w, given, -⟩ := hg.gives hoistsF.has hoistsF.steady
        obtain rfl := ((hk d).yields (hoistsF.given.bind given)).unique hoistsK.given
        exact given
      -- Naturality: the second rewriting may as well come before the first one is hoisted.
      have natural : Mapped T (Value.graph T (.frame (.hoist f))) e' e₁ :=
        hg.natural hoistsF.has has₁ hoistsF.steady steady₁ hoistsF.mapped rewritten hoistsG.given
      refine .suspended ((natural.comp hoistsG.mapped).diverge hoistsK.mapped hoistsK.steady
        hoistsK.holds fun x hx => ?_)
      obtain ⟨u, y, z, hu, hy, hz⟩ := exist x hx
      refine ⟨y, z, ?_, graph_hoist hz, x, u, hx, hu, hy, hz⟩
      rw [graph_hoist hu]
      exact graph_hoist hy

/-! ### Binding -/

/-- The function gives trees of the vocabulary, or aborts. -/
def GivesOver (T : ClassTable) (E : Vocabulary T) (total : Prop) (k : Value) : Prop :=
  ∀ v, (∃ u, (limit k [v]).Yields T u ∧ Over T E total u) ∨
    (limit k [v]).Settles T (some (.error .abort))

theorem yields_probe_none_of_abort {a : Act Value} (h : a.Settles T (some (.error .abort))) :
    (probe a).Yields T none := Act.settles_ok_iff.mp h.probe

theorem graph_bind (bound : (t.invoke limit .bind [k]).Yields T u) :
    Value.graph T (.frame (.bind k)) t = some u := by
  refine Value.graph_eq ?_
  rw [Machine.limit_frame]
  exact bound

namespace Over

/-- What binding makes of a finished tree: a tree that the function gives, or the failed tree. -/
theorem bind_done {p : Payload} (ht : Over T E total (.tree (.done p))) (yes : total)
    (hk : GivesOver T E total k) :
    (∃ v u, (p.resolve limit).Yields T (some v) ∧ (limit k [v]).Yields T u ∧ Over T E total u) ∨
      (∃ v, (p.resolve limit).Yields T (some v) ∧
        (limit k [v]).Settles T (some (.error .abort))) ∨
      (p.resolve limit).Yields T none := by
  cases ht.step with
  | done answers =>
    obtain ⟨o, settles, hanswers⟩ := answers yes
    rcases Payload.cases settles hanswers with ⟨v, -, value⟩ | nothing
    · rcases hk v with ⟨u, yields, isOver⟩ | aborts
      · exact .inl ⟨v, u, value, yields, isOver⟩
      · exact .inr (.inl ⟨v, value, aborts⟩)
    · exact .inr (.inr nothing)

theorem exists_bind (ht : Over T E total t) (yes : total) (hk : GivesOver T E total k) :
    ∃ u, (t.invoke limit .bind [k]).Yields T u := by
  refine ht.induction (motive := fun t => ∃ u, (t.invoke limit .bind [k]).Yields T u)
    ⟨_, Act.yields_pure _⟩ (fun p hp => ?_) ?_
  · rcases hp.bind_done yes hk with ⟨v, u, value, yields, isOver⟩ | ⟨v, value, aborts⟩ | nothing
    · exact ⟨u, binding_some value (guarded_known yields isOver.known)⟩
    · exact ⟨_, binding_some value (guarded_none (yields_probe_none_of_abort aborts))⟩
    · exact ⟨_, binding_none nothing⟩
  · intro d has steady holds ih
    have contents : ∀ x, AtHand T d x → ∃ y, (limit (.frame (.bind k)) [x]).Yields T y := by
      simp only [Machine.limit_frame]
      exact ih
    obtain ⟨d', refills⟩ :=
      Refills.exists_of_fillable steady.fillable (.after (.frame (.bind k))) contents
    exact ⟨_, (refills.yields_fmap fun _ _ h => h).bind (Act.yields_pure _)⟩

/-- What binding makes of a suspended tree. -/
theorem exists_bind_suspended (yes : total) (hk : GivesOver T E total k) (has : E.Has d)
    (steady : Steady T d) (holds : HoldsOnly T (Over T E total) d) :
    ∃ d', Mapped T (Value.graph T (.frame (.bind k))) d d' ∧ E.Has d' ∧ Steady T d' ∧
      ((Value.tree (.suspended d)).invoke limit .bind [k]).Yields T (.tree (.suspended d')) := by
  have gives : ∀ x, Over T E total x → ∃ y, (limit (.frame (.bind k)) [x]).Yields T y := by
    simp only [Machine.limit_frame]
    exact fun x hx => hx.exists_bind yes hk
  obtain ⟨d', fmapped, mapped, has', steady'⟩ :=
    exists_fmap has steady holds (fun x hx => gives x (holds.atHand x hx)) fun _ _ _ => gives
  exact ⟨d', mapped, has', steady', fmapped.bind (Act.yields_pure _)⟩

/-- **To bind** a function that gives trees of the vocabulary gives such a tree. -/
theorem bind (ht : Over T E total t) (yes : total) (hk : GivesOver T E total k)
    (bound : (t.invoke limit .bind [k]).Yields T u) : Over T E total u := by
  -- A bound tree goes on either above a leaf, where it is bound, or below it, where the function
  -- has given it.
  refine ⟨fun u => Over T E total u ∨
    ∃ t, Over T E total t ∧ (t.invoke limit .bind [k]).Yields T u, ?_, .inr ⟨t, ht, bound⟩⟩
  rintro u (hu | ⟨t, ht, bound⟩)
  · exact hu.step.mono fun _ => .inl
  cases ht.step with
  | failed =>
    obtain rfl := (Act.yields_pure _).unique bound
    exact .failed
  | @done p answers =>
    rcases ht.bind_done yes hk with ⟨v, u', value, yields, isOver⟩ | ⟨v, value, aborts⟩ | nothing
    · obtain rfl := (binding_some value (guarded_known yields isOver.known)).unique bound
      exact isOver.step.mono fun _ => .inl
    · have failed := guarded_none (yields_probe_none_of_abort aborts)
      obtain rfl := (binding_some value failed).unique bound
      exact .failed
    · obtain rfl := (binding_none nothing).unique bound
      exact .failed
  | suspended has steady holds =>
    obtain ⟨d', mapped, has', steady', bound'⟩ := exists_bind_suspended yes hk has steady holds
    obtain rfl := bound'.unique bound
    refine .suspended has' steady' (mapped.holds steady holds fun x y hx hxy => ?_)
    obtain ⟨y', bound⟩ := hx.exists_bind yes hk
    rw [graph_bind bound] at hxy
    exact .inr ⟨x, hx, Option.some.inj hxy ▸ bound⟩

end Over

/-- What is hoisted over is bound: the function that hoists over what another one gives. -/
theorem GivesOver.hoist (hf : Rewriting T E E' f) (hk : GivesOver T E total k)
    (same : ∀ v, Act.EndsAs T (limit k' [v]) (limit k [v] >>= Tree.hoist limit f)) :
    GivesOver T E' total k' := by
  intro v
  rcases hk v with ⟨u, yields, isOver⟩ | aborts
  · obtain ⟨r, hoisted⟩ := isOver.exists_hoist hf
    exact .inl ⟨r, (same v).yields (yields.bind hoisted), isOver.hoist hf hoisted⟩
  · refine .inr ((same v).settles (aborts.bind_stop (by simp) _))

/-- Finished trees are bound to the same, whether hoisting comes first or last. -/
theorem hoist_bind_done (hf : Rewriting T E E' f) (hk : GivesOver T E total k)
    (same : ∀ v, Act.EndsAs T (limit k' [v]) (limit k [v] >>= Tree.hoist limit f)) (yes : total)
    {p : Payload} (hp : Over T E total (.tree (.done p)))
    (bound : ((Value.tree (.done p)).invoke limit .bind [k]).Yields T u) {r : Value}
    (hoisted : (Tree.hoist limit f u).Yields T r) :
    ((Value.tree (.done p)).invoke limit .bind [k']).Yields T r := by
  rcases hp.bind_done yes hk with ⟨v, u', value, yields, isOver⟩ | ⟨v, value, aborts⟩ | nothing
  · obtain rfl := (binding_some value (guarded_known yields isOver.known)).unique bound
    have yields' := (same v).yields (yields.bind hoisted)
    exact binding_some value (guarded_known yields' (isOver.hoist hf hoisted).known)
  · have failed := guarded_none (yields_probe_none_of_abort aborts)
    obtain rfl := (binding_some value failed).unique bound
    obtain rfl := (Act.yields_pure _).unique hoisted
    have aborts' := (same v).settles (aborts.bind_stop (by simp) _)
    exact binding_some value (guarded_none (yields_probe_none_of_abort aborts'))
  · obtain rfl := (binding_none nothing).unique bound
    obtain rfl := (Act.yields_pure _).unique hoisted
    exact binding_none nothing

/-- **To hoist over a bound tree** is to hoist over the tree, and to bind the function that hoists
over what the first function gives. -/
theorem hoist_bind (hf : Rewriting T E E' f) (ht : Over T E total t) (yes : total)
    (hk : GivesOver T E total k)
    (same : ∀ v, Act.EndsAs T (limit k' [v]) (limit k [v] >>= Tree.hoist limit f)) :
    ∃ r r', (t.invoke limit .bind [k] >>= Tree.hoist limit f).Yields T r ∧
      (Tree.hoist limit f t >>= fun u => u.invoke limit .bind [k']).Yields T r' ∧
      Equal T r r' := by
  have hk' : GivesOver T E' total k' := hk.hoist hf same
  have exist : ∀ t, Over T E total t → ∃ u r u' r', (t.invoke limit .bind [k]).Yields T u ∧
      (Tree.hoist limit f u).Yields T r ∧ (Tree.hoist limit f t).Yields T u' ∧
      (u'.invoke limit .bind [k']).Yields T r' := by
    intro t ht
    obtain ⟨u, bound⟩ := ht.exists_bind yes hk
    obtain ⟨r, hoisted⟩ := (ht.bind yes hk bound).exists_hoist hf
    obtain ⟨u', hoisted'⟩ := ht.exists_hoist hf
    obtain ⟨r', bound'⟩ := (ht.hoist hf hoisted').exists_bind yes hk'
    exact ⟨u, r, u', r', bound, hoisted, hoisted', bound'⟩
  obtain ⟨u, r, u', r', bound, hoisted, hoisted', bound'⟩ := exist t ht
  -- Again both trees come from one tree, in two ways. Below its leaves they are the same.
  refine ⟨r, r', bound.bind hoisted, hoisted'.bind bound', fun r r' => ∃ t u u',
    Over T E total t ∧ (t.invoke limit .bind [k]).Yields T u ∧ (Tree.hoist limit f u).Yields T r ∧
    (Tree.hoist limit f t).Yields T u' ∧ (u'.invoke limit .bind [k']).Yields T r', ?_,
    t, u, u', ht, bound, hoisted, hoisted', bound'⟩
  rintro r r' ⟨t, u, u', ht, bound, hoisted, hoisted', bound'⟩
  have hu := ht.bind yes hk bound
  have hu' := ht.hoist hf hoisted'
  cases ht.step with
  | failed =>
    obtain rfl := (Act.yields_pure _).unique bound
    obtain rfl := (Act.yields_pure _).unique hoisted
    obtain rfl := (Act.yields_pure _).unique hoisted'
    obtain rfl := (Act.yields_pure _).unique bound'
    exact .refl _
  | done answers =>
    obtain rfl := (Act.yields_pure _).unique hoisted'
    obtain rfl := (hoist_bind_done hf hk same yes ht bound hoisted).unique bound'
    exact .refl _
  | @suspended d has steady holds =>
    obtain ⟨d₁, boundD, has₁, steady₁, yields₁⟩ :=
      Over.exists_bind_suspended yes hk has steady holds
    obtain rfl := yields₁.unique bound
    obtain ⟨e, d₂, hoistsD⟩ := Over.exists_hoists hf has steady holds
    obtain rfl := hoistsD.hoisted.unique hoisted'
    cases hu.step with
    | suspended _ _ holds₁ =>
      obtain ⟨e₁, d₃, hoistsB⟩ := Over.exists_hoists hf has₁ steady₁ holds₁
      obtain rfl := hoistsB.hoisted.unique hoisted
      cases hu'.step with
      | suspended has₂ steady₂ holds₂ =>
        obtain ⟨d₄, boundE, -, -, yields₂⟩ :=
          Over.exists_bind_suspended yes hk' has₂ steady₂ holds₂
        obtain rfl := yields₂.unique bound'
        -- Naturality: the rewriting may as well come before the function is bound.
        have natural : Mapped T (Value.graph T (.frame (.bind k))) e e₁ :=
          hf.natural has has₁ steady steady₁ boundD hoistsD.given hoistsB.given
        refine .suspended ((natural.comp hoistsB.mapped).diverge (hoistsD.mapped.comp boundE)
          hoistsD.steady hoistsD.holds fun x hx => ?_)
        obtain ⟨u, y, u', z, bound, hoisted, hoisted', bound'⟩ := exist x hx
        refine ⟨y, z, ?_, ?_, x, u, u', hx, bound, hoisted, hoisted', bound'⟩
        · rw [graph_bind bound]
          exact graph_hoist hoisted
        · rw [graph_hoist hoisted']
          exact graph_bind bound'

/-! ### The laws -/

/-- **Hoisting is functorial and commutes with binding.** The composites in the laws are given by
what they come to, so the laws hold for any way to write them. Descriptors can be copied (`Fillable`,
which is part of `Over`), those of the tree and those that they are rewritten to, since to hoist and to
bind make copies. -/
theorem hoist_laws (hf : Rewriting T E E' f) (hg : Rewriting T E' E'' g) (ht : Over T E total t) :
    (∀ i, (∀ d, Act.EndsAs T (limit i [d]) (pure d)) →
      ∃ r, (Tree.hoist limit i t).Yields T r ∧ Equal T r t) ∧
    (∀ k, (∀ d, Act.EndsAs T (limit k [d]) (limit f [d] >>= fun e => limit g [e])) →
      ∃ r r', (Tree.hoist limit f t >>= Tree.hoist limit g).Yields T r ∧
        (Tree.hoist limit k t).Yields T r' ∧ Equal T r r') ∧
    (total → ∀ k k', GivesOver T E total k →
      (∀ v, Act.EndsAs T (limit k' [v]) (limit k [v] >>= Tree.hoist limit f)) →
      ∃ r r', (t.invoke limit .bind [k] >>= Tree.hoist limit f).Yields T r ∧
        (Tree.hoist limit f t >>= fun u => u.invoke limit .bind [k']).Yields T r' ∧
        Equal T r r') := by
  refine ⟨fun i hi => hoist_identity hi ht, fun k hk => hoist_comp hf hg hk ht, ?_⟩
  intro yes k k' hk same
  exact hoist_bind hf ht yes hk same

/-! ### The laws for a dialogue -/

open Dialogue

/-- The function that says goodbye, whatever has come before. -/
def farewell : Value := .frame (.always (say (.str "bye") (.tree (Tree.pure (.int 2)))))

theorem givesOver_farewell : GivesOver table lines total farewell := by
  intro v
  refine .inl ⟨say (.str "bye") (.tree (Tree.pure (.int 2))), ?_, over_say (over_pure _)⟩
  rw [farewell, Machine.limit_frame]
  exact Act.yields_pure _

theorem hoist_laws_dialogue :
    Over table lines True (say (.str "hello") (ask echo)) ∧ Rewriting table lines lines loud ∧
      (∃ r, (Tree.hoist limit (.frame .identity) (say (.str "hello") (ask echo))).Yields table r ∧
        Equal table r (say (.str "hello") (ask echo))) ∧
      (∃ r r', (Tree.hoist limit loud (say (.str "hello") (ask echo)) >>=
          Tree.hoist limit loud).Yields table r ∧
        (Tree.hoist limit (.after loud loud) (say (.str "hello") (ask echo))).Yields table r' ∧
        Equal table r r') ∧
      ∃ r r', ((say (.str "hello") (ask echo)).invoke limit .bind [farewell] >>=
          Tree.hoist limit loud).Yields table r ∧
        (Tree.hoist limit loud (say (.str "hello") (ask echo)) >>= fun u =>
          u.invoke limit .bind [.after (.frame (.hoist loud)) farewell]).Yields table r' ∧
        Equal table r r' := by
  have isOver : Over table lines True (say (.str "hello") (ask echo)) := over_say over_ask_echo
  have laws := hoist_laws rewriting_loud rewriting_loud isOver
  have twice : ∀ d, limit (.after loud loud) [d] = limit loud [d] >>= fun e => limit loud [e] := by
    intro d
    rw [Value.after, Machine.limit_after]
  refine ⟨isOver, rewriting_loud, laws.1 _ fun d => .of_eq (Machine.limit_frame _ d),
    laws.2.1 _ fun d => .of_eq (twice d), laws.2.2 trivial _ _ givesOver_farewell fun v => ?_⟩
  exact .of_eq (limit_after_hoist _ _)

end EffectTrees
