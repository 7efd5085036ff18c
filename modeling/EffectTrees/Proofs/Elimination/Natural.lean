import EffectTrees.Proofs.Analysis.Walk
import EffectTrees.Proofs.Elimination.Target
import EffectTrees.Proofs.Tree.Monad

/-!
# Natural transformations and their folds

To fold a tree, a transformation turns each descriptor into a computation of the target, which gives
the content of the slot. The transformation is natural if it does not care what the slots hold: to
change the contents of a descriptor before the transformation or after it is the same (`Natural`).

A transformation is for some descriptors only, and it calls their function slots with some arguments
only (`Repertoire`). The trees that it can fold are made of these descriptors, and their function
slots give such trees for these arguments (`Grounded`). A fold goes on with every such content, and
so it comes to an end if the tree does: the trees are well-founded, but they need not be finite, nor
bounded in depth.

* `Repertoire.Carries.refill` — to map over a descriptor changes all contents alike.
* `Natural.fuse` — what goes on after the contents have been changed may change them itself.
* `Natural.makes_fold` — a fold comes to a computation of the target.
-/

namespace EffectTrees

open Machine (limit)
open Act (Makes EndsAs)

variable {T : ClassTable}

/-! ### Descriptors and what they hold -/

/-- The descriptors that an interpretation is for, whatever their slots are filled with, and the
arguments that it may call a function slot of a class with. -/
structure Repertoire (T : ClassTable) where
  Has : Value → Prop
  Passes : ClassRef → List Value → Prop
  refill {C : Value → Value → Prop} {F : Value → Value} {d d' : Value} (has : Has d)
    (refills : Refills T C F d d') : Has d'

namespace Repertoire

variable {E : Repertoire T} {P Q : Value → Prop} {d d' f : Value}

/-- All that the descriptor holds has the property, behind a function slot for the arguments that it
may be called with. -/
structure Carries (E : Repertoire T) (P : Value → Prop) (d : Value) : Prop where
  has : E.Has d
  fillable : Fillable T d
  atHand : ∀ x, AtHand T d x → P x
  behind : ∀ c own n g, d = .descriptor c own → Behind T d n g → ∀ args, E.Passes c args →
    Makes T P (limit g args)

/-- What is known of the contents of a descriptor may take their place in it. -/
theorem Carries.imp (h : E.Carries P d) (atHand : ∀ x, AtHand T d x → P x → Q x)
    (behind : ∀ c own n g args x, d = .descriptor c own → Behind T d n g → E.Passes c args →
      (limit g args).Yields T x → P x → Q x) : E.Carries Q d where
  has := h.has
  fillable := h.fillable
  atHand x hx := atHand x hx (h.atHand x hx)
  behind c own n g hd hg args passes := by
    obtain ⟨x, yields, hx⟩ := h.behind c own n g hd hg args passes
    exact ⟨x, yields, behind c own n g args x hd hg passes yields hx⟩

/-- **To map over a descriptor** changes all contents alike. -/
theorem Carries.refill (h : E.Carries P d) (hf : ∀ x, P x → Makes T Q (limit f [x])) :
    ∃ d', (fmap limit d f).Yields T d' ∧ E.Carries Q d' := by
  obtain ⟨d', refills⟩ := Refills.exists_of_fillable (C := fun x y => (limit f [x]).Yields T y ∧ Q y)
    h.fillable (.after f) fun x hx => hf x (h.atHand x hx)
  refine ⟨d', refills.yields_fmap fun x y hxy => hxy.1, E.refill h.has refills,
    refills.fillable_right, fun y hy => ?_, ?_⟩
  · obtain ⟨x, -, hxy⟩ := refills.atHand_right hy
    exact hxy.2
  · rintro c own n _ rfl hg args passes
    obtain ⟨own', g, rfl, before, rfl⟩ := refills.behind_right hg
    rw [Value.after, Machine.limit_after]
    exact (h.behind c own' n g rfl before args passes).bind hf

end Repertoire

/-! ### Natural transformations -/

/-- **A natural transformation.** It turns a descriptor into a computation of the target that gives
contents of the descriptor, and does not care what they are. -/
structure Natural (T : ClassTable) (M : TypedTarget) (E : Repertoire T) (transform : Value) :
    Prop where
  makes {P : Kind} {d : Value} (carries : E.Carries P d) :
    Makes T (M.Of P) (limit transform [d])
  natural {P Q : Kind} {d h k : Value} (taken : M.Takes k) (carries : E.Carries P d)
    (hh : ∀ x, P x → Makes T Q (limit h [x]))
    (hk : ∀ x, P x → EndsAs T (limit k [x]) (limit h [x] >>= fun y => M.pure y)) :
    M.Agree T Q (fmap limit d h >>= fun d' => limit transform [d'])
      (limit transform [d] >>= fun m => M.bind m k)

namespace Natural

variable {M : TypedTarget} {E : Repertoire T} {P Q R : Kind} {transform d h g k : Value}

/-- **Fusion.** To go on with `g` after the contents have been changed by `h` is to go on with the
composite of the two. -/
theorem fuse (natural : Natural T M E transform) (lawful : M.Lawful T) (carries : E.Carries P d)
    (next : M.Takes g) (both : M.Takes k)
    (hh : ∀ x, P x → Makes T Q (limit h [x])) (hg : ∀ y, Q y → Makes T (M.Of R) (limit g [y]))
    (hk : ∀ x, P x → M.Agree T R (limit k [x]) (limit h [x] >>= fun y => limit g [y])) :
    ∃ d' m m', (fmap limit d h).Yields T d' ∧ (limit transform [d]).Yields T m ∧
      (limit transform [d']).Yields T m' ∧ M.Of P m ∧ M.Of Q m' ∧
      M.Agree T R (M.bind m' g) (M.bind m k) := by
  obtain ⟨d', mapped, carries'⟩ := carries.refill hh
  obtain ⟨m, transformed, hm⟩ := natural.makes carries
  obtain ⟨m', transformed', hm'⟩ := natural.makes carries'
  refine ⟨d', m, m', mapped, transformed, transformed', hm, hm', ?_⟩
  have returning : ∀ x, P x → Makes T (M.Of Q) (limit (M.returning h) [x]) := fun x hx => by
    rw [M.limit_returning]
    exact (hh x hx).bind fun y hy => lawful.makes_pure hy
  obtain ⟨n, bound, hn⟩ := lawful.makes_bind (M.takes_returning h) hm returning
  -- Naturality: the change may as well be made by the target.
  have same : M.Same m' n := by
    obtain ⟨m₁, n₁, left, right, -, -, same⟩ := natural.natural (M.takes_returning h) carries hh
      fun x _ => .of_eq (M.limit_returning h x)
    rwa [left.unique (mapped.bind transformed'), right.unique (transformed.bind bound)] at same
  -- The unit law: then `g` goes on with the changed content itself.
  have pointwise : ∀ x, P x →
      M.Agree T R (limit (M.chain (M.returning h) g) [x]) (limit k [x]) := by
    intro x hx
    obtain ⟨y, yields, hy⟩ := hh x hx
    have unit : M.Agree T R (M.pure y >>= fun p => M.bind p g) (limit g [y]) :=
      lawful.pure_bind next hy hg
    rw [M.limit_chain, M.limit_returning, bind_assoc]
    have started : M.Agree T R (limit h [x] >>= fun y => M.pure y >>= fun p => M.bind p g)
        (limit h [x] >>= fun y => limit g [y]) := .start yields yields unit
    exact started.trans lawful ((hk x hx).symm lawful)
  -- The law of associativity: the two functions become one.
  have goes : M.Agree T R (M.bind m' g) (M.bind n g) :=
    lawful.bind_congr next next hm' hn same fun y hy => .refl lawful (hg y hy)
  have composite := M.takes_chain (M.returning h) g
  have assoc : M.Agree T R (M.bind n g) (M.bind m (M.chain (M.returning h) g)) :=
    (lawful.bind_assoc (M.takes_returning h) next composite hm returning hg fun x _ =>
      .of_eq (M.limit_chain _ g x)).of_start (h := fun n => M.bind n g) bound
        (lawful.makes_bind next hn hg)
  exact (goes.trans lawful assoc).trans lawful
    (lawful.bind_congr composite both hm hm (lawful.equivalence.refl m) pointwise)

end Natural

/-! ### Two natural transformations -/

/-- Lists as descriptors. There is no function slot to call. -/
def Repertoire.lists (T : ClassTable) : Repertoire T where
  Has d := ∃ items, d = .list items
  Passes _ _ := False
  refill := @Refills.isList T

/-- A list is a computation of the target of lists as it stands. -/
theorem natural_identity : Natural T .list (.lists T) (.frame .identity) where
  makes {P d} carries := by
    obtain ⟨items, rfl⟩ := carries.has
    rw [Machine.limit_frame]
    exact Act.makes_pure ⟨items, rfl, fun x mem => carries.atHand x (.item mem)⟩
  natural {P Q d h k} taken carries hh hk := by
    obtain ⟨items, rfl⟩ := carries.has
    have hitems : ∀ x ∈ items, P x := fun x mem => carries.atHand x (.item mem)
    obtain ⟨H, hH⟩ := Act.exists_values hh
    have mapped : (fmap limit (.list items) h).Yields T (.list (items.map H)) :=
      (Act.yields_mapM fun x mem => (hH x (hitems x mem)).1).bind (Act.yields_pure _)
    have bound : (TypedTarget.list.bind (.list items) k).Yields T (.list (items.map H)) := by
      rw [List.map_eq_flatMap]
      exact TypedTarget.yields_bind_list fun x mem =>
        (hk x (hitems x mem)).yields ((hH x (hitems x mem)).1.bind (Act.yields_pure _))
    simp only [Machine.limit_frame]
    refine TypedTarget.agree_list (mapped.bind (Act.yields_pure _))
      ((Act.yields_pure _).bind bound) ⟨_, rfl, fun y hy => ?_⟩
    obtain ⟨x, mem, rfl⟩ := List.mem_map.mp hy
    exact (hH x (hitems x mem)).2

/-- Descriptors of effect classes, whose function slots are called with unknown arguments only. -/
def Repertoire.effects (T : ClassTable) : Repertoire T where
  Has d := ∃ c own, d = .descriptor c own
  Passes c args := ∃ s n, T.slotOf c.id = .ok s ∧ s.kind = .function n ∧
    args = List.replicate n .poison
  refill has refills := by
    obtain ⟨c, own, rfl⟩ := has
    cases refills with
    | direct _ _ _ _ => exact ⟨_, _, rfl⟩
    | function _ _ _ => exact ⟨_, _, rfl⟩

/-- To follow a descriptor after its contents have been changed is to change what it leads to. -/
theorem Repertoire.Carries.locate {P Q : Value → Prop} {d f : Value}
    (h : (Repertoire.effects T).Carries P d) (hf : ∀ x, P x → Makes T Q (limit f [x])) :
    ∃ d' x y, (fmap limit d f).Yields T d' ∧ (limit Analysis.anyLocator [d]).Yields T x ∧ P x ∧
      (limit f [x]).Yields T y ∧ Q y ∧ (limit Analysis.anyLocator [d']).Yields T y := by
  cases h.fillable with
  | list items =>
    obtain ⟨_, _, other⟩ := h.has
    simp at other
  | @effect c own s fill content slotted holds =>
    cases kind : s.kind with
    | direct =>
      have hx := h.atHand content (.content slotted.effect slotted.slot kind holds)
      obtain ⟨y, yields, hy⟩ := hf content hx
      have refills := Refills.direct (C := fun x y => (limit f [x]).Yields T y) (F := .after f)
        slotted kind holds yields
      exact ⟨_, content, y, refills.yields_fmap fun _ _ h => h,
        yields_locate_direct slotted.effect slotted.slot kind holds, hx, yields, hy,
        yields_locate_direct slotted.effect slotted.slot kind (slotted.holds_fill y)⟩
    | function n =>
      obtain ⟨x, called, hx⟩ := h.behind c own n content rfl
        (.slot slotted.effect slotted.slot kind holds) _ ⟨s, n, slotted.slot, kind, rfl⟩
      obtain ⟨y, yields, hy⟩ := hf x hx
      have refills := Refills.function (C := fun x y => (limit f [x]).Yields T y) (F := .after f)
        slotted kind holds
      -- The slot holds the composite now, and is called with the same arguments as before.
      have after : (limit (.after f content) (List.replicate n .poison)).Yields T y := by
        rw [Value.after, Machine.limit_after]
        exact called.bind yields
      exact ⟨_, x, y, refills.yields_fmap fun _ _ h => h,
        Act.settles_ok_iff.mp
          (settles_locate_function slotted.effect slotted.slot kind holds called.settles),
        hx, yields, hy, Act.settles_ok_iff.mp
          (settles_locate_function slotted.effect slotted.slot kind (slotted.holds_fill _)
            after.settles)⟩

/-- To give what a descriptor leads to is natural, for any target that is a monad. -/
theorem natural_locator {M : TypedTarget} (lawful : M.Lawful T) :
    Natural T M (.effects T) (M.returning Analysis.anyLocator) where
  makes {P d} carries := by
    obtain ⟨_, x, _, -, located, hx, -⟩ := carries.locate (f := .frame .identity) (Q := P)
      fun x hx => by
        rw [Machine.limit_frame]
        exact Act.makes_pure hx
    obtain ⟨m, given, hm⟩ := lawful.makes_pure hx
    rw [M.limit_returning]
    exact ⟨m, located.bind given, hm⟩
  natural {P Q d h k} taken carries hh hk := by
    obtain ⟨d', x, y, mapped, located, hx, yields, hy, located'⟩ := carries.locate hh
    have goes_on : ∀ x, P x → Makes T (M.Of Q) (limit k [x]) := fun x hx =>
      ((hh x hx).bind fun y hy => lawful.makes_pure hy).endsAs (hk x hx)
    have unit : M.Agree T Q (limit k [x]) (M.pure x >>= fun m => M.bind m k) :=
      (lawful.pure_bind taken hx goes_on).symm lawful
    have called : M.Agree T Q (limit h [x] >>= fun y => M.pure y)
        (M.pure x >>= fun m => M.bind m k) :=
      unit.imp_left fun _ hv => (hk x hx).symm.yields hv
    have given : M.Agree T Q (M.pure y) (M.pure x >>= fun m => M.bind m k) :=
      called.of_start (h := fun y => M.pure y) yields (lawful.makes_pure hy)
    simp only [M.limit_returning, bind_assoc]
    exact .start mapped located (given.imp_left fun _ hv => located'.bind hv)

/-! ### Trees that can be folded -/

/-- A tree of descriptors of the repertoire, with results of the kind. Payloads answer, and function
slots give trees for the arguments that they may be called with. -/
inductive Grounded (E : Repertoire T) (A : Kind) : Value → Prop where
  | failed : Grounded E A (.tree .failed)
  | done {p : Payload} {o : Ending Value} (settles : (p.force limit).Settles T o)
      (answers : o.Answers) (value : ∀ v, (p.resolve limit).Yields T (some v) → A v) :
      Grounded E A (.tree (.done p))
  | suspended {C : Value → Prop} {d : Value} (contents : ∀ x, C x → Grounded E A x)
      (carries : E.Carries C d) : Grounded E A (.tree (.suspended d))

variable {M : TypedTarget} {E : Repertoire T} {A B : Kind} {transform t f d : Value}

theorem Grounded.exists_tree (h : Grounded E A t) : ∃ u, t = .tree u := by
  cases h with
  | failed => exact ⟨_, rfl⟩
  | done _ _ _ => exact ⟨_, rfl⟩
  | suspended _ _ => exact ⟨_, rfl⟩

theorem Grounded.known (h : Grounded E A t) : t.isPoison = false := by
  obtain ⟨u, rfl⟩ := h.exists_tree
  rfl

theorem grounded_pure {v : Value} (hv : A v) : Grounded E A (.tree (Tree.pure v)) :=
  .done (Act.settles_pure v) (.inl ⟨v, rfl⟩) fun u hu => by
    have same : some v = some u := (resolve_pure (T := T) (A.known hv)).unique hu
    rwa [← Option.some.inj same]

/-- Trees that can be folded, as a kind of values. -/
def Kind.trees (E : Repertoire T) (A : Kind) : Kind := ⟨Grounded E A, Grounded.known⟩

/-- **To bind** a function that gives trees to such a tree gives such a tree. -/
theorem Grounded.bind (h : Grounded E A t) (hf : ∀ x, A x → Makes T (Kind.trees E B) (limit f [x])) :
    Makes T (Kind.trees E B) (limit (.frame (.bind f)) [t]) := by
  induction h with
  | failed =>
    rw [Machine.limit_frame]
    exact Act.makes_pure .failed
  | done settles answers value =>
    rw [Machine.limit_frame]
    rcases Payload.cases settles answers with ⟨v, -, resolved⟩ | nothing
    · obtain ⟨u, yields, grounded⟩ := hf v (value v resolved)
      exact ⟨u, binding_some resolved (guarded_known yields grounded.known), grounded⟩
    · exact ⟨_, binding_none nothing, .failed⟩
  | suspended contents carries ih =>
    rw [Machine.limit_frame]
    obtain ⟨d', mapped, carries'⟩ := carries.refill ih
    exact ⟨_, mapped.bind (Act.yields_pure _), .suspended (fun _ h => h) carries'⟩

/-- **Nothing comes of some leaf** of the tree, at hand or behind function slots for the arguments that
they may be called with. -/
inductive Barren (E : Repertoire T) : Value → Prop where
  | leaf {t : Value} (hopeless : Hopeless T t) : Barren E t
  | atHand {d x : Value} (hx : AtHand T d x) (barren : Barren E x) : Barren E (.tree (.suspended d))
  | behind {c : ClassRef} {own : List (String × Value)} {n : Nat} {g x : Value} {args : List Value}
      (hg : Behind T (.descriptor c own) n g) (passes : E.Passes c args)
      (yields : (limit g args).Yields T x) (barren : Barren E x) :
      Barren E (.tree (.suspended (.descriptor c own)))

/-- A leaf of which nothing comes is a leaf of the tree that it is in. -/
theorem Repertoire.Carries.barren {P : Value → Prop} (h : E.Carries P d) :
    E.Carries (fun x => P x ∧ (Barren E x → Barren E (.tree (.suspended d)))) d := by
  refine h.imp (fun x hx hP => ⟨hP, .atHand hx⟩) ?_
  rintro c own n g args x rfl hg passes yields hP
  exact ⟨hP, .behind hg passes yields⟩

/-! ### Folds -/

/-- What a fold goes on with. -/
def folding (transform : Value) (M : TypedTarget) : Value := .frame (.fold transform M.target)

theorem takes_folding : M.Takes (folding transform M) := M.takes_callable rfl

theorem limit_folding (x : Value) :
    limit (folding transform M) [x] = Tree.fold limit transform M.target x := Machine.limit_frame _ _

theorem leafIn_some {p : Payload} {v m : Value} (resolved : (p.resolve limit).Yields T (some v))
    (given : (M.pure v).Yields T m) : (Tree.leafIn limit M.target p).Yields T m :=
  resolved.bind given

theorem leafIn_none {p : Payload} {m : Value} (nothing : (p.resolve limit).Yields T none)
    (given : M.empty.Yields T m) : (Tree.leafIn limit M.target p).Yields T m :=
  nothing.bind given

theorem yields_fold_suspended {m n : Value} (transformed : (limit transform [d]).Yields T m)
    (bound : (M.bind m (folding transform M)).Yields T n) :
    (Tree.fold limit transform M.target (.tree (.suspended d))).Yields T n :=
  (yields_requireMember bound).bind (transformed.bind bound)

/-- **A fold comes to a computation of the target** with the results of the tree. If some leaf has no
value, then what gives nothing has to be such a computation. -/
theorem Natural.makes_fold (natural : Natural T M E transform) (lawful : M.Lawful T)
    (h : Grounded E A t) (empty : Barren E t → Makes T (M.Of A) M.empty) :
    Makes T (M.Of A) (Tree.fold limit transform M.target t) := by
  induction h with
  | failed => exact empty (.leaf .failed)
  | done settles answers value =>
    rcases Payload.cases settles answers with ⟨v, -, resolved⟩ | nothing
    · obtain ⟨m, given, hm⟩ := lawful.makes_pure (value v resolved)
      exact ⟨m, leafIn_some resolved given, hm⟩
    · obtain ⟨m, given, hm⟩ := empty (.leaf (.done nothing))
      exact ⟨m, leafIn_none nothing given, hm⟩
  | @suspended C d contents carries ih =>
    let P : Kind := ⟨fun x => C x ∧ (Barren E x → Barren E (.tree (.suspended d))),
      fun hx => (contents _ hx.1).known⟩
    obtain ⟨m, transformed, hm⟩ := natural.makes (P := P) carries.barren
    obtain ⟨n, bound, hn⟩ := lawful.makes_bind takes_folding hm fun x hx => by
      rw [limit_folding]
      exact ih x hx.1 fun barren => empty (hx.2 barren)
    exact ⟨n, yields_fold_suspended transformed bound, hn⟩

/-! ### A dialogue that can be folded -/

namespace Dialogue

theorem grounded_say {m x : Value} (hx : Grounded (.effects table) A x) :
    Grounded (.effects table) A (say m x) := by
  refine .suspended (C := Grounded (.effects table) A) (fun _ h => h)
    ⟨⟨_, _, rfl⟩, .effect (slotted_say m x) (holds_say m x), fun y hy => ?_, ?_⟩
  · rw [eq_of_atHand_saying hy]
    exact hx
  · rintro c own n g - hg
    exact absurd hg not_behind_saying

theorem grounded_ask_echo : Grounded (.effects table) .any (ask echo) := by
  refine .suspended (C := Grounded (.effects table) .any) (fun _ h => h)
    ⟨⟨_, _, rfl⟩, .effect (slotted_ask echo) (holds_ask echo),
      fun y hy => absurd hy not_atHand_asking, ?_⟩
  rintro c own n g hd hg args ⟨s, n', slot, kind, rfl⟩
  obtain ⟨rfl, rfl⟩ := eq_of_behind_asking hg
  obtain ⟨rfl, -⟩ := Value.descriptor.inj hd
  cases slot
  cases kind
  exact ⟨_, yields_echo .poison, grounded_say (grounded_pure rfl)⟩

end Dialogue

end EffectTrees
