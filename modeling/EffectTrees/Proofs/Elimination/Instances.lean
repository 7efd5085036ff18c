import EffectTrees.Proofs.Elimination.Immediate
import EffectTrees.Proofs.Elimination.Natural

/-!
# The target that goes on at once, and the target of trees

Lists are not the only target that is a monad.

* `TypedTarget.lawful_immediate` — the target that goes on at once (`Tree.immediate`): a computation
  with results of a kind is a result. It is written by a program, so it goes on with what an
  expression may call. What gives nothing gives null, which is a computation of those kinds only that
  have null.
* `TypedTarget.lawful_trees` — the target of trees: a computation is a tree that can be folded. Two
  trees count as the same if they differ in how their payloads are written only (`Variant`), as for
  similar trees, but behind function slots for those arguments only that the repertoire passes.
  Nothing follows from the failed tree (`TypedTarget.absorbs_trees`).
-/

namespace EffectTrees

open Machine (limit)
open Act (Makes EndsAs)

variable {T : ClassTable}

namespace TypedTarget

variable {Q : Kind}

/-! ### Going on at once -/

/-- The target that goes on at once: a computation is its result. -/
def immediate : TypedTarget where
  target := Tree.immediate
  Takes f := f.isCallable = true
  takes_callable := id
  Of := id
  Same := Eq

theorem bind_immediate {f : Value} (taken : f.isCallable = true) (m : Value) :
    immediate.bind m f = limit f [m] := by
  change limit Tree.sequence [m, f] = _
  rw [Tree.sequence, Machine.limit_closure]
  change (if f.isCallable then limit f [m] else Act.wrong .notFunction) = _
  rw [if_pos taken]

/-- **To go on at once is a monad.** -/
theorem lawful_immediate : immediate.Lawful T where
  equivalence := ⟨fun _ => rfl, Eq.symm, Eq.trans⟩
  makes_pure {P x} hx := by
    change Makes T P (Tree.immediate.invoke limit .pure [x])
    rw [Tree.invoke_immediate_pure]
    exact Act.makes_pure hx
  bind_congr {P Q m m' f f'} taken taken' hm _ same hf := by
    obtain rfl : m = m' := same
    rw [bind_immediate taken, bind_immediate taken']
    exact hf m hm
  pure_bind {P Q x f} taken hx hf := by
    change immediate.Agree T Q (Tree.immediate.invoke limit .pure [x] >>= _) _
    rw [Tree.invoke_immediate_pure, pure_bind, bind_immediate taken]
    exact .self (fun _ => rfl) (hf x hx)
  bind_pure {P m e} taken hm he := by
    rw [bind_immediate taken]
    refine ⟨m, m, (he m hm).yields ?_, Act.yields_pure m, hm, hm, rfl⟩
    change (Tree.immediate.invoke limit .pure [m]).Yields T m
    rw [Tree.invoke_immediate_pure]
    exact Act.yields_pure m
  bind_assoc {P Q R m f g k} taken next both hm hf hg hk := by
    simp only [bind_immediate taken, bind_immediate next, bind_immediate both] at hk ⊢
    have goes_on : Makes T (immediate.Of R) (limit f [m] >>= limit g ∘ fun n => [n]) :=
      (hf m hm).bind hg
    obtain ⟨r, yields, hr⟩ := goes_on
    exact ⟨r, r, yields, (hk m hm).yields yields, hr, hr, rfl⟩

/-- Null is what there is if nothing comes of a payload. -/
theorem makes_empty_immediate (hQ : Q .null) : Makes T (immediate.Of Q) immediate.empty := by
  change Makes T Q (Tree.immediate.invoke limit .empty [])
  rw [Tree.invoke_immediate_empty]
  exact Act.makes_pure hQ

end TypedTarget

/-! ### Trees that differ in how their payloads are written -/

variable {E : Repertoire T} {A B : Kind} {t t' u v : Value}

/-- The function slot of a descriptor `d` holds `g`: for the arguments that it may be called with, `g`
and `g'` give related values. -/
def Repertoire.Beside (E : Repertoire T) (C : Value → Value → Prop) (d : Value) (_ : Nat)
    (g g' : Value) : Prop :=
  ∀ c own args, d = .descriptor c own → E.Passes c args →
    ∃ x y, (limit g args).Yields T x ∧ (limit g' args).Yields T y ∧ C x y

/-- Two trees that can be folded differ in how their payloads are written only. -/
inductive Variant (E : Repertoire T) : Value → Value → Prop where
  | lost {t u : Value} (left : Hopeless T t) (right : Hopeless T u) : Variant E t u
  | done {p q : Payload} {v : Value} (left : (p.resolve limit).Yields T (some v))
      (right : (q.resolve limit).Yields T (some v)) : Variant E (.tree (.done p)) (.tree (.done q))
  | suspended {C : Value → Value → Prop} {d d' : Value} (contents : ∀ x y, C x y → Variant E x y)
      (fillable : Fillable T d) (fillable' : Fillable T d')
      (renews : Renews T C (E.Beside C d) d d') :
      Variant E (.tree (.suspended d)) (.tree (.suspended d'))

namespace Renews

variable {C : Value → Value → Prop} {B : Nat → Value → Value → Prop} {d d' : Value}

/-- A descriptor renews descriptors of its class only. -/
theorem exists_own (h : Renews T C B d d') {c : ClassRef} {own : List (String × Value)}
    (hd : d' = .descriptor c own) : ∃ own', d = .descriptor c own' := by
  subst hd
  cases h with
  | direct _ _ _ _ _ _ _ => exact ⟨_, rfl⟩
  | function _ _ _ _ _ _ _ => exact ⟨_, rfl⟩

end Renews

theorem Hopeless.no_value {p : Payload} (h : Hopeless T (.tree (.done p))) :
    ¬ (p.resolve limit).Yields T (some v) := by
  cases h with
  | done nothing => exact fun yields => absurd (yields.unique nothing) (by simp)

namespace Variant

theorem symm (h : Variant E t u) : Variant E u t := by
  induction h with
  | lost left right => exact .lost right left
  | done left right => exact .done right left
  | @suspended C d d' contents fillable fillable' renews ih =>
    refine .suspended (C := flip C) (fun x y hxy => ih y x hxy) fillable' fillable
      (renews.swap.mono (fun _ _ _ hxy => hxy) ?_)
    intro n g' g _ beside c own args hd passes
    obtain ⟨own', hd'⟩ := renews.exists_own hd
    obtain ⟨x, y, left, right, hxy⟩ := beside c own' args hd' passes
    exact ⟨y, x, right, left, hxy⟩

theorem trans (h : Variant E t u) (h' : Variant E u v) : Variant E t v := by
  induction h generalizing v with
  | lost left right =>
    cases h' with
    | lost _ right' => exact .lost left right'
    | done left' _ => exact absurd left' right.no_value
    | suspended _ _ _ _ => cases right
  | done left right =>
    cases h' with
    | lost left' _ => exact absurd right left'.no_value
    | done left' right' =>
      obtain rfl := Option.some.inj (right.unique left')
      exact .done left right'
  | @suspended C d d' contents fillable fillable' renews ih =>
    cases h' with
    | lost left' _ => cases left'
    | @suspended D _ d'' contents' _ fillable'' renews' =>
      refine .suspended (C := Relation.Comp C D) ?_ fillable fillable''
        ((renews.comp renews').mono (fun _ _ _ hxz => hxz) ?_)
      · rintro x z ⟨y, hxy, hyz⟩
        exact ih x y hxy (contents' y z hyz)
      · rintro n g g'' - ⟨g', beside, beside'⟩ c own args hd passes
        obtain ⟨own', hd'⟩ := renews.swap.exists_own hd
        obtain ⟨x, y, left, right, hxy⟩ := beside c own args hd passes
        obtain ⟨y', z, left', right', hyz⟩ := beside' c own' args hd' passes
        obtain rfl := right.unique left'
        exact ⟨x, z, left, right', y, hxy, hyz⟩

/-- A tree that can be folded differs from itself in nothing. -/
theorem refl (h : Grounded E A t) : Variant E t t := by
  induction h with
  | failed => exact .lost .failed .failed
  | done settles answers value =>
    rcases Payload.cases settles answers with ⟨v, -, resolved⟩ | nothing
    · exact .done resolved resolved
    · exact .lost (.done nothing) (.done nothing)
  | @suspended C d contents carries ih =>
    refine .suspended (C := fun x y => C x ∧ x = y) ?_ carries.fillable carries.fillable
      ((Renews.refl carries.fillable).mono (fun x y hx same => ⟨carries.atHand x hx, same⟩) ?_)
    · rintro x _ ⟨hx, rfl⟩
      exact ih x hx
    · rintro n g _ hg rfl c own args rfl passes
      obtain ⟨x, yields, hx⟩ := carries.behind c own n g rfl hg args passes
      exact ⟨x, x, yields, yields, hx, rfl⟩

end Variant

/-! ### Passes over them -/

/-- A pass has something for payloads of which nothing comes, of which nothing comes either. -/
def Pass.GivesUp (P : Pass T) : Prop :=
  ∀ p : Payload, (p.resolve limit).Yields T none →
    ∃ r, P.Gives (.tree (.done p)) r ∧ Hopeless T r

theorem Pass.GivesUp.exists_gives {P : Pass T} (h : P.GivesUp) (lost : Hopeless T t) :
    ∃ r, P.Gives t r ∧ Hopeless T r := by
  cases lost with
  | failed => exact ⟨_, P.failed, .failed⟩
  | done nothing => exact h _ nothing

theorem givesUp_stay : (Pass.stay T).GivesUp := fun _ nothing => ⟨_, rfl, .done nothing⟩

theorem givesUp_binding (f : Value) : (binding T f).GivesUp :=
  fun _ nothing => ⟨_, binding_none nothing, .failed⟩

theorem givesUp_andThen {P Q : Pass T} (h : P.GivesUp) (h' : Q.GivesUp) : (P.andThen Q).GivesUp := by
  intro p nothing
  obtain ⟨r, first, lost⟩ := h p nothing
  obtain ⟨r', second, lost'⟩ := h'.exists_gives lost
  exact ⟨r', ⟨r, first, second⟩, lost'⟩

/-- **Two passes that agree on payloads with a value** make variants of variants. The induction is on the
tree that can be folded, since it says what is behind function slots. -/
theorem Grounded.exists_variants {P Q : Pass T} (h : Grounded E A t) (variant : Variant E t t')
    (lost : P.GivesUp) (lost' : Q.GivesUp)
    (leaf : ∀ (p q : Payload) (v : Value), A v → (p.resolve limit).Yields T (some v) →
      (q.resolve limit).Yields T (some v) →
      ∃ r r', P.Gives (.tree (.done p)) r ∧ Q.Gives (.tree (.done q)) r' ∧ Variant E r r') :
    ∃ r r', P.Gives t r ∧ Q.Gives t' r' ∧ Variant E r r' := by
  have hopeless : ∀ {t t'}, Hopeless T t → Hopeless T t' →
      ∃ r r', P.Gives t r ∧ Q.Gives t' r' ∧ Variant E r r' := fun left right => by
    obtain ⟨r, given, nothing⟩ := lost.exists_gives left
    obtain ⟨r', given', nothing'⟩ := lost'.exists_gives right
    exact ⟨r, r', given, given', .lost nothing nothing'⟩
  induction h generalizing t' with
  | failed =>
    cases variant with
    | lost left right => exact hopeless left right
  | done settles answers value =>
    cases variant with
    | lost left right => exact hopeless left right
    | done left right => exact leaf _ _ _ (value _ left) left right
  | @suspended C d contents carries ih =>
    cases variant with
    | lost left _ => cases left
    | @suspended D _ d' related fillable fillable' renews =>
      -- What is in the one tree has its counterpart in the other.
      have each : ∀ x x', C x → D x x' → ∃ y y', P.Gives x y ∧ Q.Gives x' y' ∧ Variant E y y' :=
        fun x x' hx hxx' => ih x hx (related x x' hxx')
      have atHand : ∀ x, AtHand T d x → ∃ y, P.Gives x y := fun x hx => by
        obtain ⟨x', -, hxx'⟩ := renews.swap.atHand_right hx
        obtain ⟨y, -, given, -⟩ := each x x' (carries.atHand x hx) hxx'
        exact ⟨y, given⟩
      have atHand' : ∀ x', AtHand T d' x' → ∃ y', Q.Gives x' y' := fun x' hx' => by
        obtain ⟨x, hx, hxx'⟩ := renews.atHand_right hx'
        obtain ⟨-, y', -, given', -⟩ := each x x' (carries.atHand x hx) hxx'
        exact ⟨y', given'⟩
      obtain ⟨d₁, given, fillable₁, first⟩ := P.suspended fillable atHand
      obtain ⟨d₂, given', fillable₂, second⟩ := Q.suspended fillable' atHand'
      have first := first.mono (D := fun x y => C x ∧ P.Gives x y)
        (E := fun n g g₁ => Behind T d n g ∧ g₁ = P.behind g)
        (fun x y hx hxy => ⟨carries.atHand x hx, hxy⟩) fun n g g₁ hg hg₁ => ⟨hg, hg₁⟩
      refine ⟨_, _, given, given', .suspended (C := Variant E) (fun _ _ h => h) fillable₁ fillable₂
        (((first.swap.comp renews).comp second).mono ?_ ?_)⟩
      · rintro y y' - ⟨x', ⟨x, ⟨hx, hxy⟩, hxx'⟩, hxy'⟩
        obtain ⟨z, z', given, given', variant⟩ := each x x' hx hxx'
        rwa [P.unique hxy given, Q.unique hxy' given']
      · rintro n _ _ - ⟨g', ⟨g, ⟨hg, rfl⟩, beside⟩, rfl⟩ c own args hd passes
        obtain ⟨own', hd'⟩ := first.exists_own hd
        obtain ⟨x, x', yields, yields', hxx'⟩ := beside c own' args hd' passes
        obtain ⟨z, called, hx⟩ := carries.behind c own' n g hd' hg args passes
        obtain rfl := yields.unique called
        obtain ⟨y, y', given, given', variant⟩ := each x x' hx hxx'
        rw [P.limit_behind, Q.limit_behind]
        exact ⟨y, y', yields.bind (P.yields given), yields'.bind (Q.yields given'), variant⟩

/-! ### The target of trees -/

namespace TypedTarget

variable {P Q R : Kind} {f g k : Value}

/-- The target of trees: a computation is a tree that can be folded. -/
def trees (E : Repertoire T) : TypedTarget where
  target := .target .tree
  Takes _ := True
  takes_callable _ := trivial
  Of := Kind.trees E
  Same m n := m = n ∨ Variant E m n

theorem bind_trees (m f : Value) : (trees E).bind m f = (binding T f).run m :=
  Machine.limit_frame (.bind f) m

/-- Variants that two passes give are the same computation, if both passes give trees that can be
folded. -/
theorem agree_trees {p q : Pass T} {m m' r r' : Value} (made : Makes T ((trees E).Of Q) (p.run m))
    (made' : Makes T ((trees E).Of Q) (q.run m')) (given : p.Gives m r) (given' : q.Gives m' r')
    (variant : Variant E r r') : (trees E).Agree T Q (p.run m) (q.run m') := by
  obtain ⟨s, yields, hs⟩ := made
  obtain ⟨s', yields', hs'⟩ := made'
  obtain rfl := yields.unique (p.yields given)
  obtain rfl := yields'.unique (q.yields given')
  exact ⟨s, s', yields, yields', hs, hs', .inr variant⟩

theorem makes_binding {m : Value} (hm : (trees E).Of P m)
    (hf : ∀ x, P x → Makes T ((trees E).Of Q) (limit f [x])) :
    Makes T ((trees E).Of Q) ((binding T f).run m) := by
  have bound := Grounded.bind hm hf
  rwa [Machine.limit_frame] at bound

/-- A function that gives a tree for the value of a payload, bound to the finished tree. -/
theorem gives_leaf {p : Payload} {x r : Value} (resolved : (p.resolve limit).Yields T (some x))
    (yields : (limit f [x]).Yields T r) (known : r.isPoison = false) :
    (binding T f).Gives (.tree (.done p)) r :=
  binding_some resolved (guarded_known yields known)

/-- **Trees are a monad.** -/
theorem lawful_trees (E : Repertoire T) : (trees E).Lawful T where
  equivalence := by
    refine ⟨fun _ => .inl rfl, ?_, ?_⟩
    · rintro m n (rfl | variant)
      exacts [.inl rfl, .inr variant.symm]
    · rintro m n r (rfl | variant) (rfl | variant')
      exacts [.inl rfl, .inr variant', .inr variant, .inr (variant.trans variant')]
  makes_pure hx := Act.makes_pure (grounded_pure hx)
  bind_congr {P Q m m' f f'} _ _ hm hm' same hf := by
    have variant : Variant E m m' := by
      rcases same with rfl | variant
      exacts [.refl hm, variant]
    obtain ⟨r, r', given, given', variants⟩ := Grounded.exists_variants hm variant (givesUp_binding f)
      (givesUp_binding f') fun p q v hv left right => by
        obtain ⟨u, u', yields, yields', hu, hu', same⟩ := hf v hv
        refine ⟨u, u', gives_leaf left yields (Grounded.known hu),
          gives_leaf right yields' (Grounded.known hu'), ?_⟩
        rcases same with rfl | variant
        exacts [.refl hu, variant]
    rw [bind_trees, bind_trees]
    exact agree_trees (makes_binding hm fun x hx => (hf x hx).left)
      (makes_binding hm' fun x hx => (hf x hx).right) given given' variants
  pure_bind {P Q x f} _ hx hf := by
    obtain ⟨u, yields, hu⟩ := hf x hx
    have bound : ((trees E).bind (.tree (Tree.pure x)) f).Yields T u := by
      rw [bind_trees]
      exact gives_leaf (resolve_pure (P.known hx)) yields (Grounded.known hu)
    exact ⟨u, u, (Act.yields_pure _).bind bound, yields, hu, hu, .inl rfl⟩
  bind_pure {P m e} _ hm he := by
    have finishes : ∀ x, P x → (limit e [x]).Yields T (.tree (Tree.pure x)) := fun x hx =>
      (he x hx).yields (Act.yields_pure _)
    obtain ⟨r, r', given, given', variants⟩ := Grounded.exists_variants hm (.refl hm) (givesUp_binding e)
      givesUp_stay fun p q v hv left right =>
        ⟨_, _, gives_leaf left (finishes v hv) rfl, rfl,
          .done (resolve_pure (P.known hv)) right⟩
    rw [bind_trees]
    exact agree_trees (q := .stay T)
      (makes_binding hm fun x hx => ⟨_, finishes x hx, grounded_pure hx⟩) (Act.makes_pure hm)
      given given' variants
  bind_assoc {P Q R m f g k} _ _ _ hm hf hg hk := by
    simp only [bind_trees] at hk ⊢
    have composite : ∀ x, P x → Makes T ((trees E).Of R) (limit k [x]) := fun x hx =>
      ((hf x hx).bind fun n hn => makes_binding hn hg).endsAs (hk x hx)
    obtain ⟨r, r', given, given', variants⟩ := Grounded.exists_variants hm (.refl hm)
      (givesUp_andThen (givesUp_binding f) (givesUp_binding g)) (givesUp_binding k)
      fun p q v hv left right => by
        obtain ⟨n, first, hn⟩ := hf v hv
        obtain ⟨r, second, hr⟩ := makes_binding hn hg
        have both := (hk v hv).yields (first.bind second)
        exact ⟨r, r, ⟨n, gives_leaf left first (Grounded.known hn), second⟩,
          gives_leaf right both (Grounded.known hr), .refl hr⟩
    exact agree_trees (p := (binding T f).andThen (binding T g))
      ((makes_binding hm hf).bind fun n hn => makes_binding hn hg) (makes_binding hm composite)
      given given' variants

/-- Nothing follows from the failed tree. -/
theorem absorbs_trees (E : Repertoire T) : (trees E).Absorbs T := by
  intro Q k _
  have bound : ((trees E).bind (.tree .failed) k).Yields T (.tree .failed) := by
    rw [bind_trees]
    exact (binding T k).yields (binding T k).failed
  exact ⟨_, _, (Act.yields_pure _).bind bound, Act.yields_pure _, .failed, .failed, .inl rfl⟩

end TypedTarget

end EffectTrees
