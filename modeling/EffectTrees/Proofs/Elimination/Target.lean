import EffectTrees.Proofs.Act.Ending
import EffectTrees.Proofs.Depth.Limit

/-!
# Targets that are monads

A target says what a value is, what absence is, and how to go on. Values carry no types, so a target
is looked at together with what a type would say of it (`TypedTarget`): which values are its
computations with results of a given kind, and when two computations count as the same. It is a
monad if its operations obey the laws on these computations (`TypedTarget.Lawful`). Functions that
go on are given by what they come to, so a law holds however they are written. A target that is
written by a program can go on with what an expression may call only, and so it is said which
functions a target takes (`TypedTarget.Takes`).

The computation that gives nothing is no part of the laws. A target may have one for some kinds of
results only: absence is null for the target that goes on at once, and null need not be a result.

* `TypedTarget.Agree` — two ways to come to a computation come to the same one. The laws, and what
  follows from them, are stated in these terms.
* `TypedTarget.chain`, `TypedTarget.returning` — functions of the program for the composites that
  the laws speak of.
* `TypedTarget.lawful_list` — lists are a monad, and a list is the same as itself only.
-/

namespace EffectTrees

open Machine (limit)

variable {T : ClassTable}

/-! ### Asking for an operation -/

/-- To look a member up changes nothing. -/
theorem exists_runIn_lookup (v : Value) (n : String) (w : World) :
    ∃ r, (v.lookup n).runIn w = some (r, w) := by
  unfold Value.lookup
  split
  · unfold Value.poisonMember
    split_ifs <;> exact ⟨_, rfl⟩
  · exact ⟨_, rfl⟩
  · rw [Act.runIn_bind, Act.runIn_classes]
    dsimp only
    split <;> exact ⟨_, rfl⟩
  · rw [Act.runIn_bind, Act.runIn_classes]
    dsimp only
    split <;> exact ⟨_, rfl⟩
  · exact ⟨_, rfl⟩

/-- What is done with a member needs the member. -/
theorem yields_discard_lookup {v r : Value} {n : String} {f : Value → Act Value}
    (h : (v.lookup n >>= f).Yields T r) : (discard (v.lookup n)).Yields T () := by
  intro w hw
  obtain ⟨w', yields, -⟩ := h w hw
  obtain ⟨r, found⟩ := exists_runIn_lookup v n w
  rw [Act.runIn_bind, found] at yields
  match r with
  | .error s => simp at yields
  | .ok x =>
    refine ⟨w, ?_, hw⟩
    change (v.lookup n >>= fun _ => pure ()).runIn w = _
    rw [Act.runIn_bind, found]
    rfl

/-- What can be asked to go on has the operation. -/
theorem yields_requireMember {v r : Value} {args : List Value}
    (h : (v.invoke limit .bind args).Yields T r) : (v.requireMember .bind).Yields T () := by
  cases v with
  | tree t => exact Act.yields_pure ()
  | builder b => exact Act.yields_pure ()
  | poison => exact absurd ((Act.settles_throw .abort).unique h.settles) (by simp)
  | slot n k a => exact absurd ((Act.settles_fail .missingMember).unique h.settles) (by simp)
  | target t =>
    cases t with
    | list => exact Act.yields_pure ()
    | tree => exact Act.yields_pure ()
    | custom members =>
      unfold Value.invoke at h
      unfold Value.requireMember
      dsimp only at *
      cases found : Value.fieldAt? members.reverse Member.bind.name with
      | none =>
        rw [found] at h
        exact absurd ((Act.settles_fail _).unique h.settles) (by simp)
      | some f =>
        have known : members.any (fun f => f.1 = Member.bind.name) = true := by
          unfold Value.fieldAt? at found
          obtain ⟨m, hm, -⟩ := Option.map_eq_some_iff.mp found
          exact List.any_eq_true.mpr ⟨m, List.mem_reverse.mp (List.mem_of_find?_eq_some hm),
            by simpa using List.find?_some hm⟩
        rw [if_pos known]
        exact Act.yields_pure ()
  | _ => exact yields_discard_lookup h

/-! ### What computations make -/

/-- A kind of values, all of which are known. -/
structure Kind where
  Has : Value → Prop
  known : ∀ {x}, Has x → x.isPoison = false

instance : CoeFun Kind fun _ => Value → Prop := ⟨Kind.Has⟩

/-- All known values. -/
def Kind.any : Kind := ⟨fun x => x.isPoison = false, id⟩

namespace Act

variable {P Q : Value → Prop} {a b : Act Value}

/-- The computation gives a value with the property. -/
def Makes (T : ClassTable) (P : Value → Prop) (a : Act Value) : Prop := ∃ v, a.Yields T v ∧ P v

theorem makes_pure {x : Value} (h : P x) : (pure x : Act Value).Makes T P := ⟨x, yields_pure x, h⟩

theorem Makes.bind {f : Value → Act Value} (h : a.Makes T P) (hf : ∀ x, P x → (f x).Makes T Q) :
    (a >>= f).Makes T Q := by
  obtain ⟨x, yields, hx⟩ := h
  obtain ⟨y, next, hy⟩ := hf x hx
  exact ⟨y, yields.bind next, hy⟩

theorem Makes.endsAs (h : b.Makes T P) (same : EndsAs T a b) : a.Makes T P := by
  obtain ⟨v, yields, hv⟩ := h
  exact ⟨v, same.yields yields, hv⟩

/-- What a function makes of values with a property may be chosen for all of them at once. -/
theorem exists_values {f : Value} (hf : ∀ x, P x → (limit f [x]).Makes T Q) :
    ∃ F : Value → Value, ∀ x, P x → (limit f [x]).Yields T (F x) ∧ Q (F x) := by
  have : Nonempty Value := ⟨.null⟩
  choose! F hF using hf
  exact ⟨F, hF⟩

/-- The values of a function, item by item. -/
theorem yields_mapM {α β : Type} {f : α → Act β} {F : α → β} {xs : List α}
    (h : ∀ x ∈ xs, (f x).Yields T (F x)) : (xs.mapM f).Yields T (xs.map F) := by
  refine Yields.mapM (C := fun x y => x ∈ xs ∧ y = F x) ?_ fun x y ⟨mem, eq⟩ => eq ▸ h x mem
  exact List.forall₂_map_right_iff.mpr (List.forall₂_same.mpr fun x mem => ⟨mem, rfl⟩)

end Act

open Act (Makes EndsAs)

/-- A target with what a type would say of its computations. -/
structure TypedTarget where
  target : Value
  /-- The functions that the target can be given to go on with. -/
  Takes : Value → Prop
  takes_callable : ∀ {f}, f.isCallable = true → Takes f
  /-- The computations of the target with results of a kind. -/
  Of : Kind → Kind
  /-- The computations that count as the same. -/
  Same : Value → Value → Prop

namespace TypedTarget

variable {M : TypedTarget} {P Q R : Kind} {a a' b b' c : Act Value} {m f g k x : Value}

/-- The computation of the target that gives a value. -/
noncomputable abbrev pure (M : TypedTarget) (x : Value) : Act Value :=
  M.target.invoke limit .pure [x]

/-- The computation of the target that gives nothing. -/
noncomputable abbrev empty (M : TypedTarget) : Act Value := M.target.invoke limit .empty []

/-- To go on from a computation of the target. -/
noncomputable abbrev bind (M : TypedTarget) (m f : Value) : Act Value :=
  M.target.invoke limit .bind [m, f]

/-- Both come to a computation with results of the kind, and to the same one. -/
def Agree (M : TypedTarget) (T : ClassTable) (Q : Kind) (a b : Act Value) : Prop :=
  ∃ m n, a.Yields T m ∧ b.Yields T n ∧ M.Of Q m ∧ M.Of Q n ∧ M.Same m n

/-! ### The laws -/

/-- **The laws of a monad**, for the functions that the target takes. They say nothing about the
computation that gives nothing, which need not be of any kind. -/
structure Lawful (M : TypedTarget) (T : ClassTable) : Prop where
  equivalence : Equivalence M.Same
  makes_pure {P : Kind} {x : Value} (hx : P x) : Makes T (M.Of P) (M.pure x)
  /-- To bind depends on the computation and on what the function gives for its results. -/
  bind_congr {P Q : Kind} {m m' f f' : Value} (taken : M.Takes f) (taken' : M.Takes f')
    (hm : M.Of P m) (hm' : M.Of P m') (same : M.Same m m')
    (hf : ∀ x, P x → M.Agree T Q (limit f [x]) (limit f' [x])) :
    M.Agree T Q (M.bind m f) (M.bind m' f')
  pure_bind {P Q : Kind} {x f : Value} (taken : M.Takes f) (hx : P x)
    (hf : ∀ x, P x → Makes T (M.Of Q) (limit f [x])) :
    M.Agree T Q (M.pure x >>= fun m => M.bind m f) (limit f [x])
  bind_pure {P : Kind} {m e : Value} (taken : M.Takes e) (hm : M.Of P m)
    (he : ∀ x, P x → EndsAs T (limit e [x]) (M.pure x)) :
    M.Agree T P (M.bind m e) (Pure.pure m)
  bind_assoc {P Q R : Kind} {m f g k : Value} (taken : M.Takes f) (next : M.Takes g)
    (both : M.Takes k) (hm : M.Of P m)
    (hf : ∀ x, P x → Makes T (M.Of Q) (limit f [x]))
    (hg : ∀ x, Q x → Makes T (M.Of R) (limit g [x]))
    (hk : ∀ x, P x → EndsAs T (limit k [x]) (limit f [x] >>= fun n => M.bind n g)) :
    M.Agree T R (M.bind m f >>= fun n => M.bind n g) (M.bind m k)

/-- Nothing comes of what follows the computation that gives nothing. -/
def Absorbs (M : TypedTarget) (T : ClassTable) : Prop :=
  ∀ (Q : Kind) (k : Value), M.Takes k → M.Agree T Q (M.empty >>= fun m => M.bind m k) M.empty

/-! ### Coming to the same computation -/

namespace Agree

theorem left (h : M.Agree T Q a b) : Makes T (M.Of Q) a := by
  obtain ⟨m, n, hm, -, ofm, -, -⟩ := h
  exact ⟨m, hm, ofm⟩

theorem right (h : M.Agree T Q a b) : Makes T (M.Of Q) b := by
  obtain ⟨m, n, -, hn, -, ofn, -⟩ := h
  exact ⟨n, hn, ofn⟩

theorem self (same : ∀ m, M.Same m m) (h : Makes T (M.Of Q) a) : M.Agree T Q a a := by
  obtain ⟨m, yields, hm⟩ := h
  exact ⟨m, m, yields, yields, hm, hm, same m⟩

theorem refl (lawful : M.Lawful T) (h : Makes T (M.Of Q) a) : M.Agree T Q a a :=
  .self lawful.equivalence.refl h

theorem symm (lawful : M.Lawful T) (h : M.Agree T Q a b) : M.Agree T Q b a := by
  obtain ⟨m, n, hm, hn, ofm, ofn, same⟩ := h
  exact ⟨n, m, hn, hm, ofn, ofm, lawful.equivalence.symm same⟩

theorem trans (lawful : M.Lawful T) (h : M.Agree T Q a b) (h' : M.Agree T Q b c) :
    M.Agree T Q a c := by
  obtain ⟨m, n, hm, hn, ofm, -, same⟩ := h
  obtain ⟨n', l, hn', hl, -, ofl, same'⟩ := h'
  obtain rfl := hn.unique hn'
  exact ⟨m, l, hm, hl, ofm, ofl, lawful.equivalence.trans same same'⟩

/-- What comes to all that the one side comes to may take its place. -/
theorem imp_left (agree : M.Agree T Q a b) (h : ∀ v, a.Yields T v → a'.Yields T v) :
    M.Agree T Q a' b := by
  obtain ⟨m, n, hm, hn, ofm, ofn, same⟩ := agree
  exact ⟨m, n, h m hm, hn, ofm, ofn, same⟩

theorem imp_right (agree : M.Agree T Q a b) (h : ∀ v, b.Yields T v → b'.Yields T v) :
    M.Agree T Q a b' := by
  obtain ⟨m, n, hm, hn, ofm, ofn, same⟩ := agree
  exact ⟨m, n, hm, h n hn, ofm, ofn, same⟩

/-- Starts that give values may be put in front. -/
theorem start {h h' : Value → Act Value} {y : Value} (ha : a.Yields T x) (hb : b.Yields T y)
    (agree : M.Agree T Q (h x) (h' y)) : M.Agree T Q (a >>= h) (b >>= h') :=
  (agree.imp_left fun _ hv => ha.bind hv).imp_right fun _ hv => hb.bind hv

/-- A start that gives a value may be left out. -/
theorem of_start {h : Value → Act Value} (agree : M.Agree T Q (a >>= h) b) (ha : a.Yields T x)
    (hx : Makes T (M.Of Q) (h x)) : M.Agree T Q (h x) b := by
  obtain ⟨m, n, hm, hn, -, ofn, same⟩ := agree
  obtain ⟨v, yields, hv⟩ := hx
  obtain rfl := hm.unique (ha.bind yields)
  exact ⟨m, n, yields, hn, hv, ofn, same⟩

end Agree

theorem Lawful.makes_bind (lawful : M.Lawful T) (taken : M.Takes f) (hm : M.Of P m)
    (hf : ∀ x, P x → Makes T (M.Of Q) (limit f [x])) : Makes T (M.Of Q) (M.bind m f) :=
  (lawful.bind_congr taken taken hm hm (lawful.equivalence.refl m) fun x hx =>
    .refl lawful (hf x hx)).left

/-- If nothing follows from the computation that gives nothing, it is a computation of every kind. -/
theorem Absorbs.makes_empty (absorbs : M.Absorbs T) (Q : Kind) : Makes T (M.Of Q) M.empty :=
  (absorbs Q (.frame .identity) (M.takes_callable rfl)).right

/-! ### Composites -/

/-- The function that goes on with `g` from what `f` gives. -/
def chain (M : TypedTarget) (f g : Value) : Value :=
  .function (.after
    (.function (.closure ["n"] (.library "target_bind" [.var "target", .var "n", .var "next"])
      [("target", M.target), ("next", g)])) f)

/-- The function that gives what `h` gives as a result of the target. -/
def returning (M : TypedTarget) (h : Value) : Value :=
  .function (.after
    (.function (.closure ["x"] (.library "target_pure" [.var "target", .var "x"])
      [("target", M.target)])) h)

theorem takes_chain (M : TypedTarget) (f g : Value) : M.Takes (M.chain f g) := M.takes_callable rfl

theorem takes_returning (M : TypedTarget) (h : Value) : M.Takes (M.returning h) :=
  M.takes_callable rfl

theorem limit_chain (M : TypedTarget) (f g x : Value) :
    limit (M.chain f g) [x] = limit f [x] >>= fun n => M.bind n g := by
  rw [chain, Machine.limit_after]
  congr 1
  funext n
  rw [Machine.limit_closure]
  rfl

theorem limit_returning (M : TypedTarget) (h x : Value) :
    limit (M.returning h) [x] = limit h [x] >>= fun y => M.pure y := by
  rw [returning, Machine.limit_after]
  congr 1
  funext n
  rw [Machine.limit_closure]
  rfl

/-! ### The target of lists -/

/-- Lists as computations with several results. -/
def list : TypedTarget where
  target := .target .list
  Takes _ := True
  takes_callable _ := trivial
  Of P := ⟨fun v => ∃ xs, v = .list xs ∧ ∀ x ∈ xs, P x, by rintro _ ⟨xs, rfl, -⟩; rfl⟩
  Same := Eq

theorem agree_list {v : Value} (ha : a.Yields T v) (hb : b.Yields T v) (hv : list.Of Q v) :
    list.Agree T Q a b := ⟨v, v, ha, hb, hv, hv, rfl⟩

/-- To bind a list puts together what the function gives for its items. -/
theorem yields_bind_list {xs : List Value} {F : Value → List Value}
    (hf : ∀ x ∈ xs, (limit f [x]).Yields T (.list (F x))) :
    (list.bind (.list xs) f).Yields T (.list (xs.flatMap F)) := by
  have parts : (xs.mapM fun x => do (← limit f [x]).items).Yields T (xs.map F) :=
    Act.yields_mapM fun x mem => (hf x mem).bind (Act.yields_pure _)
  exact (Act.yields_pure xs).bind (parts.bind (Act.yields_pure _))

/-- The items of what a function gives. -/
theorem exists_items (hf : ∀ x, P x → Makes T (list.Of Q) (limit f [x])) :
    ∃ F : Value → List Value, ∀ x, P x →
      (limit f [x]).Yields T (.list (F x)) ∧ ∀ y ∈ F x, Q y := by
  have items : ∀ x, P x → ∃ ys, (limit f [x]).Yields T (.list ys) ∧ ∀ y ∈ ys, Q y := by
    intro x hx
    obtain ⟨_, yields, ys, rfl, hys⟩ := hf x hx
    exact ⟨ys, yields, hys⟩
  choose! F hF using items
  exact ⟨F, hF⟩

theorem of_flatMap {xs : List Value} {F : Value → List Value} (hxs : ∀ x ∈ xs, P x)
    (hF : ∀ x, P x → ∀ y ∈ F x, Q y) : list.Of Q (.list (xs.flatMap F)) := by
  refine ⟨_, rfl, fun y hy => ?_⟩
  obtain ⟨x, mem, hy⟩ := List.mem_flatMap.mp hy
  exact hF x (hxs x mem) y hy

/-- **Lists are a monad.** -/
theorem lawful_list : list.Lawful T where
  equivalence := ⟨fun _ => rfl, Eq.symm, Eq.trans⟩
  makes_pure {P x} hx := ⟨.list [x], Act.yields_pure _, [x], rfl, by simpa using hx⟩
  bind_congr {P Q m m' f f'} _ _ hm _ same hf := by
    obtain rfl : m = m' := same
    obtain ⟨xs, rfl, hxs⟩ := hm
    obtain ⟨F, hF⟩ := exists_items fun x hx => (hf x hx).left
    -- Only equal lists count as the same, so the other function gives the very same lists.
    have other : ∀ x, P x → (limit f' [x]).Yields T (.list (F x)) := by
      intro x hx
      obtain ⟨v, _, left, right, -, -, rfl⟩ := hf x hx
      rwa [(hF x hx).1.unique left]
    exact agree_list (yields_bind_list fun x mem => (hF x (hxs x mem)).1)
      (yields_bind_list fun x mem => other x (hxs x mem)) (of_flatMap hxs fun x hx => (hF x hx).2)
  pure_bind {P Q x f} _ hx hf := by
    obtain ⟨F, hF⟩ := exists_items hf
    have bound : (list.bind (.list [x]) f).Yields T (.list ([x].flatMap F)) :=
      yields_bind_list fun y mem => by
        rw [List.mem_singleton.mp mem]
        exact (hF x hx).1
    rw [List.flatMap_singleton] at bound
    exact agree_list ((Act.yields_pure _).bind bound) (hF x hx).1 ⟨_, rfl, (hF x hx).2⟩
  bind_pure {P m e} _ hm he := by
    obtain ⟨xs, rfl, hxs⟩ := hm
    have bound : (list.bind (.list xs) e).Yields T (.list (xs.flatMap fun x => [x])) :=
      yields_bind_list fun x mem => (he x (hxs x mem)).yields (Act.yields_pure _)
    rw [List.flatMap_singleton'] at bound
    exact agree_list bound (Act.yields_pure _) ⟨xs, rfl, hxs⟩
  bind_assoc {P Q R m f g k} _ _ _ hm hf hg hk := by
    obtain ⟨xs, rfl, hxs⟩ := hm
    obtain ⟨F, hF⟩ := exists_items hf
    obtain ⟨G, hG⟩ := exists_items hg
    have first : (list.bind (.list xs) f).Yields T (.list (xs.flatMap F)) :=
      yields_bind_list fun x mem => (hF x (hxs x mem)).1
    have items : ∀ y ∈ xs.flatMap F, Q y := by
      intro y hy
      obtain ⟨x, mem, hy⟩ := List.mem_flatMap.mp hy
      exact (hF x (hxs x mem)).2 y hy
    have second : (list.bind (.list (xs.flatMap F)) g).Yields T (.list ((xs.flatMap F).flatMap G)) :=
      yields_bind_list fun y mem => (hG y (items y mem)).1
    have composite : ∀ x ∈ xs, (limit k [x]).Yields T (.list ((F x).flatMap G)) := by
      intro x mem
      have hx := hF x (hxs x mem)
      exact (hk x (hxs x mem)).yields
        (hx.1.bind (yields_bind_list fun y hy => (hG y (hx.2 y hy)).1))
    refine agree_list (first.bind second) ?_ (of_flatMap items fun y hy => (hG y hy).2)
    rw [List.flatMap_assoc]
    exact yields_bind_list composite

theorem absorbs_list : list.Absorbs T := by
  intro Q k _
  have bound : (list.bind (.list []) k).Yields T (.list ([].flatMap fun _ => [])) :=
    yields_bind_list fun x mem => absurd mem List.not_mem_nil
  exact agree_list ((Act.yields_pure _).bind bound) (Act.yields_pure _) ⟨[], rfl, by simp⟩

end TypedTarget

end EffectTrees
