import EffectTrees.Proofs.Elimination.Natural

/-!
# A fold is a monad morphism

To fold what a function has been bound to is to fold the tree, and to go on with the folds of what
the function gives. This takes a target that is a monad in which nothing follows from nothing, since
the failed tree and payloads that abort are folded to nothing. It takes a natural transformation,
since to bind puts the function into the slots of descriptors, where the transformation finds it.

* `agree_fold_bind` — the law for one target and one transformation.
* `fold_morphism` — the law for all of them, and that lists are one.
-/

namespace EffectTrees

open Machine (limit)
open Act (Makes EndsAs)

variable {T : ClassTable} {M : TypedTarget} {E : Repertoire T} {A B : Kind}
  {transform t f k : Value}

section

variable (lawful : M.Lawful T)
include lawful

/-- A payload with a value: the function is called with it on both sides. -/
theorem agree_fold_bind_some {p : Payload} {v u : Value}
    (resolved : (p.resolve limit).Yields T (some v)) (hv : A v)
    (yields : (limit f [v]).Yields T u) (known : u.isPoison = false)
    (hu : Makes T (M.Of B) (Tree.fold limit transform M.target u)) (taken : M.Takes k)
    (hk : ∀ x, A x → EndsAs T (limit k [x])
      (limit f [x] >>= fun u => Tree.fold limit transform M.target u))
    (goes_on : ∀ x, A x → Makes T (M.Of B) (limit k [x])) :
    M.Agree T B
      (Frame.run limit (.bind f) (.tree (.done p)) >>= fun u =>
        Tree.fold limit transform M.target u)
      (Tree.fold limit transform M.target (.tree (.done p)) >>= fun m => M.bind m k) := by
  obtain ⟨m, given, hm⟩ := lawful.makes_pure hv
  have unit : M.Agree T B (M.bind m k) (limit k [v]) :=
    (lawful.pure_bind taken hv goes_on).of_start (h := fun m => M.bind m k) given
      (lawful.makes_bind taken hm goes_on)
  have called : M.Agree T B (limit f [v] >>= fun u => Tree.fold limit transform M.target u)
      (M.bind m k) := (unit.symm lawful).imp_left fun _ h => (hk v hv).symm.yields h
  exact .start (binding_some resolved (guarded_known yields known)) (leafIn_some resolved given)
    (called.of_start yields hu)

/-- A payload that aborts: nothing is bound, and nothing follows. -/
theorem agree_fold_bind_none (absorbs : M.Absorbs T) {p : Payload}
    (nothing : (p.resolve limit).Yields T none) (taken : M.Takes k)
    (goes_on : ∀ x, A x → Makes T (M.Of B) (limit k [x])) :
    M.Agree T B
      (Frame.run limit (.bind f) (.tree (.done p)) >>= fun u =>
        Tree.fold limit transform M.target u)
      (Tree.fold limit transform M.target (.tree (.done p)) >>= fun m => M.bind m k) := by
  obtain ⟨m, given, hm⟩ := absorbs.makes_empty A
  have absorbed : M.Agree T B (M.bind m k) M.empty :=
    (absorbs B k taken).of_start (h := fun m => M.bind m k) given
      (lawful.makes_bind taken hm goes_on)
  exact .start (binding_none nothing) (leafIn_none nothing given) (absorbed.symm lawful)

/-- **The law for one target and one transformation.** The induction is on the tree. A suspended
tree is the case that the laws are for: the function leaves the slots by fusion, and the two ways to
go on are one by associativity. -/
theorem agree_fold_bind (absorbs : M.Absorbs T) (natural : Natural T M E transform)
    (ht : Grounded E A t) (hf : ∀ x, A x → Makes T (Grounded E B) (limit f [x])) (taken : M.Takes k)
    (hk : ∀ x, A x → EndsAs T (limit k [x])
      (limit f [x] >>= fun u => Tree.fold limit transform M.target u)) :
    M.Agree T B
      (Frame.run limit (.bind f) t >>= fun u => Tree.fold limit transform M.target u)
      (Tree.fold limit transform M.target t >>= fun m => M.bind m k) := by
  have goes_on : ∀ x, A x → Makes T (M.Of B) (limit k [x]) := fun x hx =>
    ((hf x hx).bind fun u hu =>
      natural.makes_fold lawful hu fun _ => absorbs.makes_empty B).endsAs (hk x hx)
  induction ht with
  | failed => exact (absorbs B k taken).symm lawful
  | done settles answers value =>
    rcases Payload.cases settles answers with ⟨v, -, resolved⟩ | nothing
    · obtain ⟨u, yields, grounded⟩ := hf v (value v resolved)
      exact agree_fold_bind_some lawful resolved (value v resolved) yields grounded.known
        (natural.makes_fold lawful grounded fun _ => absorbs.makes_empty B) taken hk goes_on
    · exact agree_fold_bind_none lawful absorbs nothing taken goes_on
  | @suspended C d contents carries ih =>
    let P : Kind := ⟨C, fun hx => (contents _ hx).known⟩
    let composite := M.chain (folding transform M) k
    have folded : ∀ {A : Kind} x, Grounded E A x →
        Makes T (M.Of A) (limit (folding transform M) [x]) := fun x hx => by
      rw [limit_folding]
      exact natural.makes_fold lawful hx fun _ => absorbs.makes_empty _
    -- The induction hypothesis, with functions of the program for both of its sides.
    have pointwise : ∀ x, P x → M.Agree T B (limit composite [x])
        (limit (.frame (.bind f)) [x] >>= fun u => limit (folding transform M) [u]) := by
      intro x hx
      rw [M.limit_chain]
      simp only [limit_folding, Machine.limit_frame]
      exact (ih x hx).symm lawful
    obtain ⟨d', m, m', mapped, transformed, transformed', hm, -, fused⟩ :=
      natural.fuse (P := P) (Q := Kind.trees E B) lawful carries takes_folding
        (M.takes_chain _ k) (fun x hx => (contents x hx).bind hf) (fun u hu => folded u hu) pointwise
    -- The composite goes on in one step, where the fold of the tree and `k` take two.
    obtain ⟨n, bound, hn⟩ := lawful.makes_bind takes_folding hm fun x hx =>
      folded x (contents x hx)
    have assoc : M.Agree T B (M.bind n k) (M.bind m composite) :=
      (lawful.bind_assoc takes_folding taken (M.takes_chain _ k) hm
        (fun x hx => folded x (contents x hx)) goes_on fun x _ =>
          .of_eq (M.limit_chain _ k x)).of_start (h := fun n => M.bind n k) bound
            (lawful.makes_bind taken hn goes_on)
    have both := (fused.trans lawful (assoc.symm lawful)).imp_left fun _ hv =>
      yields_fold_suspended transformed' hv
    exact .start (mapped.bind (Act.yields_pure _)) (yields_fold_suspended transformed bound) both

end

/-- **A fold is a monad morphism**, for every target that is a monad in which nothing follows from
nothing, and every natural transformation. Lists with the transformation that leaves lists alone are
an instance. To bind makes copies of descriptors, so those of the tree can be copied (`Fillable`, which
is part of `Repertoire.Carries`). The last function is one that the target takes, as all functions are
that an expression may call. -/
theorem fold_morphism (T : ClassTable) :
    (∀ (M : TypedTarget) (E : Repertoire T) (transform : Value), M.Lawful T → M.Absorbs T →
      Natural T M E transform →
      ∀ (A B : Kind) (t f k : Value), Grounded E A t →
      (∀ x, A x → Makes T (Grounded E B) (limit f [x])) → M.Takes k →
      (∀ x, A x → EndsAs T (limit k [x])
        (limit f [x] >>= fun u => Tree.fold limit transform M.target u)) →
      M.Agree T B
        (t.invoke limit .bind [f] >>= fun u => Tree.fold limit transform M.target u)
        (Tree.fold limit transform M.target t >>= fun m => M.bind m k)) ∧
    TypedTarget.list.Lawful T ∧ TypedTarget.list.Absorbs T ∧
      Natural T .list (.lists T) (.frame .identity) :=
  ⟨fun _ _ _ lawful absorbs natural _ _ _ _ _ ht hf taken hk =>
    agree_fold_bind lawful absorbs natural ht hf taken hk,
    TypedTarget.lawful_list, TypedTarget.absorbs_list, natural_identity⟩

open Dialogue in
/-- A statement before a question, folded into lists by following descriptors. What is bound repeats
the result in a statement of its own. -/
theorem fold_morphism_dialogue :
    TypedTarget.list.Lawful table ∧ TypedTarget.list.Absorbs table ∧
    Natural table .list (.effects table) (TypedTarget.list.returning Analysis.anyLocator) ∧
    Grounded (.effects table) .any (say (.str "hello") (ask echo)) ∧
    TypedTarget.list.Agree table .any
      ((say (.str "hello") (ask echo)).invoke limit .bind [echo] >>= fun u =>
        Tree.fold limit (TypedTarget.list.returning Analysis.anyLocator) (.target .list) u)
      (Tree.fold limit (TypedTarget.list.returning Analysis.anyLocator) (.target .list)
        (say (.str "hello") (ask echo)) >>= fun m => TypedTarget.list.bind m
          (.after (folding (TypedTarget.list.returning Analysis.anyLocator) .list) echo)) := by
  have natural := natural_locator (T := table) TypedTarget.lawful_list
  have grounded := grounded_say (m := .str "hello") grounded_ask_echo
  refine ⟨TypedTarget.lawful_list, TypedTarget.absorbs_list, natural, grounded, ?_⟩
  refine (fold_morphism table).1 .list (.effects table) _ TypedTarget.lawful_list
    TypedTarget.absorbs_list natural .any .any _ echo _ grounded (fun x hx => ?_) trivial fun x _ => ?_
  · exact ⟨_, yields_echo x, grounded_say (grounded_pure rfl)⟩
  · rw [Value.after, Machine.limit_after]
    simp only [limit_folding]
    exact .of_eq rfl

end EffectTrees
