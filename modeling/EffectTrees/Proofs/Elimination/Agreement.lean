import Mathlib.Data.List.ReduceOption
import EffectTrees.Proofs.Elimination.Instances

/-!
# Two eliminators that agree

A fold goes through a tree from the outside in: the target goes on from what a descriptor is turned
into. An iteration goes from the inside out: the algebra is given a descriptor whose slots hold the
outcomes already. The algebra that turns the descriptor into a computation and goes on with what this
gives makes of a tree what the fold does, if the transformation is natural (`agree_fold_iterateIn`).

For trees of lists there is more to say. Collapsing such a tree, and iterating over it with a
function that concatenates, are the same computation, whatever the payloads do: both compute the
payloads from left to right, once each, and give the values of those that have one
(`Leaves.retract_eq`, `Leaves.iterateIn_eq`).
-/

namespace EffectTrees

open Machine (limit)
open Act (Makes EndsAs)

variable {T : ClassTable} {M : TypedTarget} {E : Repertoire T} {A : Kind}
  {transform t a e : Value}

/-! ### Natural transformations -/

/-- **A fold and the iteration that goes on with outcomes.** The induction is on the tree, and fusion
is all there is to it: what goes on after the iteration of the contents is the identity. -/
theorem agree_fold_iterateIn (lawful : M.Lawful T) (natural : Natural T M E transform)
    (ht : Grounded E A t) (empty : Barren E t → Makes T (M.Of A) M.empty) (taken : M.Takes e)
    (he : ∀ m, EndsAs T (limit e [m]) (pure m))
    (ha : ∀ d, EndsAs T (limit a [d]) (limit transform [d] >>= fun m => M.bind m e)) :
    M.Agree T A (Tree.fold limit transform M.target t) (Tree.iterateIn limit a M.target t) := by
  induction ht with
  | failed => exact .refl lawful (empty (.leaf .failed))
  | done settles answers value =>
    exact .refl lawful (natural.makes_fold lawful (.done settles answers value) empty)
  | @suspended C d contents carries ih =>
    let P : Kind := ⟨fun x => C x ∧ (Barren E x → Barren E (.tree (.suspended d))),
      fun hx => (contents _ hx.1).known⟩
    have each : ∀ x, P x → M.Agree T A (Tree.fold limit transform M.target x)
        (Tree.iterateIn limit a M.target x) := fun x hx =>
      ih x hx.1 fun barren => empty (hx.2 barren)
    have outcomes : ∀ x, P x →
        Makes T (M.Of A) (limit (.frame (.iterateIn a M.target)) [x]) := fun x hx => by
      rw [Machine.limit_frame]
      exact (each x hx).right
    have stay : ∀ m, M.Of A m → Makes T (M.Of A) (limit e [m]) := fun m hm =>
      (Act.makes_pure hm).endsAs (he m)
    have pointwise : ∀ x, P x → M.Agree T A (limit (folding transform M) [x])
        (limit (.frame (.iterateIn a M.target)) [x] >>= fun m => limit e [m]) := by
      intro x hx
      simp only [limit_folding, Machine.limit_frame]
      exact (each x hx).imp_right fun m hm => hm.bind ((he m).yields (Act.yields_pure m))
    -- The algebra gets `d'`, whose slots hold the outcomes; the fold gets `d` as it is.
    obtain ⟨d', m, m', mapped, transformed, transformed', hm, -, fused⟩ :=
      natural.fuse (P := P) (Q := M.Of A) lawful carries.barren taken takes_folding outcomes stay
        pointwise
    refine ((fused.symm lawful).imp_left fun _ hv => yields_fold_suspended transformed hv).imp_right
      fun _ hv => mapped.bind ?_
    exact (ha d').yields (transformed'.bind hv)

/-! ### Trees of lists -/

/-- A tree whose descriptors are lists, at every depth. -/
inductive OfLists : Value → Prop where
  | failed : OfLists (.tree .failed)
  | done (p : Payload) : OfLists (.tree (.done p))
  | suspended {items : List Value} (each : ∀ x ∈ items, OfLists x) :
      OfLists (.tree (.suspended (.list items)))

/-- The payloads of the finished trees in a tree of lists, from left to right. -/
inductive Leaves : Value → List Payload → Prop where
  | failed : Leaves (.tree .failed) []
  | done (p : Payload) : Leaves (.tree (.done p)) [p]
  | suspended {C : Value → List Payload → Prop} {items : List Value} {parts : List (List Payload)}
      (contents : ∀ x ps, C x ps → Leaves x ps) (each : List.Forall₂ C items parts) :
      Leaves (.tree (.suspended (.list items))) parts.flatten

theorem OfLists.exists_leaves (h : OfLists t) : ∃ ps, Leaves t ps := by
  induction h with
  | failed => exact ⟨_, .failed⟩
  | done p => exact ⟨_, .done p⟩
  | suspended _ ih =>
    obtain ⟨parts, each⟩ := List.Forall₂.exists_of_forall ih
    exact ⟨_, .suspended (fun _ _ h => h) each⟩

/-- The values of those payloads that have one. The payloads are computed in order. -/
noncomputable def resolvable (ps : List Payload) : Act (List Value) := do
  return (← ps.mapM (Payload.resolve limit)).reduceOption

/-- The function concatenates lists, and does nothing else. -/
def Concatenates (concat : Value) : Prop :=
  ∀ parts : List (List Value),
    limit concat [.list (parts.map .list)] = pure (.list parts.flatten)

/-- Concatenation as a program writes it: the branches are bound to the function that gives them back.
-/
def concatenation : Value :=
  .function (.closure ["branches"]
    (.library "target_bind" [.library "LIST" [], .var "branches", .lambda ["b"] (.var "b")]) [])

theorem concatenates_concatenation : Concatenates concatenation := by
  intro parts
  let stay : Value := .function (.closure ["b"] (.var "b")
    [("branches", .list (parts.map .list))])
  have items : ∀ xs, (limit stay [.list xs] >>= fun v => v.items) = pure xs := fun xs => by
    rw [Machine.limit_closure]
    rfl
  calc limit concatenation [.list (parts.map .list)]
      = Value.flatMapItems limit (.list (parts.map .list)) stay := by
        rw [concatenation, Machine.limit_closure]
        rfl
    _ = Value.list <$> List.flatten <$>
          (parts.map .list).mapM fun x => limit stay [x] >>= fun v => v.items := by
        simp [Value.flatMapItems, Value.items]
    _ = Value.list <$> List.flatten <$> pure (parts.map id) := by
        rw [List.mapM_map, ← List.mapM_pure]
        simp only [Function.comp_def, items, id_eq]
    _ = pure (.list parts.flatten) := by simp

theorem resolvable_nil : resolvable [] = pure [] := by
  simp [resolvable]

theorem resolvable_singleton (p : Payload) :
    resolvable [p] = p.resolve limit >>= fun v => pure v.toList := by
  unfold resolvable
  simp only [List.mapM_cons, List.mapM_nil, pure_bind, bind_assoc]
  refine bind_congr fun v => ?_
  cases v <;> rfl

theorem resolvable_append (ps qs : List Payload) :
    resolvable (ps ++ qs) = (do return (← resolvable ps) ++ (← resolvable qs)) := by
  unfold resolvable
  simp [List.mapM_append, List.reduceOption_append]

/-- What is resolvable part by part is resolvable together. -/
theorem resolvable_flatten (parts : List (List Payload)) :
    resolvable parts.flatten = (do return (← parts.mapM resolvable).flatten) := by
  induction parts with
  | nil => simp [resolvable_nil]
  | cons ps parts ih =>
    rw [List.flatten_cons, resolvable_append, ih, List.mapM_cons]
    simp

/-- Work on the members of two lists that comes to the same member by member, up to what is made of
the results. -/
theorem mapM_eq_map_mapM {α β γ δ : Type} {f : α → Act δ} {g : β → Act γ} {φ : γ → δ} {xs : List α}
    {ys : List β} (each : List.Forall₂ (fun x y => f x = φ <$> g y) xs ys) :
    xs.mapM f = List.map φ <$> ys.mapM g := by
  induction each with
  | nil => simp
  | cons head _ ih =>
    rw [List.mapM_cons, List.mapM_cons, head, ih]
    simp

theorem leafIn_list (p : Payload) :
    Tree.leafIn limit (.target .list) p = Value.list <$> resolvable [p] := by
  rw [resolvable_singleton]
  simp only [map_bind, map_pure]
  unfold Tree.leafIn
  congr 1
  funext v
  cases v <;> rfl

theorem empty_list : (Value.target .list).invoke limit .empty [] = Value.list <$> resolvable [] := by
  rw [resolvable_nil]
  rfl

/-- **To collapse a tree of lists** is to compute its payloads in order. -/
theorem Leaves.retract_eq {ps : List Payload} (h : Leaves t ps) :
    Tree.retract limit (.target .list) t = Value.list <$> resolvable ps := by
  induction h with
  | failed => exact empty_list
  | done p => exact leafIn_list p
  | @suspended C items parts contents each ih =>
    let collapse : Value := .frame (.fold (.frame .identity) (.target .list))
    have part : ∀ x ps, C x ps →
        (limit collapse [x] >>= fun v => v.items) = id <$> resolvable ps := by
      intro x ps hx
      rw [Machine.limit_frame]
      refine (congrArg (· >>= fun v => v.items) (ih x ps hx)).trans ?_
      simp [Value.items]
    calc Tree.retract limit (.target .list) (.tree (.suspended (.list items)))
        = limit (.frame .identity) [.list items] >>= fun m =>
            Value.flatMapItems limit m collapse := rfl
      _ = Value.flatMapItems limit (.list items) collapse := by
        rw [Machine.limit_frame]
        rfl
      _ = Value.list <$> (do
            return (← items.mapM fun x => limit collapse [x] >>= fun v => v.items).flatten) := by
        simp [Value.flatMapItems, Value.items]
      _ = Value.list <$> resolvable parts.flatten := by
        rw [mapM_eq_map_mapM (each.imp part), resolvable_flatten]
        simp

/-- **To iterate over a tree of lists** with a function that concatenates computes the payloads in
order. -/
theorem Leaves.iterateIn_eq {concat : Value} (concatenates : Concatenates concat) {ps : List Payload}
    (h : Leaves t ps) :
    Tree.iterateIn limit concat (.target .list) t = Value.list <$> resolvable ps := by
  induction h with
  | failed => exact empty_list
  | done p => exact leafIn_list p
  | @suspended C items parts contents each ih =>
    let go : Value := .frame (.iterateIn concat (.target .list))
    have part : ∀ x ps, C x ps → limit go [x] = Value.list <$> resolvable ps := by
      intro x ps hx
      rw [Machine.limit_frame]
      exact ih x ps hx
    calc Tree.iterateIn limit concat (.target .list) (.tree (.suspended (.list items)))
        = (items.mapM fun x => limit go [x]) >>= fun outcomes =>
            limit concat [.list outcomes] := by simp [Tree.iterateIn, fmap, go]
      _ = parts.mapM resolvable >>= fun outcomes =>
            limit concat [.list (outcomes.map .list)] := by
        rw [mapM_eq_map_mapM (each.imp part)]
        simp
      _ = parts.mapM resolvable >>= fun outcomes => pure (.list outcomes.flatten) :=
        bind_congr concatenates
      _ = Value.list <$> resolvable parts.flatten := by
        rw [resolvable_flatten]
        simp

/-! ### Agreement -/

/-- **A fold and an iteration agree**, for every target that is a monad and every natural
transformation. Descriptors can be copied (`Fillable`, which is part of `Repertoire.Carries`), since an
iteration puts its outcomes into copies. If some leaf has no value, both come to what the target gives
for nothing, so this is one of its computations then. For trees of lists, to collapse them and to
iterate with a function that concatenates are both to give the values of those payloads that have one,
from left to right. -/
theorem eliminations_agree (T : ClassTable) :
    (∀ (M : TypedTarget) (E : Repertoire T) (transform : Value), M.Lawful T →
      Natural T M E transform →
      ∀ (A : Kind) (t a e : Value), Grounded E A t → (Barren E t → Makes T (M.Of A) M.empty) →
      M.Takes e → (∀ m, EndsAs T (limit e [m]) (pure m)) →
      (∀ d, EndsAs T (limit a [d]) (limit transform [d] >>= fun m => M.bind m e)) →
      M.Agree T A (Tree.fold limit transform M.target t) (Tree.iterateIn limit a M.target t)) ∧
    ∀ concat t, Concatenates concat → OfLists t → ∃ ps, Leaves t ps ∧
      Tree.retract limit (.target .list) t = Value.list <$> resolvable ps ∧
      Tree.iterateIn limit concat (.target .list) t = Value.list <$> resolvable ps := by
  refine ⟨fun _ _ _ lawful natural _ _ _ _ ht empty taken he ha =>
    agree_fold_iterateIn lawful natural ht empty taken he ha, fun concat t concatenates ht => ?_⟩
  obtain ⟨ps, leaves⟩ := ht.exists_leaves
  exact ⟨ps, leaves, leaves.retract_eq, leaves.iterateIn_eq concatenates⟩

open Dialogue in
/-- A statement before a question, with the algebra that goes on with the computation that it finds:
into lists, at once, and into trees. And a choice with a branch that fails. -/
theorem eliminations_agree_dialogue :
    (∀ M ∈ [TypedTarget.list, .immediate, .trees (.effects table)],
      M.Lawful table ∧ Natural table M (.effects table) (M.returning Analysis.anyLocator) ∧
      Grounded (.effects table) .any (say (.str "hello") (ask echo)) ∧
      M.Agree table .any
        (Tree.fold limit (M.returning Analysis.anyLocator) M.target
          (say (.str "hello") (ask echo)))
        (Tree.iterateIn limit (M.chain (M.returning Analysis.anyLocator) (.frame .identity)) M.target
          (say (.str "hello") (ask echo)))) ∧
    ∃ ps,
      Leaves (.tree (.suspended (.list [.tree (Tree.pure (.int 1)), .tree .failed]))) ps ∧
      Tree.retract limit (.target .list)
        (.tree (.suspended (.list [.tree (Tree.pure (.int 1)), .tree .failed]))) =
          Value.list <$> resolvable ps ∧
      Tree.iterateIn limit concatenation (.target .list)
        (.tree (.suspended (.list [.tree (Tree.pure (.int 1)), .tree .failed]))) =
          Value.list <$> resolvable ps := by
  have choice : OfLists (.tree (.suspended (.list [.tree (Tree.pure (.int 1)), .tree .failed]))) :=
    .suspended fun x mem => by
      rcases List.mem_pair.mp mem with rfl | rfl
      · exact .done _
      · exact .failed
  refine ⟨fun M mem => ?_, (eliminations_agree table).2 _ _ concatenates_concatenation choice⟩
  obtain ⟨lawful, empty⟩ : M.Lawful table ∧ Makes table (M.Of .any) M.empty := by
    simp only [List.mem_cons, List.not_mem_nil, or_false] at mem
    rcases mem with rfl | rfl | rfl
    · exact ⟨TypedTarget.lawful_list, TypedTarget.absorbs_list.makes_empty .any⟩
    · exact ⟨TypedTarget.lawful_immediate, TypedTarget.makes_empty_immediate rfl⟩
    · exact ⟨TypedTarget.lawful_trees _, (TypedTarget.absorbs_trees _).makes_empty .any⟩
  have natural := natural_locator lawful
  have grounded := grounded_say (m := .str "hello") grounded_ask_echo
  refine ⟨lawful, natural, grounded, ?_⟩
  refine (eliminations_agree table).1 M _ _ lawful natural _ _ _ (.frame .identity) grounded
    (fun _ => empty) (M.takes_callable rfl) (fun m => ?_) fun d => .of_eq (M.limit_chain _ _ d)
  rw [Machine.limit_frame]
  exact .of_eq rfl

end EffectTrees
