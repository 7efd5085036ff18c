import EffectTrees.Proofs.Elimination.Agreement

/-!
# Collapsing what was lifted

A list is a descriptor with a slot for each item, and a computation of the target of lists as well.
So a tree of lists can be collapsed into a list, and it makes no difference where the tree came from:
an item of a list comes back as it was, whether the list was lifted at once or as a plain tree that
was embedded then (`retract_inverts`).

The values pass through functions that look at what they are given: a finished tree is made of a
value or of a payload, and a payload is forced when the tree is collapsed. Nevertheless a value comes
back untouched even if it is a payload, a tree or a function, and nothing is run on the way. All of
this is said by equations with `pure`. The one value that does not come back is the unknown argument
(`ListTree.retract_embed`).
-/

namespace EffectTrees

open Machine (limit)

/-- A function that runs nothing, on the items of a list. -/
theorem fmap_list {f : Value} {items items' : List Value}
    (each : List.Forall₂ (fun v u => limit f [v] = pure u) items items') :
    fmap limit (.list items) f = pure (.list items') := by
  have mapped : (items.mapM fun v => limit f [v]) = pure items' := by
    rw [mapM_eq_map_mapM (φ := id) (g := pure) each, List.mapM_pure]
    simp
  unfold fmap
  dsimp only
  rw [mapped, pure_bind]

/-! ### Plain trees of lists -/

/-- A plain tree whose descriptors are lists, at every depth. -/
inductive ListTree where
  | leaf (v : Value)
  | branch (branches : List ListTree)

namespace ListTree

/-- The plain tree as a value. -/
def toValue : ListTree → Value
  | leaf v => .plain (.pure v)
  | branch ts => .plain (.free (.list (ts.map toValue)))

/-- What the leaves hold, from left to right. -/
def leaves : ListTree → List Value
  | leaf v => [v]
  | branch ts => ts.flatMap leaves

/-- What `lift` makes of a list: each item is a leaf. -/
def ofItems (items : List Value) : ListTree := branch (items.map leaf)

theorem leaves_ofItems (items : List Value) : (ofItems items).leaves = items := by
  simp [ofItems, leaves, List.flatMap_map]

theorem toValue_ofItems (items : List Value) :
    (ofItems items).toValue =
      .plain (.free (.list (items.map fun v => .plain (.pure v)))) := by
  simp [ofItems, toValue]

/-- **To embed** a plain tree of lists runs nothing. What a leaf holds becomes the content of a
payload, as it is. -/
theorem exists_embed_eq (t : ListTree) :
    ∃ u, PlainTree.embed limit t.toValue = pure u ∧ Leaves u (t.leaves.map .resolved) := by
  -- The recursion of the embedding is that of the tree of lists, one call for each branch.
  induction t using toValue.induct with
  | case1 v =>
    rw [toValue, leaves]
    exact ⟨.tree (Tree.pure v), rfl, .done _⟩
  | case2 ts ih =>
    obtain ⟨items, each⟩ := List.Forall₂.exists_of_forall ih
    have embedded : List.Forall₂ (fun v u => limit (.frame .embed) [v] = pure u)
        (ts.map toValue) items :=
      List.forall₂_map_left_iff.mpr <| each.imp fun t u hu => by
        rw [Machine.limit_frame]
        exact hu.1
    have parts : List.Forall₂ Leaves items (ts.map fun t => t.leaves.map .resolved) :=
      List.forall₂_map_right_iff.mpr (each.imp fun _ _ hu => hu.2).flip
    refine ⟨.tree (.suspended (.list items)), ?_, ?_⟩
    · rw [toValue]
      unfold PlainTree.embed
      dsimp only
      rw [fmap_list embedded, pure_bind]
    · have := Leaves.suspended (fun _ _ h => h) parts
      rwa [leaves, List.map_flatMap, List.flatMap_def]

end ListTree

/-! ### Collapsing -/

/-- A payload that has been computed is not computed again; there is no content if it is the unknown
argument. -/
theorem resolvable_resolved (vs : List Value) :
    resolvable (vs.map .resolved) = pure (vs.filter fun v => !v.isPoison) := by
  induction vs with
  | nil => exact resolvable_nil
  | cons v vs ih =>
    have head : resolvable [.resolved v] = pure (if v.isPoison then [] else [v]) := by
      rw [resolvable_singleton]
      cases v <;> rfl
    calc resolvable ((v :: vs).map .resolved)
        = resolvable ([.resolved v] ++ vs.map .resolved) := rfl
      _ = pure ((if v.isPoison then [] else [v]) ++ vs.filter fun v => !v.isPoison) := by
        rw [resolvable_append, head, ih]
        simp
      _ = pure ((v :: vs).filter fun v => !v.isPoison) := by
        cases hv : v.isPoison <;> simp [hv]

/-- **To collapse** an embedded tree of lists gives what its leaves hold, and leaves the unknown
argument out. -/
theorem ListTree.retract_embed (t : ListTree) :
    (PlainTree.embed limit t.toValue >>= Tree.retract limit (.target .list)) =
      pure (.list (t.leaves.filter fun v => !v.isPoison)) := by
  obtain ⟨u, embedded, leaves⟩ := t.exists_embed_eq
  rw [embedded, pure_bind, leaves.retract_eq, resolvable_resolved, map_pure]

theorem filter_known {vs : List Value} (known : .poison ∉ vs) :
    (vs.filter fun v => !v.isPoison) = vs := by
  refine List.filter_eq_self.mpr fun v mem => ?_
  have : v ≠ .poison := fun h => known (h ▸ mem)
  rw [Value.isPoison_of_ne this, Bool.not_false]

/-- A list that is lifted into a plain tree has its items at the leaves. -/
theorem plain_lift_list (e : List Value) :
    PlainTree.lift limit (.list e) = pure (ListTree.ofItems e).toValue := by
  have each : List.Forall₂ (fun v u => limit (.frame .plainPure) [v] = pure u) e
      (e.map fun v => .plain (.pure v)) :=
    List.forall₂_map_right_iff.mpr (List.forall₂_same.mpr fun v _ => Machine.limit_frame _ _)
  unfold PlainTree.lift
  rw [fmap_list each, pure_bind, ListTree.toValue_ofItems]

/-- A list that is lifted has its items at the leaves. -/
theorem exists_lift_list_eq (e : List Value) :
    ∃ u, Tree.lift limit (.list e) = pure u ∧ Leaves u (e.map .resolved) := by
  have each : List.Forall₂ (fun v u => limit (.frame .pure) [v] = pure u) e
      (e.map fun v => .tree (Tree.pure v)) :=
    List.forall₂_map_right_iff.mpr (List.forall₂_same.mpr fun v _ => Machine.limit_frame _ _)
  have leaves : List.Forall₂ Leaves (e.map fun v => .tree (Tree.pure v))
      (e.map fun v => [.resolved v]) :=
    List.forall₂_map_left_iff.mpr <| List.forall₂_map_right_iff.mpr <|
      List.forall₂_same.mpr fun v _ => .done _
  refine ⟨.tree (.suspended (.list (e.map fun v => .tree (Tree.pure v)))), ?_, ?_⟩
  · unfold Tree.lift
    rw [fmap_list each, pure_bind]
  · have := Leaves.suspended (fun _ _ h => h) leaves
    rwa [← List.flatMap_def, ← List.map_eq_flatMap] at this

/-- **To collapse is a left inverse** of lifting a list, and of embedding a plain tree of lists, as
far as the values are known: the list is the one that was lifted, and the leaves are what the plain
tree held, from left to right. -/
theorem retract_inverts :
    (∀ t : ListTree, .poison ∉ t.leaves →
      (PlainTree.embed limit t.toValue >>= Tree.retract limit (.target .list)) =
        pure (.list t.leaves)) ∧
    ∀ e : List Value, .poison ∉ e →
      (PlainTree.lift limit (.list e) >>= PlainTree.embed limit >>=
        Tree.retract limit (.target .list)) = pure (.list e) ∧
      (Tree.lift limit (.list e) >>= Tree.retract limit (.target .list)) = pure (.list e) := by
  refine ⟨fun t known => ?_, fun e known => ⟨?_, ?_⟩⟩
  · rw [t.retract_embed, filter_known known]
  -- To lift a list into a plain tree first is a case of the law for plain trees.
  · rw [plain_lift_list, pure_bind, ListTree.retract_embed, ListTree.leaves_ofItems,
      filter_known known]
  · obtain ⟨u, lifted, leaves⟩ := exists_lift_list_eq e
    rw [lifted, pure_bind, leaves.retract_eq, resolvable_resolved, map_pure, filter_known known]

/-- Values that look like what the operations work on: a payload that would abort, a tree with no
result, and a function. -/
theorem retract_inverts_lookalikes :
    (PlainTree.embed limit (ListTree.branch [.branch [.leaf (.payload (.deferred
        (.function .betray))), .leaf (.tree .failed)], .leaf .null]).toValue >>=
      Tree.retract limit (.target .list)) =
        pure (.list [.payload (.deferred (.function .betray)), .tree .failed, .null]) ∧
    (PlainTree.lift limit (.list [.function .betray, .tree .failed]) >>= PlainTree.embed limit >>=
      Tree.retract limit (.target .list)) = pure (.list [.function .betray, .tree .failed]) ∧
    (Tree.lift limit (.list [.function .betray, .tree .failed]) >>=
      Tree.retract limit (.target .list)) = pure (.list [.function .betray, .tree .failed]) := by
  refine ⟨?_, retract_inverts.2 _ (by simp)⟩
  have := retract_inverts.1 (.branch [.branch [.leaf (.payload (.deferred (.function .betray))),
    .leaf (.tree .failed)], .leaf .null]) (by simp [ListTree.leaves, Value.null])
  rw [this]
  simp [ListTree.leaves]

end EffectTrees
