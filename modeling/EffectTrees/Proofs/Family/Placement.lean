import EffectTrees.Proofs.Family.Reachable

/-!
# Where classes stand

A class refers to its parents only, and these were declared before it. So its place among the
classes — its linearization, and the variable that it has its parents use for the continuation — is
settled by classes with smaller numbers (`ClassTable.Placed`). Nothing that happens later changes
what those classes declared, and therefore the classes of a reachable table stand where their
declarations put them (`ClassTable.Reachable.placed`).

A class with a single parent is linearized as expected: it stands before the linearization of its
parent (`Placed.lineage_eq`).
-/

namespace EffectTrees

/-! ### A single parent -/

namespace Linearization

/-- The merge of one order with nothing is that order. -/
theorem merge_nil {order : List Nat} (distinct : order.Nodup) : merge [order, []] = some order := by
  induction order with
  | nil =>
    rw [merge]
    rfl
  | cons k rest ih =>
    obtain ⟨fresh, distinctRest⟩ := List.nodup_cons.mp distinct
    have next : nextHead [k :: rest, []] = some k := by simp [nextHead, fresh]
    have dropped : [k :: rest, []].map (dropHead k) = [rest, []] := by simp [dropHead]
    rw [merge]
    split
    · next found =>
      obtain rfl := Option.some.inj (found.symm.trans next)
      rw [dropped, ih distinctRest]
      rfl
    · next found => simp [next] at found

/-- The merge of one order with its head is that order. -/
theorem merge_head {k : Nat} {rest : List Nat} (distinct : (k :: rest).Nodup) :
    merge [k :: rest, [k]] = some (k :: rest) := by
  obtain ⟨fresh, distinctRest⟩ := List.nodup_cons.mp distinct
  have next : nextHead [k :: rest, [k]] = some k := by simp [nextHead, fresh]
  have dropped : [k :: rest, [k]].map (dropHead k) = [rest, []] := by simp [dropHead]
  rw [merge]
  split
  · next found =>
    obtain rfl := Option.some.inj (found.symm.trans next)
    rw [dropped, merge_nil distinctRest]
    rfl
  · next found => simp [next] at found

theorem mem_of_mem_dropHead {k j : Nat} {order : List Nat} (h : j ∈ dropHead k order) :
    j ∈ order := by
  cases order with
  | nil => exact h
  | cons i rest =>
    rw [dropHead] at h
    split at h
    · exact List.mem_cons_of_mem i h
    · exact h

/-- What a merge takes next is gone from all orders then. -/
theorem not_mem_dropHead {k : Nat} {orders : List (List Nat)} (next : nextHead orders = some k)
    {order : List Nat} (mem : order ∈ orders) : k ∉ dropHead k order := by
  obtain ⟨first, -, found⟩ := List.exists_of_findSome?_eq_some next
  -- It is in no tail, so it can only be a head, and heads of that number are dropped.
  have inNoTail : ∀ o ∈ orders, k ∉ o.tail := by
    cases first with
    | nil => cases found
    | cons j rest =>
      simp only at found
      split at found
      · next free =>
        obtain rfl := Option.some.inj found
        simpa using free
      · cases found
  have absent := inNoTail order mem
  cases order with
  | nil => exact absent
  | cons j rest =>
    rw [dropHead]
    split
    · exact absent
    · next other =>
      intro among
      rcases List.mem_cons.mp among with rfl | among
      · exact other rfl
      · exact absent among

/-- A merge has what the orders have, each once. -/
theorem of_merge {orders : List (List Nat)} {merged : List Nat} (h : merge orders = some merged) :
    merged.Nodup ∧ ∀ j ∈ merged, ∃ order ∈ orders, j ∈ order := by
  rw [merge] at h
  split at h
  · next k next =>
    obtain ⟨rest, found, rfl⟩ := Option.map_eq_some_iff.mp h
    have shorter : totalLength (orders.map (dropHead k)) < totalLength orders := by
      obtain ⟨tail, among⟩ := exists_mem_of_nextHead next
      exact totalLength_dropHead_lt among
    obtain ⟨distinct, origin⟩ := of_merge found
    refine ⟨List.nodup_cons.mpr ⟨fun again => ?_, distinct⟩, fun j mem => ?_⟩
    · obtain ⟨order, dropped, mem⟩ := origin k again
      obtain ⟨order, among, rfl⟩ := List.mem_map.mp dropped
      exact not_mem_dropHead next among mem
    · rcases List.mem_cons.mp mem with rfl | mem
      · obtain ⟨tail, among⟩ := exists_mem_of_nextHead next
        exact ⟨_, among, List.mem_cons_self⟩
      · obtain ⟨order, dropped, mem⟩ := origin j mem
        obtain ⟨order, among, rfl⟩ := List.mem_map.mp dropped
        exact ⟨order, among, mem_of_mem_dropHead mem⟩
  · split at h
    · obtain rfl := Option.some.inj h
      exact ⟨List.nodup_nil, fun j mem => by cases mem⟩
    · cases h
termination_by totalLength orders

end Linearization

namespace ClassTable

variable {t t' : ClassTable} {k : Nat} {c c' : ClassInfo}

/-! ### Tables with the same declarations -/

/-- Up to the given number, the same classes were declared in both tables. -/
def SameBelow (k : Nat) (t t' : ClassTable) : Prop :=
  ∀ i < k, (t.info? i).map ClassInfo.core = (t'.info? i).map ClassInfo.core

theorem Evolves.sameBelow (h : t.Evolves t') (k : Nat) : SameBelow k t t' := by
  intro i _
  rcases (h i).both with ⟨before, after⟩ | ⟨c, c', before, after, change⟩
  · rw [before, after]
  · rw [before, after]
    exact congrArg some change.core.symm

theorem sameBelow_add (t : ClassTable) (c : ClassInfo) :
    SameBelow t.classes.length t (t.add c) := by
  intro i known
  rw [info?_add t c known]

theorem SameBelow.mono (h : SameBelow k t t') {j : Nat} (le : j ≤ k) : SameBelow j t t' :=
  fun i lt => h i (Nat.lt_of_lt_of_le lt le)

/-- What is read off the declaration of an earlier class is the same. -/
theorem SameBelow.map_eq {α : Type} (h : SameBelow k t t') {i : Nat} (lt : i < k)
    (f : ClassInfo → α) (ofCore : ∀ c : ClassInfo, f c.core = f c) :
    (t.info? i).map f = (t'.info? i).map f := by
  -- On either side the function does not notice that it is given the core only.
  have through : f ∘ ClassInfo.core = f := funext ofCore
  rw [← through, ← Option.map_map, ← Option.map_map, h i lt]

theorem SameBelow.lineage_eq (h : SameBelow k t t') {i : Nat} (lt : i < k) :
    t.lineage i = t'.lineage i := by
  unfold lineage
  rw [h.map_eq lt ClassInfo.lineage fun _ => rfl]

theorem SameBelow.search_eq (h : SameBelow k t t') {i : Nat} (lt : i < k) :
    t.search i = t'.search i := by
  unfold search
  rw [h.map_eq lt ClassInfo.search fun _ => rfl]

theorem SameBelow.searchApplied_eq (h : SameBelow k t t') {p : Parent} (lt : p.id < k) :
    t.searchApplied p = t'.searchApplied p := by
  unfold searchApplied searchIn
  rw [h.search_eq lt, h.map_eq lt ClassInfo.parameters fun _ => rfl]

theorem SameBelow.searchVia_eq (h : SameBelow k t t') {parents : List Parent}
    (earlier : ∀ p ∈ parents, p.id < k) : t.searchVia parents = t'.searchVia parents := by
  have applied : parents.map t.searchApplied = parents.map t'.searchApplied :=
    List.map_congr_left fun p mem => h.searchApplied_eq (earlier p mem)
  have plain : parents.map t.searchPlain = parents.map t'.searchPlain :=
    List.map_congr_left fun p mem => h.search_eq (earlier p mem)
  unfold searchVia
  rw [applied, plain]

/-! ### The place of a class -/

/-- **The class stands where its declaration puts it.** Its parents were declared before it, and
they settle its linearization and its continuation variable. -/
structure Placed (t : ClassTable) (k : Nat) (c : ClassInfo) : Prop where
  earlier : ∀ p ∈ c.parents, p.id < k
  linear : Linearization.ofParents k (c.parents.map Parent.id)
    ((c.parents.map Parent.id).map t.lineage) = some c.lineage
  search : c.search = t.searchVia c.parents

/-- Its place is a matter of what was declared before it, and of its own declaration. -/
theorem Placed.congr (h : t.Placed k c) (below : SameBelow k t t') (core : c'.core = c.core) :
    t'.Placed k c' := by
  have parents : c'.parents = c.parents :=
    ClassInfo.eq_of_core ClassInfo.parents (fun _ => rfl) core
  have lineage : c'.lineage = c.lineage :=
    ClassInfo.eq_of_core ClassInfo.lineage (fun _ => rfl) core
  have search : c'.search = c.search := ClassInfo.eq_of_core ClassInfo.search (fun _ => rfl) core
  refine ⟨?_, ?_, ?_⟩
  · rw [parents]
    exact h.earlier
  · have lineages : (c.parents.map Parent.id).map t'.lineage =
        (c.parents.map Parent.id).map t.lineage := by
      refine List.map_congr_left fun i mem => ?_
      obtain ⟨p, among, rfl⟩ := List.mem_map.mp mem
      exact (below.lineage_eq (h.earlier p among)).symm
    rw [parents, lineage, lineages]
    exact h.linear
  · rw [parents, search, h.search]
    exact below.searchVia_eq h.earlier

/-- A class with a single parent stands before the linearization of its parent. -/
theorem Placed.lineage_eq (h : t.Placed k c) {p : Parent} (parents : c.parents = [p])
    {rest : List Nat} (above : t.lineage p.id = p.id :: rest) (distinct : (p.id :: rest).Nodup) :
    c.lineage = k :: p.id :: rest := by
  -- The head of the linearization of the parent is the parent, so the merge takes it at once.
  have linear := h.linear
  simpa [parents, Linearization.ofParents, above, Linearization.merge_head distinct]
    using linear.symm

/-- A parent is a class that has been declared. -/
theorem lt_of_parentOf {scope : Scope} {e : ParentExpr} {p : Parent}
    (h : t.parentOf scope e = .ok p) : p.id < t.classes.length := by
  unfold parentOf at h
  split at h
  · cases h
  · next ref named =>
    have known : ref.id < t.classes.length := by
      obtain ⟨i, found, rfl⟩ := Option.map_eq_some_iff.mp named
      simpa [ClassTable.ref] using List.mem_of_find?_eq_some found
    split at h
    · cases h
      exact known
    · next args _ =>
      obtain ⟨types, -, h⟩ := exists_of_bind_eq_ok h
      obtain ⟨head, -, h⟩ := exists_of_bind_eq_ok h
      split at h
      · cases h
        exact known
      · cases h

/-- A class that is about to be added stands where its declaration puts it. -/
theorem placed_of_classOf {d : ClassDecl} (h : t.classOf d = .ok c) :
    t.Placed t.classes.length c := by
  obtain ⟨⟨scope, parentsOf⟩, linear, search, -⟩ := of_classOf h
  refine ⟨fun p mem => ?_, linear, search⟩
  obtain ⟨e, -, of⟩ := (mapM_eq_ok_iff.mp parentsOf).exists_left mem
  exact lt_of_parentOf of

/-! ### Reachable tables -/

/-- Number zero is the root, whatever has become of it. -/
theorem Reachable.root (h : t.Reachable) :
    (t.info? 0).map ClassInfo.core = some ClassTable.root.core := by
  refine h.invariant (P := fun t => (t.info? 0).map ClassInfo.core = some ClassTable.root.core)
    ?_ ?_ ?_
  · intro shared
    rfl
  · intro t d c _ ih
    obtain ⟨c₀, known, -⟩ := Option.map_eq_some_iff.mp ih
    rw [info?_add t c (lt_of_info? known)]
    exact ih
  · intro t t' change ih
    rw [← change.sameBelow 1 0 Nat.one_pos]
    exact ih

theorem Reachable.pos (h : t.Reachable) : 0 < t.classes.length := by
  obtain ⟨c, known, -⟩ := Option.map_eq_some_iff.mp h.root
  exact lt_of_info? known

/-- What is read off the declaration of number zero is that of the root. -/
theorem Reachable.map_root {α : Type} (h : t.Reachable) (f : ClassInfo → α)
    (ofCore : ∀ c : ClassInfo, f c.core = f c) : (t.info? 0).map f = some (f ClassTable.root) := by
  obtain ⟨c, known, core⟩ := Option.map_eq_some_iff.mp h.root
  rw [known, Option.map_some, ClassInfo.eq_of_core f ofCore core]

theorem Reachable.lineage_root (h : t.Reachable) : t.lineage 0 = [0] := by
  rw [lineage, h.map_root ClassInfo.lineage fun _ => rfl]
  rfl

/-- **All other classes of a reachable table stand where their declarations put them.** -/
theorem Reachable.placed (h : t.Reachable) :
    ∀ k c, t.info? k = some c → k ≠ 0 → t.Placed k c := by
  refine h.invariant (P := fun t => ∀ k c, t.info? k = some c → k ≠ 0 → t.Placed k c) ?_ ?_ ?_
  · -- There is no class but the root yet.
    intro shared k c known proper
    obtain ⟨rfl, -⟩ : k = 0 ∧ c = ClassTable.root := by
      simpa [info?, ClassTable.initial, List.getElem?_singleton, eq_comm] using known
    exact absurd rfl proper
  · intro t d added declared ih k c known proper
    -- The new class refers to classes that were there before, and these are left alone.
    have below := t.sameBelow_add added
    rcases info?_add_cases known with before | ⟨rfl, rfl⟩
    · exact (ih k c before proper).congr (below.mono (Nat.le_of_lt (lt_of_info? before))) rfl
    · exact (placed_of_classOf declared).congr below rfl
  · intro t t' change ih k c known proper
    obtain ⟨c₀, before, evolved⟩ := change.exists_before known
    exact (ih k c₀ before proper).congr (change.sameBelow k) evolved.core

/-- The linearization of a class is that of its parents, merged with them, behind the class. -/
theorem Reachable.exists_merged (h : t.Reachable) (known : t.info? k = some c) (proper : k ≠ 0) :
    ∃ merged, t.lineage k = k :: merged ∧ merged.Nodup ∧
      ∀ j ∈ merged, ∃ p < k, j ∈ t.lineage p ∨ j = p := by
  have placed := h.placed k c known proper
  have linear := placed.linear
  unfold Linearization.ofParents at linear
  split at linear
  · obtain ⟨merged, merges, lineage⟩ := Option.map_eq_some_iff.mp linear
    obtain ⟨distinct, mem⟩ := Linearization.of_merge merges
    refine ⟨merged, by simp [ClassTable.lineage, known, ← lineage], distinct, fun j among => ?_⟩
    obtain ⟨order, listed, among⟩ := mem j among
    rcases List.mem_append.mp listed with listed | listed
    · obtain ⟨p, parent, rfl⟩ := List.mem_map.mp listed
      obtain ⟨q, mem, rfl⟩ := List.mem_map.mp parent
      exact ⟨q.id, placed.earlier q mem, .inl among⟩
    · rw [List.mem_singleton.mp listed] at among
      obtain ⟨q, mem, rfl⟩ := List.mem_map.mp among
      exact ⟨q.id, placed.earlier q mem, .inr rfl⟩
  · cases linear

/-- The ancestors of a class were declared before it. -/
theorem Reachable.le_of_mem_lineage (h : t.Reachable) (k : Nat) : ∀ j ∈ t.lineage k, j ≤ k := by
  induction k using Nat.strongRecOn with
  | _ k ih =>
    intro j mem
    cases known : t.info? k with
    | none => simp [lineage, known] at mem
    | some c =>
      by_cases root : k = 0
      · rw [root, h.lineage_root, List.mem_singleton] at mem
        omega
      · obtain ⟨merged, lineage, -, below⟩ := h.exists_merged known root
        rw [lineage] at mem
        rcases List.mem_cons.mp mem with rfl | mem
        · exact Nat.le_refl j
        · obtain ⟨p, lt, among | rfl⟩ := below j mem
          · exact Nat.le_of_lt (Nat.lt_of_le_of_lt (ih p lt j among) lt)
          · exact Nat.le_of_lt lt

/-- No ancestor is listed twice. -/
theorem Reachable.nodup_lineage (h : t.Reachable) (k : Nat) : (t.lineage k).Nodup := by
  cases known : t.info? k with
  | none => simp [lineage, known]
  | some c =>
    by_cases root : k = 0
    · rw [root, h.lineage_root]
      exact List.nodup_singleton 0
    · obtain ⟨merged, lineage, distinct, below⟩ := h.exists_merged known root
      rw [lineage, List.nodup_cons]
      refine ⟨fun again => ?_, distinct⟩
      obtain ⟨p, lt, among | rfl⟩ := below k again
      · exact absurd (h.le_of_mem_lineage p k among) (Nat.not_le.mpr lt)
      · exact Nat.lt_irrefl k lt

end ClassTable

end EffectTrees
