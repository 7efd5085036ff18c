import EffectTrees.Proofs.Annotation.Substitution
import EffectTrees.Proofs.Family.Placement

/-!
# Chains of generic parents

A class with a single parent, which has a single parent in turn, and so on up to the root, stands at
the lower end of a *chain* (`ClassTable.Chain`). Each class of the chain passes variables of its own
for the type parameters of its parent, in any order and under any names, or it names its parent
alone, and then the parameters of the parent stay what they are (`Passes`).

So every class of the chain has its variables renamed on the way down (`Link`), and so has the root,
whose variable stands for the continuation. Derivation looks for the continuation variable along the
chain, one class at a time; what it finds is what the renamed root has for its variable
(`ClassTable.Chain.search`).
-/

namespace EffectTrees

/-! ### Renaming the parameters of a parent -/

/-- What a class that passes the variables `ws` calls the parameters of its parent. Other variables
keep their names. -/
def renamed (parameters ws : List TypeVar) (v : TypeVar) : TypeVar :=
  ((parameters.idxOf? v).bind fun i => ws[i]?).getD v

/-- **What a class passes to its parent**, and how the variables of the parent are renamed by it. -/
inductive Passes (parameters : List TypeVar) :
    Option (List Annotation) → (TypeVar → TypeVar) → Prop where
  | nothing : Passes parameters none id
  | given {ws : List TypeVar}
      (kinds : ws.map TypeVar.kind = parameters.map TypeVar.kind) :
      Passes parameters (some (ws.map .var)) (renamed parameters ws)

variable {parameters ws : List TypeVar} {v : TypeVar} {args : Option (List Annotation)}
  {σ : TypeVar → TypeVar}

theorem renamed_of_idxOf? {i : Nat} (position : parameters.idxOf? v = some i) {w : TypeVar}
    (passed : ws[i]? = some w) : renamed parameters ws v = w := by
  simp [renamed, position, passed]

theorem renamed_of_not_mem (absent : parameters.idxOf? v = none) : renamed parameters ws v = v := by
  simp [renamed, absent]

/-- Something is passed for each parameter. -/
theorem exists_passed (kinds : ws.map TypeVar.kind = parameters.map TypeVar.kind) {i : Nat}
    (position : parameters.idxOf? v = some i) : ∃ w, ws[i]? = some w ∧ w.kind = v.kind := by
  have there : parameters[i]? = some v := by
    obtain ⟨lt, found, -⟩ := List.findIdx?_eq_some_iff_getElem.mp position
    rw [List.getElem?_eq_getElem lt]
    simpa using found
  have kind : (ws.map TypeVar.kind)[i]? = some v.kind := by
    rw [kinds, List.getElem?_map, there]
    rfl
  rw [List.getElem?_map] at kind
  exact Option.map_eq_some_iff.mp kind

/-- Parameter specifications are passed for parameter specifications, and packs for packs. -/
theorem Passes.kind (h : Passes parameters args σ) (v : TypeVar) : (σ v).kind = v.kind := by
  cases h with
  | nothing => rfl
  | @given ws kinds =>
    cases position : parameters.idxOf? v with
    | none => rw [renamed_of_not_mem position]
    | some i =>
      obtain ⟨w, passed, kind⟩ := exists_passed kinds position
      rw [renamed_of_idxOf? position passed, kind]

/-- The parent, with the variables in its arguments renamed. -/
def Parent.rename (σ : TypeVar → TypeVar) (p : Parent) : Parent :=
  ⟨p.id, p.args.map fun as => Annotation.renameAll σ as⟩

/-- The variable that the root is given, if the parent is the root. -/
def Parent.passed? (p : Parent) : Option TypeVar :=
  p.args.bind fun as => as[0]?.bind Annotation.asVariable?

theorem Parent.kind_of_passed? {p : Parent} (h : p.passed? = some v) : v.kind = .single := by
  obtain ⟨as, -, h⟩ := Option.bind_eq_some_iff.mp h
  obtain ⟨a, -, h⟩ := Option.bind_eq_some_iff.mp h
  have single := Annotation.asVariable?_eq_some_iff.mp h
  exact single.2

theorem Parent.passed?_rename (kinds : ∀ v, (σ v).kind = v.kind) (p : Parent) :
    (p.rename σ).passed? = p.passed?.map σ := by
  obtain ⟨id, _ | as⟩ := p
  · rfl
  · cases as with
    | nil => rfl
    | cons a as => exact Annotation.asVariable?_rename kinds a

/-- A class on a chain, and what its variables are called at the lower end. -/
structure Link where
  id : Nat
  rename : TypeVar → TypeVar

/-- The same class, as seen from one class further down. -/
def Link.below (σ : TypeVar → TypeVar) (l : Link) : Link := ⟨l.id, σ ∘ l.rename⟩

namespace ClassTable

/-- **Chains of generic parents**: the classes from the given one up to the root, nearest first, and
the root as it is applied at the upper end, in terms of the variables of the lower end. -/
inductive Chain (t : ClassTable) : Nat → List Link → Parent → Prop where
  | direct {k : Nat} {c : ClassInfo} {args : Option (List Annotation)} {σ : TypeVar → TypeVar}
      (known : t.info? k = some c) (parents : c.parents = [⟨0, args⟩])
      (passes : Passes [rootVariable] args σ) :
      Chain t k [⟨k, id⟩, ⟨0, σ⟩] ⟨0, args⟩
  | through {k p : Nat} {c c' : ClassInfo} {args : Option (List Annotation)}
      {σ : TypeVar → TypeVar} {links : List Link} {top : Parent}
      (known : t.info? k = some c) (parents : c.parents = [⟨p, args⟩])
      (above : t.info? p = some c') (passes : Passes c'.parameters args σ)
      (chain : Chain t p links top) :
      Chain t k (⟨k, id⟩ :: links.map (Link.below σ)) (top.rename σ)

variable {t : ClassTable} {k p : Nat} {c c' : ClassInfo} {links : List Link} {top : Parent}

/-! ### The classes of a chain -/

/-- The root has no parents. -/
theorem Reachable.ne_root (h : t.Reachable) (known : t.info? k = some c) {q : Parent}
    (parents : c.parents = [q]) : k ≠ 0 := by
  rintro rfl
  have core : c.core = ClassTable.root.core := by simpa [known] using h.root
  have none := ClassInfo.eq_of_core ClassInfo.parents (fun _ => rfl) core
  rw [parents] at none
  cases none

theorem lineage_eq (known : t.info? k = some c) : t.lineage k = c.lineage := by
  rw [lineage, known]
  rfl

theorem map_id_below (links : List Link) (σ : TypeVar → TypeVar) :
    (links.map (Link.below σ)).map Link.id = links.map Link.id := by
  rw [List.map_map]
  rfl

/-- A chain goes down in the order of declaration. -/
theorem Chain.descending (reachable : t.Reachable) (chain : t.Chain k links top) :
    (links.map Link.id).Pairwise (· > ·) ∧ ∀ l ∈ links, l.id ≤ k := by
  induction chain with
  | @direct k c args σ known parents _ =>
    have proper := reachable.ne_root known parents
    simp
    omega
  | @through k p c c' args σ links top known parents _ _ _ ih =>
    obtain ⟨ordered, le⟩ := ih
    -- The parent was declared before, and its chain goes down from there.
    have lt : p < k := by
      have placed := reachable.placed k c known (reachable.ne_root known parents)
      exact placed.earlier ⟨p, args⟩ (by simp [parents])
    have below : ∀ l ∈ links, l.id < k := fun l mem => Nat.lt_of_le_of_lt (le l mem) lt
    constructor
    · rw [List.map_cons, map_id_below, List.pairwise_cons]
      refine ⟨fun i mem => ?_, ordered⟩
      obtain ⟨l, among, rfl⟩ := List.mem_map.mp mem
      exact below l among
    · intro l mem
      rcases List.mem_cons.mp mem with rfl | mem
      · exact Nat.le_refl k
      · obtain ⟨l, among, rfl⟩ := List.mem_map.mp mem
        exact Nat.le_of_lt (below l among)

/-- The lower end comes first. -/
theorem Chain.exists_cons (chain : t.Chain k links top) :
    ∃ above, links.map Link.id = k :: above := by
  cases chain with
  | direct => exact ⟨_, rfl⟩
  | through => exact ⟨_, rfl⟩

/-- **The classes of a chain are the ancestors of its lower end**, in the order in which anything is
inherited. -/
theorem Chain.lineage (reachable : t.Reachable) (chain : t.Chain k links top) :
    t.lineage k = links.map Link.id := by
  induction chain with
  | @direct k c args σ known parents _ =>
    have placed := reachable.placed k c known (reachable.ne_root known parents)
    rw [lineage_eq known, placed.lineage_eq parents reachable.lineage_root (List.nodup_singleton 0)]
    rfl
  | @through k p c c' args σ links top known parents _ _ chain ih =>
    have placed := reachable.placed k c known (reachable.ne_root known parents)
    obtain ⟨above, first⟩ := chain.exists_cons
    -- The linearization of the parent is its chain, so it starts with the parent and repeats nothing.
    have distinct : (p :: above).Nodup := by
      rw [← first]
      exact (chain.descending reachable).1.imp fun gt => Nat.ne_of_gt gt
    rw [first] at ih
    rw [lineage_eq known, placed.lineage_eq parents ih distinct, List.map_cons, map_id_below, first]

/-- The root is on every chain. -/
theorem Chain.root_mem (chain : t.Chain k links top) : 0 ∈ links.map Link.id := by
  induction chain with
  | direct => simp
  | through _ _ _ _ _ ih =>
    rw [List.map_cons, map_id_below]
    exact List.mem_cons_of_mem _ ih

/-! ### The continuation variable -/

theorem Chain.id_top (chain : t.Chain k links top) : top.id = 0 := by
  induction chain with
  | direct => rfl
  | through _ _ _ _ _ ih => exact ih

/-- At the upper end the root is given a variable if it is given anything. -/
theorem Chain.args_top (chain : t.Chain k links top) : top.args ≠ some [] := by
  induction chain with
  | @direct k c args σ known parents passes =>
    cases passes with
    | nothing => exact nofun
    | @given ws kinds =>
      cases ws with
      | nil => cases kinds
      | cons w ws => exact nofun
  | @through k p c c' args σ links top _ _ _ _ _ ih =>
    obtain ⟨id, _ | _ | ⟨a, as⟩⟩ := top
    · exact nofun
    · exact absurd rfl ih
    · exact nofun

/-- What is found for a class with a single parent is found through that parent. -/
theorem Reachable.search_eq (h : t.Reachable) (known : t.info? k = some c) {q : Parent}
    (parents : c.parents = [q]) : t.search k = t.searchVia [q] := by
  have placed := h.placed k c known (h.ne_root known parents)
  rw [search, known, Option.map_some, Option.getD_some, placed.search, parents]

theorem searchVia_singleton (t : ClassTable) (q : Parent) :
    t.searchVia [q] = (t.searchApplied q).orElse (t.searchPlain q) := by
  simp [searchVia]

/-- A class that names its parent alone passes the continuation variable of its parent on. -/
theorem Reachable.search_of_unapplied (h : t.Reachable) (known : t.info? k = some c)
    (parents : c.parents = [⟨p, none⟩]) : t.search k = t.search p := by
  have applied : t.searchApplied ⟨p, none⟩ = .absent := rfl
  rw [h.search_eq known parents, searchVia_singleton, applied, Search.absent_orElse, searchPlain]

/-- A class whose parent is the root has for its continuation variable what it passes to it. -/
theorem Reachable.searchVia_root (h : t.Reachable) {q : Parent} (isRoot : q.id = 0)
    (given : q.args ≠ some []) : t.searchVia [q] = .ofOption q.passed? := by
  have plain : t.searchPlain q = .absent := by
    rw [searchPlain, isRoot, search, h.map_root ClassInfo.search fun _ => rfl]
    rfl
  have inherited : t.searchIn q.id = .found rootVariable := by
    rw [searchIn, if_pos (show q.id = ClassRef.effect.id from isRoot)]
  have parameters : ((t.info? q.id).map ClassInfo.parameters).getD [] = [rootVariable] := by
    rw [isRoot, h.map_root ClassInfo.parameters fun _ => rfl]
    rfl
  have position : [rootVariable].idxOf? rootVariable = some 0 := by decide
  rw [searchVia_singleton, plain, Search.orElse_absent]
  obtain ⟨id, _ | _ | ⟨a, as⟩⟩ := q
  · rfl
  · exact absurd rfl given
  · simp [searchApplied, searchArgs, inherited, parameters, position, Parent.passed?]

/-- **The continuation variable is followed through a parent**: it is that of the parent, under the
name that it is passed on by. -/
theorem searchVia_of_passes (passes : Passes c'.parameters args σ) (above : t.info? p = some c')
    (proper : p ≠ 0) {o : Option TypeVar} (found : t.search p = .ofOption o)
    (kind : ∀ v, o = some v → v.kind = .single) :
    t.searchVia [⟨p, args⟩] = .ofOption (o.map σ) := by
  have inherited : t.searchIn p = .ofOption o := by
    rw [searchIn, if_neg (show p ≠ ClassRef.effect.id from proper), found]
  rw [searchVia_singleton, searchPlain, found]
  cases passes with
  | nothing => simp [searchApplied]
  | @given ws kinds =>
    cases o with
    | none =>
      have applied : t.searchApplied ⟨p, some (ws.map .var)⟩ = .absent := by
        simp [searchApplied, inherited, Search.ofOption]
      rw [applied]
      rfl
    | some v =>
      have applied : t.searchApplied ⟨p, some (ws.map .var)⟩ =
          searchArgs c'.parameters (ws.map .var) v := by
        simp [searchApplied, inherited, above, Search.ofOption]
      rw [applied, searchArgs]
      cases position : c'.parameters.idxOf? v with
      | none =>
        -- The variable belongs to a class further up, whose parameters stay what they are.
        simp [renamed_of_not_mem position]
      | some i =>
        obtain ⟨w, passed, same⟩ := exists_passed kinds position
        have single : w.kind = .single := same.trans (kind v rfl)
        simp [passed, Annotation.asVariable?, single, renamed_of_idxOf? position passed,
          Search.ofOption, Search.orElse]

/-- **The continuation variable is followed along a chain.** It is what the root is applied to, as it
is called at the lower end. -/
theorem Chain.search (reachable : t.Reachable) (chain : t.Chain k links top) :
    t.search k = .ofOption top.passed? := by
  induction chain with
  | @direct k c args σ known parents passes =>
    have given := (Chain.direct known parents passes).args_top
    rw [reachable.search_eq known parents, reachable.searchVia_root rfl given]
  | @through k p c c' args σ links top known parents above passes chain ih =>
    have proper : p ≠ 0 := by
      cases chain with
      | direct known parents => exact reachable.ne_root known parents
      | through known parents => exact reachable.ne_root known parents
    -- What stands at the top of a chain stands for a single type.
    have kind : ∀ v, top.passed? = some v → v.kind = .single := fun _ => Parent.kind_of_passed?
    calc t.search k
        = t.searchVia [⟨p, args⟩] := reachable.search_eq known parents
      _ = .ofOption (top.passed?.map σ) := searchVia_of_passes passes above proper ih kind
      _ = .ofOption (top.rename σ).passed? := by rw [Parent.passed?_rename passes.kind top]

end ClassTable

end EffectTrees
