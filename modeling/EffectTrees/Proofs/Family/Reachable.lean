import EffectTrees.Program
import EffectTrees.Proofs.Lists
import Mathlib.Data.List.Nodup

/-!
# Reachable tables

Class tables are not arbitrary. They begin with the root, and grow and change in small steps: a class
is added as its declaration has it, a class is made a record, a slot is written down, a name is
bound. The tables that come about so are *reachable* (`ClassTable.Reachable`). Slots are derived in
the midst of a registration, so the steps are smaller than declarations and registrations; these lead
from reachable tables to reachable tables too (`Reachable.declare`, `Reachable.register`).

After its declaration a class changes in few ways (`ClassInfo.Evolves`): its parents, its annotations
and its place among the classes stay (`ClassInfo.core`), and it lists no field twice, so that the
fields of a record are told apart by their names (`Reachable.nodup_fields`).
-/

namespace EffectTrees

namespace ClassInfo

/-- What is known of a class from its declaration on. -/
def core (c : ClassInfo) : ClassInfo := { c with layout := .unsettled, attributes := [], slot := none }

/-- What is read off the declaration of a class is known from then on. -/
theorem eq_of_core {α : Type} (f : ClassInfo → α) (ofCore : ∀ c : ClassInfo, f c.core = f c)
    {c c' : ClassInfo} (h : c'.core = c.core) : f c' = f c := by
  rw [← ofCore c', h, ofCore c]

/-- The class lists no field twice. -/
def DistinctEntries (c : ClassInfo) : Prop :=
  ∀ entries, c.layout.entries = some entries → (entries.map Field.name).Nodup

/-- **How a class may change** once it is declared. -/
structure Evolves (c c' : ClassInfo) : Prop where
  core : c'.core = c.core
  distinct : c.DistinctEntries → c'.DistinctEntries

variable {c c' c'' : ClassInfo}

theorem Evolves.refl (c : ClassInfo) : c.Evolves c := ⟨rfl, id⟩

theorem Evolves.trans (h : c.Evolves c') (h' : c'.Evolves c'') : c.Evolves c'' :=
  ⟨h'.core.trans h.core, h'.distinct ∘ h.distinct⟩

/-- A class may change in anything that concerns no entry. -/
theorem Evolves.of_entries (core : c'.core = c.core)
    (entries : c'.layout.entries = c.layout.entries) : c.Evolves c' := by
  refine ⟨core, fun distinct es listed => ?_⟩
  rw [entries] at listed
  exact distinct es listed

end ClassInfo

/-! ### Entries -/

namespace Record

theorem map_name_putEntry (entries : List Field) (f : Field) :
    (putEntry entries f).map Field.name =
      if f.name ∈ entries.map Field.name then entries.map Field.name
      else entries.map Field.name ++ [f.name] := by
  unfold putEntry
  have any_iff : (entries.any fun g => g.name = f.name) = true ↔
      f.name ∈ entries.map Field.name := by
    simp only [List.any_eq_true, decide_eq_true_eq, List.mem_map]
  by_cases listed : f.name ∈ entries.map Field.name
  · have found := any_iff.mpr listed
    have same : ∀ g ∈ entries, (if g.name = f.name then f else g).name = g.name := by
      intro g _
      split <;> simp_all
    rw [if_pos found, if_pos listed, List.map_map]
    exact List.map_congr_left same
  · have absent := mt any_iff.mp listed
    rw [if_neg absent, if_neg listed, List.map_append]
    rfl

theorem nodup_foldl_putEntry (fs entries : List Field) (h : (entries.map Field.name).Nodup) :
    ((fs.foldl putEntry entries).map Field.name).Nodup := by
  induction fs generalizing entries with
  | nil => exact h
  | cons f fs ih =>
    refine ih _ ?_
    rw [map_name_putEntry]
    split
    · exact h
    · next absent =>
      rw [List.nodup_append]
      refine ⟨h, List.nodup_singleton _, fun x mem y single => ?_⟩
      obtain rfl := List.mem_singleton.mp single
      exact ne_of_mem_of_not_mem mem absent

end Record

namespace ClassTable

variable {t t' t'' : ClassTable}

theorem nodup_entriesOf (t : ClassTable) (id : Nat) (c : ClassInfo) :
    ((t.entriesOf id c).map Field.name).Nodup :=
  Record.nodup_foldl_putEntry _ [] List.nodup_nil

/-! ### How a table changes -/

/-- No class is added, and each class changes as it may. -/
def Evolves (t t' : ClassTable) : Prop :=
  ∀ k, Option.Rel ClassInfo.Evolves (t.info? k) (t'.info? k)

theorem Evolves.refl (t : ClassTable) : t.Evolves t := by
  intro k
  cases t.info? k with
  | none => exact .none
  | some c => exact .some (.refl c)

theorem Evolves.trans (h : t.Evolves t') (h' : t'.Evolves t'') : t.Evolves t'' :=
  fun k => (h k).comp (h' k) fun _ _ _ => ClassInfo.Evolves.trans

/-- Each class is what has become of a class that was there before. -/
theorem Evolves.exists_before (h : t.Evolves t') {k : Nat} {c' : ClassInfo}
    (known : t'.info? k = some c') : ∃ c, t.info? k = some c ∧ c.Evolves c' := by
  have change := h k
  rw [known] at change
  exact change.flip.exists_right

/-- The classes that are known stay known. -/
theorem Evolves.isSome_info? (h : t.Evolves t') (k : Nat) :
    (t'.info? k).isSome = (t.info? k).isSome := by
  rcases (h k).both with ⟨before, after⟩ | ⟨c, c', before, after, -⟩ <;> rw [before, after]
  rfl

theorem info?_update (t : ClassTable) (id k : Nat) (f : ClassInfo → ClassInfo) :
    (t.update id f).info? k = if id = k then (t.info? k).map f else t.info? k := by
  unfold update info?
  rw [List.getElem?_modify]
  split <;> simp

theorem evolves_update (t : ClassTable) (id : Nat) (f : ClassInfo → ClassInfo)
    (h : ∀ c : ClassInfo, c.Evolves (f c)) :
    t.Evolves (t.update id f) := by
  intro k
  rw [info?_update]
  cases t.info? k with
  | none => split <;> exact .none
  | some c =>
    split
    · exact .some (h c)
    · exact .some (.refl c)

theorem evolves_setLayout (t : ClassTable) (id : Nat) (f : Layout → Layout)
    (h : ∀ l : Layout, (f l).entries = l.entries) : t.Evolves (t.setLayout id f) :=
  t.evolves_update id _ fun c => .of_entries rfl (h c.layout)

theorem evolves_assign (t : ClassTable) (id : Nat) (slot : Slot) :
    t.Evolves (t.update id fun c => { c with slot := some slot }) :=
  t.evolves_update id _ fun _ => .of_entries rfl rfl

theorem evolves_settle (t : ClassTable) (asked : Consultations) : t.Evolves (t.settle asked) := by
  intro k
  have settled : (t.settle asked).info? k = (t.info? k).map fun c =>
      if asked k && c.slot.isNone then { c with slot := (t.slotOf k).toOption } else c := by
    unfold settle info?
    rw [List.getElem?_mapIdx]
  rw [settled]
  cases t.info? k with
  | none => exact .none
  | some c =>
    refine .some ?_
    dsimp only
    split
    · exact .of_entries rfl rfl
    · exact .refl c

/-- Whatever becomes of the attempt, making a class a record changes classes as they may change. -/
theorem evolves_makeRecord (t : ClassTable) (id : Nat) (frozen : Bool) :
    t.Evolves (t.makeRecord id frozen).1 := by
  unfold makeRecord
  split
  · exact .refl t
  · next c _ =>
    -- The attempt may end after each of its four steps.
    have marked := t.evolves_setLayout id (fun l => { l with frozen := some frozen }) fun _ => rfl
    have described := marked.trans <| evolves_update _ id
      (fun c => { c with attributes := t.settledAttributes id c }) fun _ => .of_entries rfl rfl
    have listed : ∀ t' : ClassTable, t'.Evolves
        (t'.setLayout id fun l => { l with entries := some (t.entriesOf id c) }) := by
      intro t'
      refine t'.evolves_update id _ fun c' => ⟨rfl, fun _ es listed => ?_⟩
      obtain rfl : t.entriesOf id c = es := by simpa using listed
      exact t.nodup_entriesOf id c
    have completed : ∀ (t' : ClassTable) (fields : List Field),
        t'.Evolves (t'.setLayout id fun l => l.complete frozen fields) :=
      fun t' _ => t'.evolves_setLayout id _ fun _ => rfl
    have guarded : ∀ (t' : ClassTable) (fields : List Field),
        t'.Evolves (t'.setLayout id fun l => l.guard frozen fields) :=
      fun t' _ => t'.evolves_setLayout id _ fun _ => rfl
    simp only
    split
    · exact described
    · split
      · exact described.trans (listed _)
      · split
        · exact (described.trans (listed _)).trans (completed _ _)
        · exact ((described.trans (listed _)).trans (completed _ _)).trans (guarded _ _)

theorem evolves_ensureRecord (t : ClassTable) (id : Nat) : t.Evolves (t.ensureRecord id).1 := by
  unfold ensureRecord
  split
  · exact t.evolves_makeRecord id true
  · exact .refl t

theorem evolves_register (t : ClassTable) (id : Nat) (declared : Option String) :
    t.Evolves (t.register id declared).1 := by
  have recorded := t.evolves_ensureRecord id
  unfold register
  simp only
  split
  · exact .refl t
  · split
    · exact recorded
    · split
      · exact recorded
      · exact recorded.trans (evolves_assign _ id _)

theorem evolves_decorate (t : ClassTable) (id : Nat) (continuation : Option String) (d : Decorator) :
    t.Evolves (t.decorate id continuation d).1 := by
  cases d with
  | register => exact t.evolves_register id continuation
  | frozenRecord => exact t.evolves_makeRecord id true
  | mutableRecord => exact t.evolves_makeRecord id false

theorem evolves_decorateAll (id : Nat) (continuation : Option String) (ds : List Decorator)
    (t : ClassTable) : t.Evolves (decorateAll id continuation ds t).1 := by
  induction ds generalizing t with
  | nil => exact .refl t
  | cons d ds ih =>
    have decorated := t.evolves_decorate id continuation d
    rw [decorateAll]
    generalize t.decorate id continuation d = answer at decorated ⊢
    obtain ⟨t', warnings, f | u⟩ := answer
    · exact decorated
    · exact decorated.trans (ih t')

/-! ### Adding a class -/

/-- The table with one class more. -/
abbrev add (t : ClassTable) (c : ClassInfo) : ClassTable := { t with classes := t.classes ++ [c] }

/-- An added class leaves the others alone. -/
theorem info?_add (t : ClassTable) (c : ClassInfo) {k : Nat} (known : k < t.classes.length) :
    (t.add c).info? k = t.info? k :=
  List.getElem?_append_left known

theorem info?_add_self (t : ClassTable) (c : ClassInfo) :
    (t.add c).info? t.classes.length = some c := by
  simp [info?]

theorem lt_of_info? {k : Nat} {c : ClassInfo} (known : t.info? k = some c) :
    k < t.classes.length :=
  (List.getElem?_eq_some_iff.mp known).1

/-- A class of the grown table was there before, or it is the one that was added. -/
theorem info?_add_cases {c c' : ClassInfo} {k : Nat} (known : (t.add c).info? k = some c') :
    t.info? k = some c' ∨ k = t.classes.length ∧ c' = c := by
  have bound : k < t.classes.length + 1 := by simpa using lt_of_info? known
  rcases Nat.lt_succ_iff_lt_or_eq.mp bound with lt | rfl
  · left
    rw [← known, info?_add t c lt]
  · right
    rw [info?_add_self] at known
    exact ⟨rfl, (Option.some.inj known).symm⟩

/-! ### Reachable tables -/

/-- **Reachable tables.** Each rule is one of the small steps in which the classes of a program come
about. -/
inductive Reachable : ClassTable → Prop where
  | initial (shared : List TypeVar) : Reachable (.initial shared)
  | add {t : ClassTable} {d : ClassDecl} {c : ClassInfo} (reachable : Reachable t)
      (declared : t.classOf d = .ok c) : Reachable (t.add c)
  | makeRecord {t : ClassTable} (reachable : Reachable t) (id : Nat) (frozen : Bool) :
      Reachable (t.makeRecord id frozen).1
  | assign {t : ClassTable} (reachable : Reachable t) (id : Nat) (slot : Slot) :
      Reachable (t.update id fun c => { c with slot := some slot })
  | settle {t : ClassTable} (reachable : Reachable t) (asked : Consultations) : Reachable (t.settle asked)
  | bind {t : ClassTable} (reachable : Reachable t) (name : String) {id : Nat}
      (known : (t.info? id).isSome) : Reachable { t with bound := (name, id) :: t.bound }

theorem Reachable.ensureRecord (h : t.Reachable) (id : Nat) : (t.ensureRecord id).1.Reachable := by
  unfold ClassTable.ensureRecord
  split
  · exact h.makeRecord id true
  · exact h

theorem Reachable.register (h : t.Reachable) (id : Nat) (declared : Option String) :
    (t.register id declared).1.Reachable := by
  have recorded := h.ensureRecord id
  unfold ClassTable.register
  simp only
  split
  · exact h
  · split
    · exact recorded
    · split
      · exact recorded
      · exact recorded.assign id _

theorem Reachable.decorate (h : t.Reachable) (id : Nat) (continuation : Option String) (d : Decorator) :
    (t.decorate id continuation d).1.Reachable := by
  cases d with
  | register => exact h.register id continuation
  | frozenRecord => exact h.makeRecord id true
  | mutableRecord => exact h.makeRecord id false

theorem Reachable.decorateAll (id : Nat) (continuation : Option String) (ds : List Decorator)
    (h : t.Reachable) : (decorateAll id continuation ds t).1.Reachable := by
  induction ds generalizing t with
  | nil => exact h
  | cons d ds ih =>
    have decorated := h.decorate id continuation d
    rw [ClassTable.decorateAll]
    generalize t.decorate id continuation d = answer at decorated ⊢
    obtain ⟨t', warnings, f | u⟩ := answer
    · exact decorated
    · exact ih decorated

/-- Declaring a class leads from a reachable table to a reachable table. -/
theorem Reachable.declare (h : t.Reachable) (d : ClassDecl) : (t.declare d).1.Reachable := by
  unfold ClassTable.declare
  split
  · exact h
  · next c declared =>
    have decorated := (h.add declared).decorateAll t.classes.length d.continuation d.decorators
    have known := (evolves_decorateAll t.classes.length d.continuation d.decorators
      (t.add c)).isSome_info? t.classes.length
    rw [info?_add_self] at known
    dsimp only
    generalize ClassTable.decorateAll t.classes.length d.continuation d.decorators (t.add c) = answer at decorated known ⊢
    obtain ⟨t', warnings, f | u⟩ := answer
    · exact decorated
    · exact decorated.bind _ known

theorem Reachable.declareAll (h : t.Reachable) (ds : List ClassDecl) :
    (t.declareAll ds).1.Reachable := by
  induction ds generalizing t with
  | nil => exact h
  | cons d ds ih => exact ih (h.declare d)

/-- **Invariants of reachable tables.** It is enough that an invariant survives the addition of a
class and any change that classes may undergo. -/
theorem Reachable.invariant {P : ClassTable → Prop} (h : t.Reachable)
    (initial : ∀ shared, P (.initial shared))
    (add : ∀ (t : ClassTable) (d : ClassDecl) (c : ClassInfo), t.classOf d = .ok c → P t →
      P (t.add c))
    (change : ∀ t t' : ClassTable, t.Evolves t' → P t → P t') : P t := by
  induction h with
  | initial shared => exact initial shared
  | add _ declared ih => exact add _ _ _ declared ih
  | @makeRecord t _ id frozen ih => exact change _ _ (t.evolves_makeRecord id frozen) ih
  | @assign t _ id slot ih => exact change _ _ (t.evolves_assign id slot) ih
  | @settle t _ asked ih => exact change _ _ (t.evolves_settle asked) ih
  | @bind t _ _ _ _ ih =>
    -- What names stand for is no concern of the classes.
    exact change _ _ (Evolves.refl t) ih

theorem bound_makeRecord (t : ClassTable) (id : Nat) (frozen : Bool) :
    (t.makeRecord id frozen).1.bound = t.bound := by
  unfold makeRecord
  split
  · rfl
  · simp only
    split
    · rfl
    · split
      · rfl
      · split <;> rfl

/-- Names stand for classes of the table. -/
theorem Reachable.known_of_bound (h : t.Reachable) :
    ∀ b ∈ t.bound, (t.info? b.2).isSome := by
  -- No step takes a class away, and a name is bound to a class that is there.
  induction h with
  | initial shared =>
    intro b mem
    cases mem
  | @add t d c _ _ ih =>
    intro b mem
    obtain ⟨c₀, known⟩ := Option.isSome_iff_exists.mp (ih b mem)
    rw [info?_add t c (lt_of_info? known), known]
    rfl
  | @makeRecord t _ id frozen ih =>
    intro b mem
    rw [bound_makeRecord] at mem
    rw [(t.evolves_makeRecord id frozen).isSome_info?]
    exact ih b mem
  | @assign t _ id slot ih =>
    intro b mem
    rw [(t.evolves_assign id slot).isSome_info?]
    exact ih b mem
  | @settle t _ asked ih =>
    intro b mem
    rw [(t.evolves_settle asked).isSome_info?]
    exact ih b mem
  | bind _ name known ih =>
    intro b mem
    rcases List.mem_cons.mp mem with rfl | mem
    · exact known
    · exact ih b mem

/-! ### Declared classes -/

/-- What a declaration fixes of its class: the parents are classes of the table, they have a common
linearization, and the continuation variable is found through them. -/
theorem of_classOf {d : ClassDecl} {c : ClassInfo} (h : t.classOf d = .ok c) :
    (∃ scope, d.parents.mapM (t.parentOf scope) = .ok c.parents) ∧
      Linearization.ofParents t.classes.length (c.parents.map Parent.id)
        ((c.parents.map Parent.id).map t.lineage) = some c.lineage ∧
      c.search = t.searchVia c.parents ∧ c.layout = .unsettled := by
  unfold classOf at h
  dsimp only at h
  obtain ⟨parents, parentsOf, h⟩ := exists_of_bind_eq_ok h
  obtain ⟨listed, -, h⟩ := exists_of_bind_eq_ok h
  obtain ⟨annotations, -, h⟩ := exists_of_bind_eq_ok h
  obtain ⟨parameters, -, h⟩ := exists_of_bind_eq_ok h
  split at h
  · cases h
  · next lineage linear =>
    cases h
    exact ⟨⟨_, parentsOf⟩, linear, rfl, rfl⟩

/-! ### The fields of a record are distinct -/

/-- No class lists a field twice. -/
theorem Reachable.distinctEntries (h : t.Reachable) :
    ∀ k c, t.info? k = some c → c.DistinctEntries := by
  have unsettled : ∀ {c : ClassInfo}, c.layout = .unsettled → c.DistinctEntries := by
    intro c nothing es listed
    rw [nothing] at listed
    simp [Layout.unsettled] at listed
  refine h.invariant (P := fun t => ∀ k c, t.info? k = some c → c.DistinctEntries) ?_ ?_ ?_
  · intro shared k c known
    obtain ⟨-, rfl⟩ : k = 0 ∧ c = root := by
      simpa [info?, ClassTable.initial, List.getElem?_singleton, eq_comm] using known
    exact unsettled rfl
  · intro t d added declared ih k c known
    rcases info?_add_cases known with before | ⟨-, rfl⟩
    · exact ih k c before
    · exact unsettled (of_classOf declared).2.2.2
  · intro t t' change ih k c known
    obtain ⟨c₀, before, change⟩ := change.exists_before known
    exact change.distinct (ih k c₀ before)

/-- The fields of a record have distinct names. -/
theorem Reachable.nodup_fields (h : t.Reachable) {id : Nat} {fields : List Field}
    (record : t.fields? id = some fields) : (fields.map Field.name).Nodup := by
  obtain ⟨entries, listed, rfl⟩ := Option.map_eq_some_iff.mp record
  obtain ⟨k, -, found⟩ := List.exists_of_findSome?_eq_some listed
  obtain ⟨c, known, own⟩ := Option.bind_eq_some_iff.mp found
  exact (h.distinctEntries k c known entries own).sublist (List.filter_sublist.map _)

end ClassTable

end EffectTrees
