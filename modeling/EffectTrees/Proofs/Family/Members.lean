import EffectTrees.Family.Closure
import Mathlib.Logic.Relation

/-!
# The members of a family

A class *descends* from another one if a chain of direct subclasses leads from that one to it
(`ClassTable.Descends`); every class descends from itself. Nothing is asked of the classes: a class
may be reached along several chains, as under multiple inheritance.

* `ClassTable.mem_explore_iff` — the visit that starts at a class comes by the classes that descend
  from it.
* `ClassTable.mem_constructorsOf_iff` — so the constructors of a family are the records among them.

The visit works on a stack. What carries the proof is that the subclasses of a class that has been
seen have been seen too or still wait on the stack (`ClassTable.Covered`).
-/

namespace EffectTrees.ClassTable

variable (t : ClassTable)

/-- **Descent.** A chain of direct subclasses leads from the first class to the second. -/
def Descends : Nat → Nat → Prop := Relation.ReflTransGen fun id k => k ∈ t.subclasses id

/-- The subclasses of what has been seen have been seen, or they wait. -/
def Covered (pending seen : List Nat) : Prop :=
  ∀ j ∈ seen, ∀ k ∈ t.subclasses j, k ∈ seen ∨ k ∈ pending

variable {t} {k : Nat} {pending seen rest : List Nat}

theorem lt_of_mem_subclasses {j : Nat} (h : k ∈ t.subclasses j) : k < t.classes.length :=
  List.mem_range.mp (List.mem_filter.mp h).1

/-- The visit goes on with a class that has not been seen. -/
theorem Covered.visit (h : t.Covered (k :: rest) seen) :
    t.Covered ((t.subclasses k).reverse ++ rest) (k :: seen) := by
  intro j seenJ i sub
  rcases List.mem_cons.mp seenJ with rfl | seenJ
  · exact .inr (List.mem_append_left _ (List.mem_reverse.mpr sub))
  · rcases h j seenJ i sub with seenI | waits
    · exact .inl (List.mem_cons_of_mem k seenI)
    · rcases List.mem_cons.mp waits with rfl | waits
      · exact .inl List.mem_cons_self
      · exact .inr (List.mem_append_right _ waits)

/-- A class that is skipped has been seen, or it is none. -/
theorem mem_seen_of_skipped (skipped : ¬ (k < t.classes.length ∧ seen.contains k = false))
    (known : k < t.classes.length) : k ∈ seen := by
  simpa [known] using skipped

theorem Covered.skip (h : t.Covered (k :: rest) seen)
    (skipped : ¬ (k < t.classes.length ∧ seen.contains k = false)) : t.Covered rest seen := by
  intro j seenJ i sub
  refine (h j seenJ i sub).elim .inl fun waits => ?_
  rcases List.mem_cons.mp waits with rfl | waits
  · exact .inl (mem_seen_of_skipped skipped (lt_of_mem_subclasses sub))
  · exact .inr waits

variable (t)

/-- What the visit comes by descends from a class on the stack. -/
theorem exists_descends_of_mem_explore (pending seen : List Nat) (h : k ∈ t.explore pending seen) :
    ∃ j ∈ pending, t.Descends j k := by
  fun_induction t.explore pending seen with
  | case1 => cases h
  | case2 seen j rest fresh ih =>
    rcases List.mem_cons.mp h with rfl | later
    · exact ⟨k, List.mem_cons_self, .refl⟩
    · obtain ⟨i, waits, descends⟩ := ih later
      rcases List.mem_append.mp waits with sub | waits
      · exact ⟨j, List.mem_cons_self, .head (List.mem_reverse.mp sub) descends⟩
      · exact ⟨i, List.mem_cons_of_mem j waits, descends⟩
  | case3 seen j rest skipped ih =>
    obtain ⟨i, waits, descends⟩ := ih h
    exact ⟨i, List.mem_cons_of_mem j waits, descends⟩

/-- No class on the stack is left out. -/
theorem mem_explore_of_pending (pending seen : List Nat) (waits : k ∈ pending)
    (known : k < t.classes.length) : k ∈ seen ∨ k ∈ t.explore pending seen := by
  fun_induction t.explore pending seen with
  | case1 => cases waits
  | case2 seen j rest fresh ih =>
    rcases List.mem_cons.mp waits with rfl | waits
    · exact .inr List.mem_cons_self
    · rcases ih (List.mem_append_right _ waits) with seenK | visited
      · exact (List.mem_cons.mp seenK).elim (fun same => .inr (same ▸ List.mem_cons_self)) .inl
      · exact .inr (List.mem_cons_of_mem j visited)
  | case3 seen j rest skipped ih =>
    rcases List.mem_cons.mp waits with rfl | waits
    · exact .inl (mem_seen_of_skipped skipped known)
    · exact ih waits

/-- No subclass of a class that has been seen or is visited is left out. -/
theorem mem_explore_of_subclass (pending seen : List Nat) (covered : t.Covered pending seen) {j : Nat}
    (h : j ∈ seen ∨ j ∈ t.explore pending seen) (sub : k ∈ t.subclasses j) :
    k ∈ seen ∨ k ∈ t.explore pending seen := by
  fun_induction t.explore pending seen with
  | case1 =>
    -- Nothing waits, so the cover is all that there is.
    rcases h with seenJ | visited
    · simpa using covered j seenJ k sub
    · cases visited
  | case2 seen i rest fresh ih =>
    have before : j ∈ i :: seen ∨ j ∈ t.explore ((t.subclasses i).reverse ++ rest) (i :: seen) := by
      rcases h with seenJ | visited
      · exact .inl (List.mem_cons_of_mem i seenJ)
      · exact (List.mem_cons.mp visited).imp_left fun same => by rw [same]; exact List.mem_cons_self
    rcases ih covered.visit before with seenK | visited
    · exact (List.mem_cons.mp seenK).elim (fun same => .inr (same ▸ List.mem_cons_self)) .inl
    · exact .inr (List.mem_cons_of_mem i visited)
  | case3 seen i rest skipped ih => exact ih (covered.skip skipped) h

/-- **The visit comes by exactly the classes that descend** from the one that it starts at. -/
theorem mem_explore_iff {id : Nat} (known : id < t.classes.length) :
    k ∈ t.explore [id] [] ↔ t.Descends id k := by
  refine ⟨fun visited => ?_, fun descends => ?_⟩
  · obtain ⟨j, waits, descends⟩ := t.exists_descends_of_mem_explore [id] [] visited
    obtain rfl := List.mem_singleton.mp waits
    exact descends
  · have covered : t.Covered [id] [] := fun j seenJ => by cases seenJ
    induction descends with
    | refl => simpa using t.mem_explore_of_pending [id] [] List.mem_cons_self known
    | tail _ sub visited => simpa using t.mem_explore_of_subclass [id] [] covered (.inr visited) sub

/-- **The constructors of a family are the records that descend from its class.** -/
theorem mem_constructorsOf_iff {id : Nat} (known : id < t.classes.length) :
    k ∈ t.constructorsOf id ↔ t.Descends id k ∧ t.isRecord k = true := by
  rw [constructorsOf, List.mem_filter, t.mem_explore_iff known]

end EffectTrees.ClassTable
