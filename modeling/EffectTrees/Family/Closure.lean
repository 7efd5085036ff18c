import EffectTrees.Family.Derivation

/-!
# The constructors of a family

A family is a class with all its subclasses, at any depth. Its constructors are the records among
them. They are visited depth first, and of several subclasses the one declared last comes first; a
class with several parents is visited once.

* `ClassTable.explore` visits the classes that wait on a stack and have not been seen.
* `ClassTable.constructorsOf` lists the constructors of a family in the order of the visit, each of
  them once (`ClassTable.nodup_constructorsOf`).
-/

namespace EffectTrees.ClassTable

variable (t : ClassTable)

/-- The classes that have not been seen yet. -/
def unseen (seen : List Nat) : List Nat :=
  (List.range t.classes.length).filter fun k => !seen.contains k

theorem length_unseen_cons_lt {seen : List Nat} {k : Nat} (hk : k < t.classes.length)
    (hs : seen.contains k = false) : (t.unseen (k :: seen)).length < (t.unseen seen).length := by
  have hmem : k ∈ t.unseen seen := by simp_all [unseen]
  have hsub : t.unseen (k :: seen) = (t.unseen seen).filter (fun j => j != k) := by
    simp only [unseen, List.filter_filter]
    refine List.filter_congr fun j _ => ?_
    by_cases h : j = k <;> simp [h]
  rw [hsub]
  have h := List.length_filter_lt_length_iff_exists (l := t.unseen seen) (p := fun j => j != k)
  exact h.mpr ⟨k, hmem, by simp⟩

/-- Visits the classes on the stack, top first, and then their subclasses before what lies below. -/
def explore (pending seen : List Nat) : List Nat :=
  match pending with
  | [] => []
  | k :: rest =>
    if _h : k < t.classes.length ∧ seen.contains k = false then
      k :: explore ((t.subclasses k).reverse ++ rest) (k :: seen)
    else explore rest seen
termination_by ((t.unseen seen).length, pending.length)
decreasing_by
  · exact Prod.Lex.left _ _ (t.length_unseen_cons_lt _h.1 _h.2)
  · exact Prod.Lex.right _ (by simp)

/-- What has been seen is not visited again. -/
theorem not_mem_explore_of_seen {k : Nat} (pending seen : List Nat) (hk : k ∈ seen) :
    k ∉ t.explore pending seen := by
  fun_induction t.explore pending seen with
  | case1 => simp
  | case2 seen j rest h ih =>
    have hne : k ≠ j := by
      rintro rfl
      simp [hk] at h
    simp [hne, ih (List.mem_cons_of_mem j hk)]
  | case3 seen j rest h ih => exact ih hk

/-- No class is visited twice. -/
theorem nodup_explore (pending seen : List Nat) : (t.explore pending seen).Nodup := by
  fun_induction t.explore pending seen with
  | case1 => simp
  | case2 seen j rest h ih =>
    exact List.nodup_cons.mpr ⟨t.not_mem_explore_of_seen _ _ List.mem_cons_self, ih⟩
  | case3 seen j rest h ih => exact ih

/-- The constructors of the family of a class, in the order of the visit. -/
def constructorsOf (id : Nat) : List Nat := (t.explore [id] []).filter t.isRecord

/-- Every constructor is listed once. -/
theorem nodup_constructorsOf (id : Nat) : (t.constructorsOf id).Nodup :=
  (t.nodup_explore [id] []).filter _

end EffectTrees.ClassTable
