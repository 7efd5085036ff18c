/-!
# Linearizations

A class with several parents needs one order of all its ancestors, nearest first. The merge of some
orders takes, again and again, the first head that occurs in no tail: so each given order is kept,
and earlier orders win where there is a choice. Some orders have no merge.

* `Linearization.merge` is the merge; it ends because each step shortens one of the orders.
* `Linearization.ofParents` merges the orders of the parents with the order of the parents
  themselves, behind the class.
-/

namespace EffectTrees.Linearization

/-- The first head of an order that occurs in no tail. -/
def nextHead (orders : List (List Nat)) : Option Nat :=
  orders.findSome? fun order =>
    match order with
    | [] => none
    | k :: _ => if orders.all fun o => !o.tail.contains k then some k else none

/-- An order without its head, if that is the given class. -/
def dropHead (k : Nat) (order : List Nat) : List Nat :=
  match order with
  | [] => []
  | j :: rest => if j = k then rest else j :: rest

/-- The number of entries of all orders together. -/
def totalLength (orders : List (List Nat)) : Nat :=
  orders.flatten.length

theorem length_dropHead_le (k : Nat) (order : List Nat) :
    (dropHead k order).length ≤ order.length := by
  cases order with
  | nil => simp [dropHead]
  | cons j rest => simp only [dropHead]; split <;> simp

theorem totalLength_dropHead_le (k : Nat) (orders : List (List Nat)) :
    totalLength (orders.map (dropHead k)) ≤ totalLength orders := by
  induction orders with
  | nil => simp [totalLength]
  | cons o os ih =>
    have := length_dropHead_le k o
    simp only [totalLength, List.map_cons, List.flatten_cons, List.length_append] at ih ⊢
    omega

theorem totalLength_dropHead_lt {k : Nat} {orders : List (List Nat)} {rest : List Nat}
    (h : (k :: rest) ∈ orders) :
    totalLength (orders.map (dropHead k)) < totalLength orders := by
  induction orders with
  | nil => cases h
  | cons o os ih =>
    have hle := totalLength_dropHead_le k os
    have hlen := length_dropHead_le k o
    rcases List.mem_cons.mp h with rfl | hmem
    · simp only [totalLength, List.map_cons, List.flatten_cons, List.length_append, dropHead,
        if_pos, List.length_cons] at hle ⊢
      omega
    · have := ih hmem
      simp only [totalLength, List.map_cons, List.flatten_cons, List.length_append] at this ⊢
      omega

theorem exists_mem_of_nextHead {k : Nat} {orders : List (List Nat)}
    (h : nextHead orders = some k) : ∃ rest, (k :: rest) ∈ orders := by
  obtain ⟨order, hmem, hk⟩ := List.exists_of_findSome?_eq_some h
  cases order with
  | nil => simp at hk
  | cons j rest =>
    simp only at hk
    split at hk
    · cases hk
      exact ⟨rest, hmem⟩
    · cases hk

/-- The merge of several orders, if there is one. -/
def merge (orders : List (List Nat)) : Option (List Nat) :=
  match _hk : nextHead orders with
  | some k => (merge (orders.map (dropHead k))).map (k :: ·)
  | none => if orders.all List.isEmpty then some [] else none
termination_by totalLength orders
decreasing_by
  obtain ⟨rest, hmem⟩ := exists_mem_of_nextHead _hk
  simpa using totalLength_dropHead_lt hmem

/-- The linearization of a class from the linearizations of its parents, in order. -/
def ofParents (k : Nat) (parents : List Nat) (linearizations : List (List Nat)) :
    Option (List Nat) :=
  if parents.Nodup then (merge (linearizations ++ [parents])).map (k :: ·) else none

end EffectTrees.Linearization
