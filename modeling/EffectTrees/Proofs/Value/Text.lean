import EffectTrees.Value.Text
import Mathlib.Data.List.Basic

/-!
# Why a value cannot be written

Asking for the written form of a value is a fault for two reasons only: a number in it has too many
digits, or an instance in it lacks a member that it should show (`Value.fault_of_write`).
-/

namespace EffectTrees

/-- The attempt fails, if it does, because a number is too long or a member is missing. -/
class Unwritable {α : Type} (x : Except Fault α) : Prop where
  fault {f : Fault} (h : x = .error f) : f = .badValue ∨ f = .missingMember

namespace Unwritable

variable {α β : Type}

instance pure (x : α) : Unwritable (Pure.pure x : Except Fault α) := ⟨fun h => by cases h⟩

instance ok (x : α) : Unwritable (.ok x : Except Fault α) := ⟨fun h => by cases h⟩

instance badValue : Unwritable (.error .badValue : Except Fault α) :=
  ⟨fun h => .inl (Except.error.inj h).symm⟩

instance missingMember : Unwritable (throw .missingMember : Except Fault α) :=
  ⟨fun h => .inr (Except.error.inj h).symm⟩

instance bind {x : Except Fault α} {g : α → Except Fault β} [first : Unwritable x]
    [rest : ∀ a, Unwritable (g a)] : Unwritable (x >>= g) where
  fault {f} h := by
    cases x with
    | error f' => exact first.fault (congrArg Except.error (Except.error.inj h))
    | ok a => exact (rest a).fault h

instance mapM {γ : Type} {g : γ → Except Fault β} [each : ∀ x, Unwritable (g x)] (xs : List γ) :
    Unwritable (xs.mapM g) := by
  induction xs with
  | nil => exact .pure []
  | cons x xs ih =>
    rw [List.mapM_cons]
    infer_instance

end Unwritable

instance (s : Scalar) : Unwritable s.write := by
  unfold Scalar.write
  split
  · split <;> infer_instance
  · infer_instance

variable (t : ClassTable) (showDeferred : Bool)

/-- A member of an instance is found among its parts, or it is what its class has. -/
theorem unwritable_member {own : List (String × Written)} (each : ∀ p ∈ own, Unwritable p.2)
    {id : Nat} {name : String} {part : Written}
    (found : t.memberOf? id own (fun s => return some (← s.write)) name = some part) :
    Unwritable part := by
  unfold ClassTable.memberOf? at found
  rcases Option.or_eq_some_iff.mp found with found | ⟨-, found⟩
  · obtain ⟨p, mem, rfl⟩ := Option.map_eq_some_iff.mp found
    exact each p (List.mem_of_find?_eq_some mem)
  · obtain ⟨s, -, rfl⟩ := Option.map_eq_some_iff.mp found
    infer_instance

mutual

theorem Value.unwritable (v : Value) : Unwritable (v.write t showDeferred) := by
  cases v with
  | list items | tuple items =>
    have := Value.unwritable_all items
    unfold Value.write
    infer_instance
  | payload p =>
    unfold Value.write
    exact Payload.unwritable p
  | tree u =>
    unfold Value.write
    exact Tree.unwritable u
  | plain u =>
    unfold Value.write
    exact PlainTree.unwritable u
  | descriptor c fields =>
    have each := Value.unwritable_fields fields
    unfold Value.write
    split
    · infer_instance
    · refine @Unwritable.bind _ _ _ _ (@Unwritable.mapM _ _ _ (fun name => ?_) _) _
      split
      · next part found =>
        have := unwritable_member t each found
        infer_instance
      · infer_instance
  | builder b =>
    unfold Value.write
    exact Builder.unwritable b
  | analysis result trace =>
    have := Value.unwritable_result result
    have := Value.unwritable_all trace
    unfold Value.write
    infer_instance
  | slot name kind arity =>
    have := Value.unwritable name
    have := Value.unwritable kind
    have := Value.unwritable arity
    unfold Value.write
    infer_instance
  | target u => cases u <;> unfold Value.write <;> infer_instance
  | snoc a b | cons a b =>
    have := Value.unwritable a
    have := Value.unwritable b
    unfold Value.write
    infer_instance
  | _ =>
    unfold Value.write
    infer_instance

theorem Value.unwritable_all (vs : List Value) : Unwritable (Value.writeAll t showDeferred vs) := by
  cases vs with
  | nil => exact .pure _
  | cons v vs =>
    have := Value.unwritable v
    have := Value.unwritable_all vs
    unfold Value.writeAll
    infer_instance

theorem Value.unwritable_fields (fields : List (String × Value)) :
    ∀ p ∈ Value.writeFields t showDeferred fields, Unwritable p.2 := by
  match fields with
  | [] => exact fun p mem => by simp [Value.writeFields] at mem
  | (name, v) :: fields =>
    unfold Value.writeFields
    exact List.forall_mem_cons.mpr ⟨Value.unwritable v, Value.unwritable_fields fields⟩

theorem Value.unwritable_result (r : Option Value) :
    Unwritable (Value.writeResult t showDeferred r) := by
  cases r with
  | none => exact .pure _
  | some v =>
    have := Value.unwritable v
    unfold Value.writeResult
    infer_instance

theorem Payload.unwritable (p : Payload) : Unwritable (p.write t showDeferred) := by
  cases p with
  | resolved v | deferred v =>
    have := Value.unwritable v
    unfold Payload.write
    infer_instance

theorem Tree.unwritable (u : Tree) : Unwritable (u.write t showDeferred) := by
  cases u with
  | done p =>
    have := Payload.unwritable p
    unfold Tree.write
    infer_instance
  | suspended d =>
    have := Value.unwritable d
    unfold Tree.write
    infer_instance
  | failed => exact .pure _

theorem PlainTree.unwritable (u : PlainTree) : Unwritable (u.write t showDeferred) := by
  cases u with
  | pure v | free v =>
    have := Value.unwritable v
    unfold PlainTree.write
    infer_instance

theorem Builder.unwritable (b : Builder) : Unwritable (b.write t showDeferred) := by
  cases b with
  | mk u pending =>
    have := Value.unwritable u
    unfold Builder.write
    infer_instance

end

/-- **A value cannot be written** because a number is too long or a member is missing. -/
theorem Value.fault_of_write {v : Value} {f : Fault} (h : v.write t showDeferred = .error f) :
    f = .badValue ∨ f = .missingMember :=
  (v.unwritable t showDeferred).fault h

end EffectTrees
