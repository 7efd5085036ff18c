import EffectTrees.Expr.Library
import EffectTrees.Proofs.Exchange.Operations

/-!
# The library side by side

Operations by name. Whether the library has an operation depends on its name and the number of its
arguments (and, for `run_analysis`, on whether the locator is null), so it has it for both of two
lists of related arguments or for neither; what the operation does is matched by the lemmas of the
operations (`Comparison.Matched.run_library`). The one operation that is left out is the one that
registers classes.
-/

namespace EffectTrees

namespace Comparison

variable {K : Comparison} {call call' : Caller} {v v' w w' : Value}

namespace Matched

open Library

/-! ### Operations with rules of their own -/

protected theorem prepend (h : K.Rel v v') (hw : K.Rel w w') :
    K.Matched K.Rel (prepend v w) (prepend v' w') := by
  induction h generalizing w w' with
  | node sub shape ih =>
    cases shape with
    | scalar s => cases s with
      | null => exact .pure hw
      | _ => exact .fail _
    | snoc init last => exact ih _ _ init (.of_shape (.cons (sub _ _ last) hw))
    | poison => exact .abort
    | _ => exact .fail _

protected theorem slotOf_value (h : K.Rel v v') : K.Matched K.Rel (slotOf v) (slotOf v') := by
  cases h.shape with
  | cls c =>
    refine (Matched.slotOf c).bind ?_
    rintro s _ ⟨rfl, -⟩
    exact .pure (.of_shape (.slot (.scalar _) (.scalar _) (.scalar _)))
  | _ => exact .fail _

protected theorem forM_slotOf (T : ClassTable) (ks : List Nat) :
    K.Matched Eq (ks.forM fun k => discard (Act.slotOf (T.ref k)))
      (ks.forM fun k => discard (Act.slotOf (T.ref k))) := by
  induction ks with
  | nil => exact .pure rfl
  | cons k rest ih =>
    rw [List.forM_eq_forM, List.forM_cons]
    exact (Matched.bind (Matched.slotOf _) fun _ _ _ => .pure rfl).bind fun _ _ _ => ih

protected theorem deriveLocator (c : ClassRef) :
    K.Matched K.Rel (deriveLocator c) (deriveLocator c) := by
  unfold EffectTrees.deriveLocator
  split
  · exact .fail _
  · refine .classes ?_
    split
    · exact .fail _
    · exact (Matched.forM_slotOf _ _).bind fun _ _ _ => .pure (.of_shape (.locator c))

protected theorem locatorOf (h : K.Rel v v') : K.Matched K.Rel (locatorOf v) (locatorOf v') := by
  cases h.shape with
  | cls c => exact .deriveLocator c
  | _ => exact .refuse _ h

/-- The outcome of a probe, as a value. -/
theorem ofProbe_rel {r r' : Option Value} (h : Option.Rel K.Rel r r') :
    K.Rel (ofProbe r) (ofProbe r') := by
  cases h with
  | some h => exact .of_shape (.payload (.resolved h))
  | none => exact .of_shape .aborted

/-! ### The tables -/

theorem constructors (name : String) {args args' : List Value} (h : List.Forall₂ K.Rel args args') :
    Option.Rel (K.Matched K.Rel) (constructor? name args) (constructor? name args') := by
  unfold constructor?
  split
  case h_25 =>
    -- An operation that is not in the table for the one list is not in it for the other.
    rcases h with _ | ⟨_, _ | ⟨_, _ | ⟨_, _ | ⟨_, _⟩⟩⟩⟩ <;> split <;>
      first | exact .none | simp_all
  case h_1 | h_2 =>
    cases h
    exact .some (.pure .failed)
  case h_3 =>
    cases h
    exact .some (.pure .poison)
  case h_4 | h_5 =>
    cases h
    exact .some (.pure (.of_shape .aborted))
  case h_6 =>
    cases h
    exact .some (.pure (.of_shape (.target .list)))
  case h_7 =>
    cases h
    exact .some (.pure (.of_shape (.target .tree)))
  case h_8 =>
    cases h
    exact .some (.pure (.of_shape (.locator _)))
  case h_9 =>
    cases h
    exact .some (.pure (.scalar _))
  case h_10 =>
    rcases h with _ | ⟨hv, ⟨⟩⟩
    exact .some (.pure (Exchange.rel_ofDone hv))
  case h_11 | h_12 =>
    rcases h with _ | ⟨hd, ⟨⟩⟩
    exact .some (.pure hd.suspended)
  case h_13 =>
    rcases h with _ | ⟨hv, ⟨⟩⟩
    exact .some (.pure (.of_shape (.payload (.resolved hv))))
  case h_14 =>
    rcases h with _ | ⟨hf, ⟨⟩⟩
    exact .some (.pure (.of_shape (.payload (.deferred hf))))
  case h_15 =>
    rcases h with _ | ⟨hv, ⟨⟩⟩
    exact .some (.pure hv.pure)
  case h_16 =>
    rcases h with _ | ⟨hf, ⟨⟩⟩
    exact .some (.pure (.of_shape (.tree (.done (.deferred hf)))))
  case h_17 =>
    cases h
    exact .some (.pure (.of_shape (.tree (.done (.deferred (.of_shape (.function .betray)))))))
  case h_18 =>
    rcases h with _ | ⟨hv, ⟨⟩⟩
    exact .some (.pure (.of_shape (.plain (.pure hv))))
  case h_19 =>
    rcases h with _ | ⟨hd, ⟨⟩⟩
    exact .some (.pure (.of_shape (.plain (.free hd))))
  case h_20 =>
    rcases h with _ | ⟨hn, _ | ⟨hk, ⟨⟩⟩⟩
    exact .some (.pure (.of_shape (.slot hn hk (.scalar _))))
  case h_21 =>
    rcases h with _ | ⟨hn, _ | ⟨hk, _ | ⟨ha, ⟨⟩⟩⟩⟩
    exact .some (.pure (.of_shape (.slot hn hk ha)))
  case h_22 =>
    rcases h with _ | ⟨hi, _ | ⟨hl, ⟨⟩⟩⟩
    exact .some (.pure (.of_shape (.snoc hi hl)))
  case h_23 =>
    rcases h with _ | ⟨hx, _ | ⟨hl, ⟨⟩⟩⟩
    exact .some (.pure (.of_shape (.cons hx hl)))
  case h_24 =>
    rcases h with _ | ⟨hv, _ | ⟨hw, ⟨⟩⟩⟩
    exact .some (.prepend hv hw)

variable (hc : K.Callers call call')
include hc

protected theorem either (h : K.Rel v v') (hw : K.Rel w w') :
    K.Matched K.Rel (either call v w) (either call' v' w') := by
  -- The first value decides, unless it is none of which there is a choice.
  have other : ∀ {u u' : Value}, K.Rel u u' →
      K.Matched K.Rel (if u.isPoison then Act.abort else Act.fail .misuse)
        (if u'.isPoison then Act.abort else Act.fail .misuse) := by
    intro u u' hu
    rw [hu.isPoison_eq]
    split
    · exact .abort
    · exact .fail _
  cases h.shape with
  | tree t => exact Matched.invoke hc h .alt (.cons hw .nil)
  | builder b => exact Matched.invoke hc h .alt (.cons hw .nil)
  | poison => exact .abort
  | _ =>
    have ends := other hw
    cases hw.shape <;> exact ends

theorem onTrees (name : String) {args args' : List Value} (h : List.Forall₂ K.Rel args args') :
    Option.Rel (K.Matched K.Rel) (onTrees? call name args) (onTrees? call' name args') := by
  unfold onTrees?
  split
  case h_13 =>
    rcases h with _ | ⟨_, _ | ⟨_, _ | ⟨_, _⟩⟩⟩ <;> split <;> first | exact .none | simp_all
  case h_1 | h_2 | h_3 | h_4 =>
    rcases h with _ | ⟨ht, _ | ⟨hf, ⟨⟩⟩⟩
    exact .some (Matched.invoke hc ht _ (.cons hf .nil))
  case h_5 =>
    rcases h with _ | ⟨ht, _ | ⟨hu, ⟨⟩⟩⟩
    exact .some (Matched.either hc ht hu)
  case h_6 =>
    rcases h with _ | ⟨hd, ⟨⟩⟩
    exact .some (lift_tree hc hd)
  case h_7 =>
    rcases h with _ | ⟨hd, ⟨⟩⟩
    exact .some (lift_plain hc hd)
  case h_8 =>
    rcases h with _ | ⟨hv, ⟨⟩⟩
    exact .some (embed hc hv)
  case h_9 =>
    rcases h with _ | ⟨hf, ⟨⟩⟩
    exact .some (((hc _ _ _ _ hf .nil).probe fun _ _ related => related.isPoison_eq).bind
      fun _ _ related => .pure (ofProbe_rel related))
  case h_10 =>
    rcases h with _ | ⟨hp, ⟨⟩⟩
    exact .some (Matched.forcePayload hc hp)
  case h_11 =>
    rcases h with _ | ⟨hp, ⟨⟩⟩
    exact .some (((Matched.forcePayload hc hp).probe fun _ _ related => related.isPoison_eq).bind
      fun _ _ related => .pure (ofProbe_rel related))
  case h_12 =>
    rw [h.length_eq]
    split
    · exact .some .abort
    · exact .none

theorem onEffects {name : String} (other : name ≠ "effect") {args args' : List Value}
    (h : List.Forall₂ K.Rel args args') :
    Option.Rel (K.Matched K.Rel) (onEffects? call name args) (onEffects? call' name args') := by
  unfold onEffects?
  split
  case h_10 =>
    rcases h with _ | ⟨_, _ | ⟨_, _ | ⟨_, _ | ⟨_, _⟩⟩⟩⟩ <;> split <;> first | exact .none | simp_all
  case h_1 =>
    rcases h with _ | ⟨hd, _ | ⟨hf, ⟨⟩⟩⟩
    exact .some (Matched.fmap hc hd hf)
  case h_2 =>
    rcases h with _ | ⟨hd, ⟨⟩⟩
    exact .some (Matched.erase hc hd)
  case h_3 =>
    rcases h with _ | ⟨hv, ⟨⟩⟩
    exact .some (Matched.slotOf_value hv)
  case h_4 =>
    rcases h with _ | ⟨hs, _ | ⟨hd, ⟨⟩⟩⟩
    exact .some (Matched.invoke hc hs _ (.cons hd .nil))
  case h_5 | h_6 =>
    rcases h with _ | ⟨hs, _ | ⟨hd, _ | ⟨hv, ⟨⟩⟩⟩⟩
    exact .some (Matched.invoke hc hs _ (.cons hd (.cons hv .nil)))
  case h_7 => exact absurd rfl other
  case h_8 =>
    rcases h with _ | ⟨hd, ⟨⟩⟩
    exact .some (Matched.locate hc _ hd)
  case h_9 =>
    rcases h with _ | ⟨hv, ⟨⟩⟩
    exact .some (Matched.locatorOf hv)

theorem analyze {l l' : Value} (hl : K.Rel l l') (h : K.Rel v v') :
    K.Matched K.Rel (Analysis.analyze call l v) (Analysis.analyze call' l' v') :=
  walk hc hl .nil h

theorem retract (hw : K.Rel w w') (h : K.Rel v v') :
    K.Matched K.Rel (Tree.retract call w v) (Tree.retract call' w' v') :=
  fold hc (.frame .identity) hw h

theorem eliminations (name : String) {args args' : List Value}
    (h : List.Forall₂ K.Rel args args') :
    Option.Rel (K.Matched K.Rel) (eliminations? call name args)
      (eliminations? call' name args') := by
  have anyLocator : K.Rel Analysis.anyLocator Analysis.anyLocator := .of_shape (.locator _)
  unfold eliminations?
  split
  case h_14 =>
    rcases h with _ | ⟨_, _ | ⟨_, _ | ⟨_, _ | ⟨_, _⟩⟩⟩⟩
    all_goals split <;> first | exact .none | contradiction | simp_all
  case h_1 =>
    rcases h with _ | ⟨hl, _ | ⟨ht, ⟨⟩⟩⟩
    exact .some (analyze hc hl ht)
  case h_2 =>
    rcases h with _ | ⟨ht, ⟨⟩⟩
    exact .some (analyze hc anyLocator ht)
  case h_3 =>
    rcases h with _ | ⟨ht, _ | ⟨hl, ⟨⟩⟩⟩
    cases hl.shape
    exact .some (analyze hc anyLocator ht)
  case h_4 given =>
    rcases h with _ | ⟨ht, _ | ⟨hl, ⟨⟩⟩⟩
    split
    case h_3 found =>
      -- A locator that is not null on the one side is not null on the other.
      cases found
      cases hl.shape
      exact absurd rfl given
    case h_4 found =>
      cases found
      exact .some (analyze hc hl ht)
    all_goals simp_all
  case h_5 =>
    rcases h with _ | ⟨hf, _ | ⟨ht, ⟨⟩⟩⟩
    exact .some (iterate hc hf ht)
  case h_6 =>
    rcases h with _ | ⟨hf, _ | ⟨ht, _ | ⟨hw, ⟨⟩⟩⟩⟩
    exact .some (iterateIn hc hf hw ht)
  case h_7 =>
    rcases h with _ | ⟨hf, _ | ⟨ht, _ | ⟨hw, ⟨⟩⟩⟩⟩
    exact .some (iterateLater hc hf hw ht)
  case h_8 =>
    rcases h with _ | ⟨hf, _ | ⟨ht, _ | ⟨hw, ⟨⟩⟩⟩⟩
    exact .some (fold hc hf hw ht)
  case h_9 =>
    rcases h with _ | ⟨ht, _ | ⟨hw, ⟨⟩⟩⟩
    exact .some (retract hc hw ht)
  case h_10 =>
    rcases h with _ | ⟨hf, _ | ⟨ht, ⟨⟩⟩⟩
    exact .some (hoist hc hf ht)
  case h_11 =>
    rcases h with _ | ⟨hw, _ | ⟨hv, ⟨⟩⟩⟩
    exact .some (Matched.invoke hc hw _ (.cons hv .nil))
  case h_12 =>
    rcases h with _ | ⟨hw, ⟨⟩⟩
    exact .some (Matched.invoke hc hw _ .nil)
  case h_13 =>
    rcases h with _ | ⟨hw, _ | ⟨hv, _ | ⟨hf, ⟨⟩⟩⟩⟩
    exact .some (Matched.invoke hc hw _ (.cons hv (.cons hf .nil)))

theorem onBuilders (name : String) {args args' : List Value} (h : List.Forall₂ K.Rel args args') :
    Option.Rel (K.Matched K.Rel) (onBuilders? call name args) (onBuilders? call' name args') := by
  unfold onBuilders?
  split
  case h_11 =>
    rcases h with _ | ⟨_, _ | ⟨_, _ | ⟨_, _⟩⟩⟩ <;> split <;> first | exact .none | simp_all
  case h_1 =>
    rcases h with _ | ⟨hv, ⟨⟩⟩
    exact .some (.pure (.of_shape (.builder (of_builder hv.pure))))
  case h_2 =>
    cases h
    exact .some (.pure (.of_shape (.builder (of_builder .failed))))
  case h_3 =>
    rcases h with _ | ⟨hd, ⟨⟩⟩
    exact .some ((lift_tree hc hd).bind fun _ _ related =>
      .pure (.of_shape (.builder (of_builder related))))
  case h_4 =>
    rcases h with _ | ⟨ht, ⟨⟩⟩
    exact .some (.pure (.of_shape (.builder (of_builder ht))))
  case h_5 | h_6 | h_7 | h_8 =>
    rcases h with _ | ⟨hb, _ | ⟨hf, ⟨⟩⟩⟩
    exact .some (Matched.invoke hc hb _ (.cons hf .nil))
  case h_9 =>
    rcases h with _ | ⟨hb, _ | ⟨hu, ⟨⟩⟩⟩
    exact .some (Matched.either hc hb hu)
  case h_10 =>
    rcases h with _ | ⟨hb, ⟨⟩⟩
    exact .some (Matched.invoke hc hb _ .nil)

omit hc in
/-- What the first table does not have the second one may have. -/
theorem rel_or {a b c d : Option (Act Value)} (h : Option.Rel (K.Matched K.Rel) a b)
    (h' : Option.Rel (K.Matched K.Rel) c d) :
    Option.Rel (K.Matched K.Rel) (a.or c) (b.or d) := by
  cases h with
  | some h => exact .some h
  | none => simpa using h'

/-- **What an operation of the library does.** -/
theorem run_library {name : String} (other : name ≠ "effect") {args args' : List Value}
    (h : List.Forall₂ K.Rel args args') :
    K.Matched K.Rel (Library.run call name args) (Library.run call' name args') := by
  have known := rel_or (constructors name h) <| rel_or (onTrees hc name h) <|
    rel_or (onEffects hc other h) <| rel_or (eliminations hc name h) (onBuilders hc name h)
  unfold Library.run
  rcases known.both with ⟨ha, hb⟩ | ⟨a, b, ha, hb, related⟩
  · rw [ha, hb]
    exact .fail _
  · rw [ha, hb]
    exact related

end Matched

end Comparison

end EffectTrees
