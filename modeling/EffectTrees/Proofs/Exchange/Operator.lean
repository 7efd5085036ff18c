import EffectTrees.Proofs.Exchange.Operations

/-!
# Operators side by side

Operators and conversions call nothing, but they look at values: they compute with scalars, compare
values, write them and go through lists. On values that differ in functions only they come to such
values again (`Comparison.Matched.run_operator`, `Comparison.Matched.convert`).

`Operator.run` picks the operation by the name, the number of operands and some of the operands at
the same time. The equations at the start take this apart: operators with a rule of their own first,
then those that the unknown argument aborts, and at last those that compute.
-/

namespace EffectTrees

namespace Operator

variable {name : String} {v w : Value}

theorem run_one (other : name ∉ ["not", "bool", "type", "repr"]) (known : v ≠ .poison) :
    run name [v] =
      if !unaryNames.contains name then Act.wrong (.operator name)
      else match unary name v with
        | some (.ok v) => pure v
        | some (.error f) => Act.fail f
        | none => Act.wrong (.operator name) := by
  have hv := Value.isPoison_of_ne known
  unfold run
  split
  case h_12 heq =>
    obtain rfl := by simpa using heq
    rw [hv]
    rfl
  all_goals simp_all

theorem run_two (other : name ∉ ["eq", "ne", "contains", "getitem"]) (known : v ≠ .poison)
    (known' : w ≠ .poison) :
    run name [v, w] =
      if !binaryNames.contains name then Act.wrong (.operator name)
      else match binary name v w with
        | some (.ok v) => pure v
        | some (.error f) => Act.fail f
        | none => Act.wrong (.operator name) := by
  have hv := Value.isPoison_of_ne known
  have hw := Value.isPoison_of_ne known'
  unfold run
  split
  case h_13 heq =>
    obtain ⟨rfl, rfl⟩ := by simpa using heq
    rw [hv, hw]
    rfl
  all_goals simp_all

theorem run_poison (other : name ∉ ["not", "bool", "type", "repr"]) :
    run name [.poison] =
      if name ∈ ["hasattr_private", "hasattr_bases"] then return .bool false
      else if !unaryNames.contains name then Act.wrong (.operator name)
      else Act.abort := by
  unfold run
  split
  case h_12 heq =>
    obtain rfl := by simpa using heq
    simp_all [Value.isPoison]
  all_goals simp_all

theorem run_two_poison (other : name ∉ ["eq", "ne", "contains", "getitem"])
    (unknown : (v.isPoison || w.isPoison) = true)
    (notPattern : ∀ s, name = "mod" → v ≠ .scalar (.str s)) :
    run name [v, w] =
      if !binaryNames.contains name then Act.wrong (.operator name) else Act.abort := by
  unfold run
  split
  case h_13 heq =>
    obtain ⟨rfl, rfl⟩ := by simpa using heq
    rw [unknown]
    rfl
  all_goals simp_all

theorem run_none : run name [] = Act.wrong (.operator name) := by
  unfold run
  split <;> simp_all

theorem run_more (a b c : Value) (rest : List Value) :
    run name (a :: b :: c :: rest) = Act.wrong (.operator name) := by
  unfold run
  split <;> simp_all

end Operator

namespace Comparison

variable {K : Comparison} {v v' w w' : Value}

namespace Matched

/-! ### Answers -/

/-- Operations that compute give related values, the same fault, or do not accept their operands. -/
abbrev Answers (K : Comparison) : Operator.Answer → Operator.Answer → Prop :=
  Option.Rel (Ends K.Rel)

theorem of_answer {a a' : Operator.Answer} (name : String) : Answers K a a' →
    K.Matched K.Rel
      (match a with
        | some (.ok v) => pure v
        | some (.error f) => Act.fail f
        | none => Act.wrong (.operator name) : Act Value)
      (match a' with
        | some (.ok v) => pure v
        | some (.error f) => Act.fail f
        | none => Act.wrong (.operator name) : Act Value) := by
  intro h
  cases h with
  | none => exact .fail _
  | some ends =>
    cases ends with
    | ok related => exact .pure related
    | error f => exact .fail _

theorem answer_scalar (s : Scalar) :
    Answers K (Operator.ok (.scalar s)) (Operator.ok (.scalar s)) := .some (.ok (.scalar s))

theorem answer_divided (j : Int) (h : K.Rel v v') :
    Answers K (Operator.divided j v) (Operator.divided j v') := by
  unfold Operator.divided
  split
  · exact .some (.error _)
  · exact .some (.ok h)

theorem answer_power (j : Int) (f : Nat → Int) :
    Answers K ((Operator.exponent? j).map fun n => .ok (.int (f n)))
      ((Operator.exponent? j).map fun n => .ok (.int (f n))) := by
  cases Operator.exponent? j with
  | none => exact .none
  | some n => exact .some (.ok (.scalar _))

theorem onIntegers (name : String) (i j : Int) :
    Answers K (Operator.onIntegers name i j) (Operator.onIntegers name i j) := by
  unfold Operator.onIntegers
  split
  case h_4 | h_5 => exact answer_divided j (.scalar _)
  case h_6 => exact answer_divided j (.tuple (.cons (.scalar _) (.cons (.scalar _) .nil)))
  case h_7 | h_8 | h_9 => exact answer_power j _
  case h_17 => exact .none
  all_goals exact answer_scalar _

theorem onTexts (name s t : String) :
    Answers K (Operator.onTexts name s t) (Operator.onTexts name s t) := by
  unfold Operator.onTexts
  split
  case h_6 => exact .none
  all_goals exact answer_scalar _

theorem binary (name : String) (hv : K.Rel v v') (hw : K.Rel w w') :
    Answers K (Operator.binary name v w) (Operator.binary name v' w') := by
  cases hv.shape with
  | scalar s =>
    cases hw.shape with
    | scalar t =>
      cases s with
      | int i =>
        cases t with
        | int j => exact onIntegers name i j
        | _ => exact .none
      | str s =>
        cases t with
        | str t => exact onTexts name s t
        | _ => exact .none
      | _ => exact .none
    | _ => cases s <;> exact .none
  | list items =>
    cases hw.shape with
    | list items' =>
      unfold Operator.binary
      dsimp only
      split
      · exact .some (.ok (.list (List.rel_append items items')))
      · exact .none
    | _ => exact .none
  | _ => exact .none

theorem chars_rel (s : String) :
    List.Forall₂ K.Rel (s.toList.map fun c => .str c.toString)
      (s.toList.map fun c => .str c.toString) :=
  List.forall₂_same.mpr fun v mem => by
    obtain ⟨c, -, rfl⟩ := List.mem_map.mp mem
    exact .scalar _

theorem indexed?_rel (h : K.Rel v v') :
    Option.Rel (List.Forall₂ K.Rel) v.indexed? v'.indexed? := by
  cases h.shape with
  | scalar s =>
    cases s with
    | str s => exact .some (chars_rel s)
    | _ => exact .none
  | list items => exact .some items
  | tuple items => exact .some items
  | _ => exact .none

/-- Of a value that is no scalar, an operation asks at most for the items. -/
theorem unary_eq (notScalar : ∀ s, v ≠ .scalar s) (name : String) :
    Operator.unary name v =
      if name = "len" then v.indexed?.map fun xs => .ok (.int xs.length)
      else if name = "iter" then v.indexed?.map fun xs => .ok (.list xs)
      else none := by
  have noText : Operator.plainText? v = none := by
    unfold Operator.plainText?
    split
    · exact absurd rfl (notScalar _)
    · exact absurd rfl (notScalar _)
    · rfl
  unfold Operator.unary
  split <;> simp_all

theorem unary_scalar (name : String) (s : Scalar) :
    Answers K (Operator.unary name (.scalar s)) (Operator.unary name (.scalar s)) := by
  unfold Operator.unary
  split
  case h_11 =>
    cases (Value.scalar s).indexed? with
    | none => exact .none
    | some items => exact .some (.ok (.scalar _))
  case h_12 =>
    cases s with
    | str s => exact .some (.ok (.list (chars_rel s)))
    | _ => exact .none
  case h_13 | h_14 =>
    cases Operator.plainText? (.scalar s) with
    | none => exact .none
    | some text =>
      cases text with
      | error f => exact .some (.error f)
      | ok text => exact .some (.ok (.scalar _))
  case h_15 t _ =>
    cases Operator.upper? t with
    | none => exact .none
    | some text => exact .some (.ok (.scalar _))
  case h_16 => exact .none
  all_goals exact answer_scalar _

theorem unary (name : String) (h : K.Rel v v') :
    Answers K (Operator.unary name v) (Operator.unary name v') := by
  have items : ∀ (notScalar : ∀ s, v ≠ .scalar s) (notScalar' : ∀ s, v' ≠ .scalar s),
      Answers K (Operator.unary name v) (Operator.unary name v') := by
    intro notScalar notScalar'
    rw [unary_eq notScalar, unary_eq notScalar']
    rcases (indexed?_rel h).both with ⟨hx, hx'⟩ | ⟨xs, xs', hx, hx', items⟩
    · rw [hx, hx']
      split_ifs <;> exact .none
    · rw [hx, hx']
      split_ifs
      · refine .some (.ok ?_)
        rw [items.length_eq]
        exact .scalar _
      · exact .some (.ok (.list items))
      · exact .none
  cases h.shape with
  | scalar s => exact unary_scalar name s
  | _ => exact items (fun _ => by simp) fun _ => by simp

/-! ### Comparisons and patterns -/

theorem containsItem {xs xs' : List Value} (h : List.Forall₂ K.Rel xs xs') (hw : K.Rel w w') :
    K.Matched Eq (Operator.containsItem xs w) (Operator.containsItem xs' w') := by
  induction h with
  | nil => exact .pure rfl
  | cons head _ ih =>
    refine (Matched.equal head hw).bind fun found _ same => same ▸ ?_
    split
    · exact .pure rfl
    · exact ih

theorem itemAt {xs xs' : List Value} (h : List.Forall₂ K.Rel xs xs') (i : Int) :
    Ends K.Rel (Operator.itemAt xs i) (Operator.itemAt xs' i) := by
  unfold Operator.itemAt
  rw [h.length_eq]
  dsimp only
  generalize (if i < 0 then i + xs'.length else i) = position
  split
  · exact .error _
  · generalize position.toNat = n
    induction h generalizing n with
    | nil => exact .error _
    | cons head _ ih =>
      cases n with
      | zero => exact .ok head
      | succ n => exact ih n

theorem fillUnknown (used : Bool) (ps : List Directive.Piece) :
    K.Matched Eq (Operator.fillUnknown used ps) (Operator.fillUnknown used ps) := by
  induction ps generalizing used with
  | nil => exact .pure rfl
  | cons p ps ih =>
    cases p with
    | char c => exact (ih used).bind fun _ _ same => .pure (same ▸ rfl)
    | key => exact .abort
    | flaw f => cases f <;> exact .fail _
    | directive d =>
      unfold Operator.fillUnknown
      split
      · exact .fail _
      · split
        · refine .classes ((Matched.ofFault (Ends.refl _)).bind fun text _ same => same ▸ ?_)
          split
          · exact (ih true).bind fun _ _ same => .pure (same ▸ rfl)
          · exact .fail _
        · split
          · exact .abort
          · exact .fail _

/-! ### Operators -/

theorem poison_of_rel (h : K.Rel v v') (hv : v = .poison) : v' = .poison := by
  subst hv
  cases h.shape
  rfl

theorem ne_poison_of_rel (h : K.Rel v v') (hv : v ≠ .poison) : v' ≠ .poison := by
  rintro rfl
  cases h.shape
  exact hv rfl

theorem run_one (name : String) (h : K.Rel v v') :
    K.Matched K.Rel (Operator.run name [v]) (Operator.run name [v']) := by
  by_cases isNot : name = "not"
  · subst isNot
    exact (truth h).bind fun _ _ same => same ▸ .pure (.scalar _)
  by_cases isBool : name = "bool"
  · subst isBool
    exact (truth h).bind fun _ _ same => same ▸ .pure (.scalar _)
  by_cases isType : name = "type"
  · subst isType
    refine .pure ?_
    rw [h.typeName_eq]
    exact .scalar _
  by_cases isRepr : name = "repr"
  · subst isRepr
    refine .classes ((Matched.ofFault (Q := Eq) ?_).bind fun text _ same => same ▸ ?_)
    · rw [h.write_eq]
      exact Ends.refl _
    · cases text with
      | some s => exact .pure (.scalar _)
      | none => exact .fail _
  have other : name ∉ ["not", "bool", "type", "repr"] := by simp [isNot, isBool, isType, isRepr]
  by_cases known : v = .poison
  · obtain rfl := poison_of_rel h known
    subst known
    rw [Operator.run_poison other]
    split_ifs
    · exact .pure (.scalar _)
    · exact .fail _
    · exact .abort
  · rw [Operator.run_one other known, Operator.run_one other (ne_poison_of_rel h known)]
    split
    · exact .fail _
    · exact of_answer name (unary name h)

theorem contains (h : K.Rel v v') (hw : K.Rel w w') :
    K.Matched K.Rel (Operator.run "contains" [v, w]) (Operator.run "contains" [v', w']) := by
  have among : ∀ {xs xs' : List Value}, List.Forall₂ K.Rel xs xs' →
      K.Matched K.Rel (do return .bool (← Operator.containsItem xs w))
        (do return .bool (← Operator.containsItem xs' w')) :=
    fun items => (containsItem items hw).bind fun _ _ same => same ▸ .pure (.scalar _)
  cases h.shape with
  | scalar s =>
    cases s with
    | str s =>
      cases hw.shape with
      | scalar t =>
        cases t with
        | str t => exact .pure (.scalar _)
        | _ => exact .fail _
      | _ => exact .fail _
    | _ => exact .fail _
  | list items => exact among items
  | tuple items => exact among items
  | poison => exact .abort
  | _ => exact .fail _

theorem getitem (h : K.Rel v v') (hw : K.Rel w w') :
    K.Matched K.Rel (Operator.run "getitem" [v, w]) (Operator.run "getitem" [v', w']) := by
  have item : ∀ {xs xs' : List Value} (i : Int), List.Forall₂ K.Rel xs xs' →
      K.Matched K.Rel
        (match some (Operator.itemAt xs i) with
          | some (.ok v) => pure v
          | some (.error f) => Act.fail f
          | none => Act.wrong (.operator "getitem") : Act Value)
        (match some (Operator.itemAt xs' i) with
          | some (.ok v) => pure v
          | some (.error f) => Act.fail f
          | none => Act.wrong (.operator "getitem") : Act Value) :=
    fun i items => of_answer _ (.some (itemAt items i))
  cases h.shape with
  | scalar s =>
    cases s with
    | str s =>
      cases hw.shape with
      | scalar t =>
        cases t with
        | int i => exact item i (chars_rel s)
        | _ => exact .fail _
      | poison => exact .abort
      | _ => exact .fail _
    | _ => cases hw.shape <;> exact .fail _
  | list items =>
    cases hw.shape with
    | scalar t =>
      cases t with
      | int i => exact item i items
      | _ => exact .fail _
    | poison => exact .abort
    | _ => exact .fail _
  | tuple items =>
    cases hw.shape with
    | scalar t =>
      cases t with
      | int i => exact item i items
      | _ => exact .fail _
    | poison => exact .abort
    | _ => exact .fail _
  | poison => exact .abort
  | _ => cases hw.shape <;> exact .fail _

theorem run_two (name : String) (h : K.Rel v v') (hw : K.Rel w w') :
    K.Matched K.Rel (Operator.run name [v, w]) (Operator.run name [v', w']) := by
  have compared : ∀ {k k' : Bool → Act Value}, (∀ b, K.Matched K.Rel (k b) (k' b)) →
      K.Matched K.Rel
        (if v.isPoison || w.isPoison then Act.abort else Act.equal v w >>= k)
        (if v'.isPoison || w'.isPoison then Act.abort else Act.equal v' w' >>= k') := by
    intro k k' hk
    rw [h.isPoison_eq, hw.isPoison_eq]
    split
    · exact .abort
    · exact (Matched.equal h hw).bind fun b _ same => same ▸ hk b
  by_cases isEq : name = "eq"
  · subst isEq
    exact compared fun _ => .pure (.scalar _)
  by_cases isNe : name = "ne"
  · subst isNe
    exact compared fun _ => .pure (.scalar _)
  by_cases isContains : name = "contains"
  · subst isContains
    exact contains h hw
  by_cases isItem : name = "getitem"
  · subst isItem
    exact getitem h hw
  have other : name ∉ ["eq", "ne", "contains", "getitem"] := by
    simp [isEq, isNe, isContains, isItem]
  cases unknown : v.isPoison || w.isPoison with
  | false =>
    have known : v ≠ .poison ∧ w ≠ .poison := by
      constructor <;> rintro rfl <;> simp [Value.isPoison] at unknown
    rw [Operator.run_two other known.1 known.2, Operator.run_two other
      (ne_poison_of_rel h known.1) (ne_poison_of_rel hw known.2)]
    split
    · exact .fail _
    · exact of_answer name (binary name h hw)
  | true =>
    have unknown' : (v'.isPoison || w'.isPoison) = true := by
      rwa [← h.isPoison_eq, ← hw.isPoison_eq]
    by_cases pattern : ∃ s, name = "mod" ∧ v = .scalar (.str s)
    · -- The unknown argument is put into the directives of the text.
      obtain ⟨s, rfl, rfl⟩ := pattern
      obtain rfl : w = .poison := Value.isPoison_iff.mp (by simpa [Value.isPoison] using unknown)
      obtain rfl := poison_of_rel hw rfl
      cases h.shape
      exact (fillUnknown false _).bind fun _ _ same => same ▸ .pure (.scalar _)
    · have notPattern : ∀ s, name = "mod" → v ≠ .scalar (.str s) :=
        fun s isMod text => pattern ⟨s, isMod, text⟩
      have notPattern' : ∀ s, name = "mod" → v' ≠ .scalar (.str s) := by
        rintro s isMod rfl
        cases h.shape
        exact notPattern s isMod rfl
      rw [Operator.run_two_poison other unknown notPattern,
        Operator.run_two_poison other unknown' notPattern']
      split
      · exact .fail _
      · exact .abort

/-- **Operators** on values that differ in functions only. -/
theorem run_operator (name : String) {args args' : List Value} (h : List.Forall₂ K.Rel args args') :
    K.Matched K.Rel (Operator.run name args) (Operator.run name args') := by
  rcases h with _ | ⟨hv, _ | ⟨hw, _ | ⟨hu, rest⟩⟩⟩
  · rw [Operator.run_none]
    exact .fail _
  · exact run_one name hv
  · exact run_two name hv hw
  · rw [Operator.run_more, Operator.run_more]
    exact .fail _

/-! ### Conversions -/

theorem readInteger (base : Nat) (s : String) :
    K.Matched K.Rel (Value.readInteger base s) (Value.readInteger base s) := by
  unfold Value.readInteger
  split
  · exact .pure (.scalar _)
  · exact .fail _

theorem asBase (h : K.Rel v v') : K.Matched Eq v.asBase v'.asBase := by
  have checked : ∀ i : Int, K.Matched Eq
      (if i = 0 ∨ (2 ≤ i ∧ i ≤ 36) then return i.toNat else Act.fail .badValue)
      (if i = 0 ∨ (2 ≤ i ∧ i ≤ 36) then return i.toNat else Act.fail .badValue) := by
    intro i
    split
    · exact .pure rfl
    · exact .fail _
  cases h.shape with
  | scalar s =>
    cases s with
    | int i => exact checked i
    | bool b => exact checked b.toNat
    | _ => exact .fail _
  | poison => exact .abort
  | _ => exact .fail _

theorem toInteger_two (v base : Value) :
    Value.toInteger [v, base] = (do
      let b ← base.asBase
      match v with
      | .scalar (.str s) => Value.readInteger b s
      | _ => Act.fail .misuse) := by
  cases v with
  | scalar s => cases s <;> rfl
  | _ => rfl

theorem toInteger_more (a b c : Value) (rest : List Value) :
    Value.toInteger (a :: b :: c :: rest) = Act.fail .misuse := by
  cases a with
  | scalar s => cases s <;> rfl
  | _ => rfl

theorem toInteger {args args' : List Value} (h : List.Forall₂ K.Rel args args') :
    K.Matched K.Rel (Value.toInteger args) (Value.toInteger args') := by
  rcases h with _ | ⟨hv, _ | ⟨hw, _ | ⟨_, _⟩⟩⟩
  · exact .pure (.scalar _)
  · cases hv.shape with
    | scalar s =>
      cases s with
      | int i => exact .pure (.scalar _)
      | bool b => exact .pure (.scalar _)
      | str s => exact readInteger 10 s
      | null => exact .fail _
    | poison => exact .abort
    | _ => exact .fail _
  · rw [toInteger_two, toInteger_two]
    refine (asBase hw).bind fun b _ same => same ▸ ?_
    cases hv.shape with
    | scalar s =>
      cases s with
      | str s => exact readInteger b s
      | _ => exact .fail _
    | _ => exact .fail _
  · rw [toInteger_more, toInteger_more]
    exact .fail _

theorem requireCoding (h : K.Rel v v') :
    K.Matched Eq (Value.requireCoding v) (Value.requireCoding v') := by
  cases h.shape with
  | scalar s =>
    cases s with
    | str s =>
      unfold Value.requireCoding
      dsimp only
      split
      · exact .fail _
      · exact .pure rfl
    | _ => exact .fail _
  | _ => exact .fail _

theorem toText_two (v coding : Value) :
    Value.toText [v, coding] = (do Value.requireCoding coding; Act.fail .misuse) := by
  cases v with
  | scalar s => cases s <;> rfl
  | _ => rfl

theorem toText_three (v coding errors : Value) :
    Value.toText [v, coding, errors] = (do
      Value.requireCoding coding
      Value.requireCoding errors
      Act.fail .misuse) := by
  cases v with
  | scalar s => cases s <;> rfl
  | _ => rfl

theorem toText_more (a b c d : Value) (rest : List Value) :
    Value.toText (a :: b :: c :: d :: rest) = Act.fail .misuse := by
  cases a with
  | scalar s => cases s <;> rfl
  | _ => rfl

/-- Related values are written alike, or neither can be written. -/
theorem written {v v' : Value} (hv : K.Rel v v') : K.Matched K.Rel
    (do
      match ← Act.ofFault (v.write (← Act.classes) true) with
      | some s => return .str s
      | none => Act.fail .misuse)
    (do
      match ← Act.ofFault (v'.write (← Act.classes) true) with
      | some s => return .str s
      | none => Act.fail .misuse) := by
  refine .classes ((Matched.ofFault (Q := Eq) ?_).bind fun text _ same => same ▸ ?_)
  · rw [hv.write_eq]
    exact Ends.refl _
  · cases text with
    | some s => exact .pure (.scalar _)
    | none => exact .fail _

theorem toText {args args' : List Value} (h : List.Forall₂ K.Rel args args') :
    K.Matched K.Rel (Value.toText args) (Value.toText args') := by
  rcases h with _ | ⟨hv, _ | ⟨hw, _ | ⟨hu, _ | ⟨_, _⟩⟩⟩⟩
  · exact .pure (.scalar _)
  · cases hv.shape with
    | scalar s =>
      cases s with
      | str s => exact .pure (.scalar _)
      | _ => exact written (.scalar _)
    | poison => exact .abort
    | _ => exact written hv
  · rw [toText_two, toText_two]
    exact (requireCoding hw).bind fun _ _ _ => .fail _
  · rw [toText_three, toText_three]
    exact (requireCoding hw).bind fun _ _ _ => (requireCoding hu).bind fun _ _ _ => .fail _
  · rw [toText_more, toText_more]
    exact .fail _

theorem convert (name : String) {args args' : List Value} (h : List.Forall₂ K.Rel args args') :
    K.Matched K.Rel (Value.convert name args) (Value.convert name args') := by
  unfold Value.convert
  split
  · exact toInteger h
  · exact toText h
  · exact .fail _

end Matched

end Comparison

end EffectTrees
