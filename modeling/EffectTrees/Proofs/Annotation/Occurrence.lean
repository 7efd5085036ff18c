import EffectTrees.Family.Derivation

/-!
# Occurrences of a variable

Whether a variable occurs in an annotation is computed by a search (`Annotation.contains`). The
search goes through all parts of a type, so what it finds is an *occurrence* in the inductive sense,
`Annotation.Occurs`, which has one rule for each place where a type may stand inside another.

With occurrences one can say how a field may hold the continuation, without the search:

* `Annotation.Holds v a kind` — the annotation is the variable itself, or it is a function type with
  the variable for its result and no occurrence of it in the parameters;
* `Annotation.Misuses v a` — the variable occurs, but in no such place.

`Annotation.classify` decides these notions (`classify_eq_none_iff`, `classify_of_holds`,
`misuses_iff`).
-/

namespace EffectTrees

namespace Annotation

variable {v : TypeVar} {a : Annotation} {kind : SlotKind}

/-- **Occurrences.** The variable occurs in the annotation, at any depth. -/
inductive Occurs (v : TypeVar) : Annotation → Prop where
  | var : Occurs v (.var v)
  | argument {head : TypeName} {args : List Annotation} {a : Annotation} (mem : a ∈ args)
      (occurs : Occurs v a) : Occurs v (.apply head args)
  | parameter {params : List Annotation} {result a : Annotation} (mem : a ∈ params)
      (occurs : Occurs v a) : Occurs v (.function params result)
  | result {params : List Annotation} {result : Annotation} (occurs : Occurs v result) :
      Occurs v (.function params result)
  | anyResult {result : Annotation} (occurs : Occurs v result) : Occurs v (.anyFunction result)
  | spec {result : Annotation} : Occurs v (.specFunction v result)
  | specResult {spec : TypeVar} {result : Annotation} (occurs : Occurs v result) :
      Occurs v (.specFunction spec result)
  | member {kind : UnionKind} {members : List Annotation} {a : Annotation} (mem : a ∈ members)
      (occurs : Occurs v a) : Occurs v (.union kind members)
  | annotated {type : Annotation} (occurs : Occurs v type) : Occurs v (.annotated type)
  | classVar {type : Annotation} (occurs : Occurs v type) : Occurs v (.classVar type)
  | packed {types : List Annotation} {a : Annotation} (mem : a ∈ types) (occurs : Occurs v a) :
      Occurs v (.packed types)

/-! ### The search finds the occurrences -/

theorem contains_of_occurs (h : Occurs v a) : a.contains v = true := by
  induction h with
  | var => simp [contains]
  | argument mem _ ih | member mem _ ih | packed mem _ ih =>
    rw [contains, containsAny_eq_true_iff]
    exact ⟨_, mem, ih⟩
  | parameter mem _ ih =>
    have among : containsAny v _ = true := containsAny_eq_true_iff.mpr ⟨_, mem, ih⟩
    rw [contains, among, Bool.true_or]
  | spec => simp [contains]
  | result _ ih | anyResult _ ih | specResult _ ih | annotated _ ih | classVar _ ih =>
    simp [contains, ih]

mutual

theorem occurs_of_contains : ∀ a : Annotation, a.contains v = true → Occurs v a
  | .var w, h => by
    obtain rfl : w = v := by simpa [contains] using h
    exact .var
  | .apply _ args, h => by
    obtain ⟨a, mem, occurs⟩ := exists_occurs_of_containsAny args h
    exact .argument mem occurs
  | .function params result, h => by
    rw [contains, Bool.or_eq_true] at h
    rcases h with h | h
    · obtain ⟨a, mem, occurs⟩ := exists_occurs_of_containsAny params h
      exact .parameter mem occurs
    · exact .result (occurs_of_contains result h)
  | .anyFunction result, h => .anyResult (occurs_of_contains result h)
  | .specFunction spec result, h => by
    rw [contains, Bool.or_eq_true] at h
    rcases h with h | h
    · obtain rfl : spec = v := by simpa using h
      exact .spec
    · exact .specResult (occurs_of_contains result h)
  | .union _ members, h => by
    obtain ⟨a, mem, occurs⟩ := exists_occurs_of_containsAny members h
    exact .member mem occurs
  | .annotated type, h => .annotated (occurs_of_contains type h)
  | .classVar type, h => .classVar (occurs_of_contains type h)
  | .packed types, h => by
    obtain ⟨a, mem, occurs⟩ := exists_occurs_of_containsAny types h
    exact .packed mem occurs
  -- Nothing else has parts, and what is still inside a text is not searched.
  | .null, h | .nullType, h | .any, h | .ellipsis, h | .named _, h | .literal _, h | .text _, h
  | .reference _ _, h => by simp [contains] at h

theorem exists_occurs_of_containsAny :
    ∀ as : List Annotation, containsAny v as = true → ∃ a ∈ as, Occurs v a
  | [], h => by simp [containsAny] at h
  | a :: as, h => by
    rw [containsAny, Bool.or_eq_true] at h
    rcases h with h | h
    · exact ⟨a, List.mem_cons_self, occurs_of_contains a h⟩
    · obtain ⟨b, mem, occurs⟩ := exists_occurs_of_containsAny as h
      exact ⟨b, List.mem_cons_of_mem a mem, occurs⟩

end

theorem contains_eq_true_iff : a.contains v = true ↔ Occurs v a :=
  ⟨occurs_of_contains a, contains_of_occurs⟩

instance : Decidable (Occurs v a) := decidable_of_iff _ contains_eq_true_iff

/-! ### Holding the continuation -/

/-- **A field that holds the continuation**, either itself or as the result of a function of so many
arguments. -/
inductive Holds (v : TypeVar) : Annotation → SlotKind → Prop where
  | direct : Holds v (.var v) .direct
  | function {params : List Annotation} (unmentioned : ∀ a ∈ params, ¬ Occurs v a) :
      Holds v (.function params (.var v)) (.function params.length)

/-- The variable occurs in a place where it is not supported. -/
def Misuses (v : TypeVar) (a : Annotation) : Prop := Occurs v a ∧ ∀ kind, ¬ Holds v a kind

theorem Holds.occurs (h : Holds v a kind) : Occurs v a := by
  cases h with
  | direct => exact .var
  | function _ => exact .result .var

theorem Holds.not_misuses (h : Holds v a kind) : ¬ Misuses v a := fun misuses =>
  misuses.2 kind h

/-- The shape of a field that holds the continuation so. -/
def shapeOf : SlotKind → Shape
  | .direct => .direct
  | .function n => .function n

theorem classify_eq_none_iff : a.classify v = none ↔ ¬ Occurs v a := by
  unfold classify
  by_cases isVar : a.isVar v = true
  · obtain rfl := isVar_iff.mp isVar
    simp [isVar, Occurs.var]
  · rw [if_neg isVar, ← contains_eq_true_iff]
    by_cases found : a.contains v = true
    · cases a <;> simp [found]
      split <;> simp
    · simp [found]

theorem classify_of_holds (h : Holds v a kind) : a.classify v = some (shapeOf kind) := by
  cases h with
  | direct => simp [classify, isVar, shapeOf]
  | @function params unmentioned =>
    have found : contains v (.function params (.var v)) = true :=
      contains_of_occurs (.result .var)
    have apart : containsAny v params = false := by
      rw [← Bool.not_eq_true]
      intro among
      obtain ⟨a, mem, occurs⟩ := exists_occurs_of_containsAny params among
      exact unmentioned a mem occurs
    simp [classify, isVar, found, apart, shapeOf]

/-- A shape is that of a kind of slot, or it is not supported. -/
theorem classify_cases {shape : Shape} (h : a.classify v = some shape) :
    (∃ kind, Holds v a kind ∧ shape = shapeOf kind) ∨ shape = .unsupported := by
  unfold classify at h
  split at h
  · -- The annotation is the variable.
    next isVar =>
    obtain rfl := isVar_iff.mp isVar
    obtain rfl : .direct = shape := by simpa using h
    exact .inl ⟨.direct, .direct, rfl⟩
  · split at h
    · simp at h
    · split at h
      · rename_i params result _ _
        split at h
        · next supported =>
          rw [Bool.and_eq_true] at supported
          obtain rfl := isVar_iff.mp supported.1
          have unmentioned : ∀ a ∈ params, ¬ Occurs v a := by
            intro a mem occurs
            have among := containsAny_eq_true_iff.mpr ⟨a, mem, contains_of_occurs occurs⟩
            simp [among] at supported
          obtain rfl : .function params.length = shape := by simpa using h
          exact .inl ⟨.function params.length, .function unmentioned, rfl⟩
        · exact .inr (by simpa using h.symm)
      · exact .inr (by simpa using h.symm)

theorem shapeOf_ne_unsupported (kind : SlotKind) : shapeOf kind ≠ .unsupported := by
  cases kind <;> simp [shapeOf]

theorem misuses_iff : a.classify v = some .unsupported ↔ Misuses v a := by
  refine ⟨fun h => ⟨?_, ?_⟩, fun ⟨occurs, noSlot⟩ => ?_⟩
  · refine Decidable.byContradiction fun absent => ?_
    rw [classify_eq_none_iff.mpr absent] at h
    simp at h
  · intro kind holds
    rw [classify_of_holds holds] at h
    exact shapeOf_ne_unsupported kind (by simpa using h)
  · cases h : a.classify v with
    | none => exact absurd occurs (classify_eq_none_iff.mp h)
    | some shape =>
      rcases classify_cases h with ⟨kind, holds, -⟩ | rfl
      · exact absurd holds (noSlot kind)
      · rfl

/-- An annotation does not mention the variable, holds the continuation, or misuses the variable. -/
theorem mention_cases (v : TypeVar) (a : Annotation) :
    ¬ Occurs v a ∨ (∃ kind, Holds v a kind) ∨ Misuses v a := by
  by_cases occurs : Occurs v a
  · by_cases holds : ∃ kind, Holds v a kind
    · exact .inr (.inl holds)
    · exact .inr (.inr ⟨occurs, fun kind h => holds ⟨kind, h⟩⟩)
  · exact .inl occurs

theorem Holds.unique {kind' : SlotKind} (h : Holds v a kind) (h' : Holds v a kind') :
    kind = kind' := by
  cases h <;> cases h' <;> rfl

end Annotation

end EffectTrees
