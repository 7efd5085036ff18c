import EffectTrees.Proofs.Family.Copyable

/-!
# What instances hold

The class of a record makes its instances from values for the fields that are given, in the order of
the fields. So an instance holds one value under each of their names, whichever arguments it was made
from and in whichever order (`Copyable.of_make`).

A copy with one member changed holds the same, with the new value in the place of the old one
(`Instance.withMember`, `Copyable.replaced_eq`). The members of such a copy obey the laws of an update:
what was put there is found (`fieldAt?_withMember_self`), the other members stay
(`fieldAt?_withMember_other`), the last of several changes counts (`withMember_withMember`), and to put
there what is there already changes nothing (`withMember_self`).
-/

namespace EffectTrees

namespace Instance

variable {own : List (String × Value)} {name n : String} {x y : Value}

/-- What is held, with another value under the name, where it stands. -/
def withMember (own : List (String × Value)) (name : String) (x : Value) : List (String × Value) :=
  own.map fun a => if a.1 = name then (name, x) else a

/-! ### The laws of an update -/

theorem map_fst_withMember (own : List (String × Value)) (name : String) (x : Value) :
    (withMember own name x).map Prod.fst = own.map Prod.fst := by
  unfold withMember
  rw [List.map_map]
  refine List.map_congr_left fun a _ => ?_
  by_cases changed : a.1 = name <;> simp [changed]

@[simp] theorem withMember_withMember (own : List (String × Value)) (name : String) (x y : Value) :
    withMember (withMember own name x) name y = withMember own name y := by
  unfold withMember
  rw [List.map_map]
  refine List.map_congr_left fun a _ => ?_
  by_cases changed : a.1 = name <;> simp [changed]

theorem fieldAt?_withMember_self (held : name ∈ own.map Prod.fst) :
    Value.fieldAt? (withMember own name x) name = some x := by
  induction own with
  | nil => cases held
  | cons a own ih =>
    unfold withMember at ih ⊢
    rw [List.map_cons, Value.fieldAt?_cons]
    by_cases first : a.1 = name
    · simp [first]
    · have later : name ∈ own.map Prod.fst := by simpa [Ne.symm first] using held
      simpa [first] using ih later

theorem fieldAt?_withMember_other (other : n ≠ name) :
    Value.fieldAt? (withMember own name x) n = Value.fieldAt? own n := by
  induction own with
  | nil => rfl
  | cons a own ih =>
    unfold withMember at ih ⊢
    rw [List.map_cons, Value.fieldAt?_cons, Value.fieldAt?_cons, ih]
    by_cases changed : a.1 = name
    · simp [changed, Ne.symm other]
    · simp [changed]

theorem fieldAt?_of_mem (distinct : (own.map Prod.fst).Nodup) {a : String × Value} (mem : a ∈ own) :
    Value.fieldAt? own a.1 = some a.2 := by
  induction own with
  | nil => cases mem
  | cons b own ih =>
    rw [List.map_cons, List.nodup_cons] at distinct
    rw [Value.fieldAt?_cons]
    rcases List.mem_cons.mp mem with rfl | mem
    · simp
    · have other : b.1 ≠ a.1 := fun same => distinct.1 (same ▸ List.mem_map_of_mem mem)
      rw [if_neg other, ih distinct.2 mem]

theorem withMember_self (distinct : (own.map Prod.fst).Nodup)
    (holds : Value.fieldAt? own name = some x) : withMember own name x = own := by
  have unchanged : ∀ a ∈ own, (if a.1 = name then (name, x) else a) = a := by
    rintro ⟨n, v⟩ mem
    split
    · next same =>
      obtain rfl : n = name := same
      have held : some v = some x := (fieldAt?_of_mem distinct mem).symm.trans holds
      rw [Option.some.inj held]
    · rfl
  unfold withMember
  exact (List.map_congr_left unchanged).trans (List.map_id own)

/-- **The other members**, those of the class among them, are the same in a copy. -/
theorem memberOf?_withMember_other (t : ClassTable) (id : Nat) (other : n ≠ name) :
    t.memberOf? id (withMember own name x) .scalar n = t.memberOf? id own .scalar n := by
  have same : Value.fieldAt? (withMember own name x) n = Value.fieldAt? own n :=
    fieldAt?_withMember_other other
  change (Value.fieldAt? _ n).or _ = (Value.fieldAt? _ n).or _
  rw [same]

theorem memberOf?_of_holds (t : ClassTable) (id : Nat) (holds : Value.fieldAt? own n = some x) :
    t.memberOf? id own .scalar n = some x := by
  change (Value.fieldAt? own n).or _ = _
  rw [holds, Option.some_or]

/-- A value stands under each name of what is held. -/
theorem exists_holds (held : n ∈ own.map Prod.fst) : ∃ x, Value.fieldAt? own n = some x := by
  induction own with
  | nil => cases held
  | cons a own ih =>
    rw [Value.fieldAt?_cons]
    by_cases first : a.1 = n
    · exact ⟨a.2, if_pos first⟩
    · have later : n ∈ own.map Prod.fst := by simpa [Ne.symm first] using held
      obtain ⟨x, holds⟩ := ih later
      exact ⟨x, by rw [if_neg first, holds]⟩

end Instance

open Instance (withMember)

namespace ClassTable

variable {t : ClassTable} {c : ClassRef} {fields : List Field} {own : List (String × Value)}
  {name : String}

/-! ### Instances that are made -/

/-- A value for each field that is given is accepted, if the guards keep no instance from being
made. -/
theorem accepts_givenNames (given : t.givenFields c.id = fields.filter Field.isGiven)
    (free : t.isBlocked c.id = false) : Instance.accepts t c (givenNames fields) = .ok () := by
  have known : ∀ n ∈ givenNames fields, ∃ f ∈ t.givenFields c.id, f.name = n := by
    intro n mem
    rw [given]
    exact List.mem_map.mp mem
  have named : ∀ f ∈ t.givenFields c.id, ∃ n ∈ givenNames fields, n = f.name := by
    intro f mem
    rw [given] at mem
    exact ⟨f.name, List.mem_map_of_mem mem, rfl⟩
  unfold isBlocked at free
  unfold Instance.accepts
  dsimp only
  rw [if_neg, if_neg, if_neg]
  · rw [free]
    exact Bool.false_ne_true
  · simpa using fun f mem _ => named f mem
  · simpa using known

/-- An instance holds a value for each field that it is given when it is made. -/
theorem map_fst_of_make {args : List (String × Value)} {w w' : World}
    (made : (Instance.make c args).runIn w = some (.ok (.descriptor c own), w')) :
    own.map Prod.fst = (w.classes.givenFields c.id).map Field.name := by
  unfold Instance.make at made
  rw [Act.runIn_bind, Act.runIn_classes] at made
  dsimp only at made
  split_ifs at made with unknown missing blocked
  · simp at made
  · simp at made
  · simp at made
  obtain rfl := (Value.descriptor.inj (Except.ok.inj (Prod.mk.inj (Option.some.inj made)).1)).2
  -- A field without an argument has a default, or nothing would have been made.
  have valued : ∀ f ∈ w.classes.givenFields c.id,
      ∃ v, (Value.fieldAt? args.reverse f.name).or (f.default.map .scalar) = some v := by
    intro f mem
    cases default : f.default with
    | none =>
      have named : f.name ∈ args.reverse.map Prod.fst := by
        simp only [List.any_eq_true, not_exists, not_and] at missing
        simpa [default] using missing f mem
      obtain ⟨v, found⟩ := Instance.exists_holds named
      exact ⟨v, by rw [found, Option.some_or]⟩
    | some v =>
      cases Value.fieldAt? args.reverse f.name with
      | none => exact ⟨.scalar v, rfl⟩
      | some u => exact ⟨u, rfl⟩
  generalize w.classes.givenFields c.id = given at valued
  induction given with
  | nil => rfl
  | cons f fs ih =>
    obtain ⟨⟨v, value⟩, rest⟩ := List.forall_mem_cons.mp valued
    rw [List.filterMap_cons, value, Option.map_some, List.map_cons, List.map_cons, ih rest]

/-- **An instance holds a value for each field that is given**, and since it could be made, instances
can be copied. -/
theorem Copyable.of_make (makes : t.MakesOfGiven c.id fields)
    (distinct : (fields.map Field.name).Nodup) {args : List (String × Value)} {w w' : World} (classes : w.classes = t)
    (made : (Instance.make c args).runIn w = some (.ok (.descriptor c own), w')) :
    t.Copyable c fields ∧ own.map Prod.fst = givenNames fields := by
  subst classes
  have free := not_isBlocked_of_make made
  have names := map_fst_of_make made
  rw [makes.given] at names
  exact ⟨⟨makes, distinct, accepts_givenNames makes.given free⟩, names⟩

/-! ### Copies -/

/-- **A copy with one member changed** holds the new value in the place of the old one. -/
theorem Copyable.replaced_eq (h : t.Copyable c fields) (complete : own.map Prod.fst = givenNames fields)
    (mem : name ∈ givenNames fields) (x : Value) :
    Instance.replaced t c own name x = .ok (withMember own name x) := by
  have distinct : (givenNames fields).Nodup :=
    h.distinct.sublist (List.filter_sublist.map Field.name)
  have members : ∀ n ∈ givenNames fields, ∃ v, Value.fieldAt? own n = some v := fun n mem =>
    Instance.exists_holds (by rw [complete]; exact mem)
  -- No field that cannot be given has the name, since the names are distinct.
  have copied : Instance.Copied t c own name (givenNames fields) fields := by
    refine ⟨h.listed, fun f listed => ?_, fun f listed given _ => ?_, ?_, h.accepted⟩
    · obtain ⟨g, among, named⟩ := List.mem_map.mp mem
      obtain ⟨listed', given⟩ := List.mem_filter.mp among
      by_cases same : f.name = name
      · obtain rfl := List.inj_on_of_nodup_map h.distinct listed listed' (same.trans named.symm)
        simp [given]
      · simp [same]
    · obtain ⟨v, holds⟩ :=
        members f.name (List.mem_map_of_mem (List.mem_filter.mpr ⟨listed, given⟩))
      rw [Instance.memberOf?_of_holds t c.id holds]
      rfl
    · exact (if_pos mem).symm
  rw [copied.replaced]
  -- Both sides are lists of values under the same names, in the same order.
  have made : Instance.copyWith t c (givenNames fields) (Instance.copyValue t c own name x) =
      (givenNames fields).map fun n => (n, Instance.copyValue t c own name x n) := by
    have accepted : ∀ f ∈ fields.filter Field.isGiven, f.name ∈ givenNames fields :=
      fun f mem => List.mem_map_of_mem mem
    unfold Instance.copyWith
    rw [h.given]
    conv_rhs => rw [givenNames, List.map_map, ← List.filterMap_eq_map]
    refine List.filterMap_congr fun f mem => ?_
    simp [accepted f mem]
  have values : ∀ a ∈ own, (a.1, Instance.copyValue t c own name x a.1) =
      if a.1 = name then (name, x) else a := by
    rintro ⟨n, v⟩ mem
    have holds : Value.fieldAt? own n = some v :=
      Instance.fieldAt?_of_mem (by rw [complete]; exact distinct) mem
    unfold Instance.copyValue
    rw [Instance.memberOf?_of_holds t c.id holds]
    split
    · next same => rw [show n = name from same]
    · rfl
  rw [made, ← complete, List.map_map]
  exact congrArg Except.ok (List.map_congr_left values)

end ClassTable

end EffectTrees
