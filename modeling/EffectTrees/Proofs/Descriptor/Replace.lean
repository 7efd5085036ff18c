import Mathlib.Data.List.TakeWhile
import Mathlib.Tactic.SplitIfs
import EffectTrees.Proofs.Depth.Convergence
import EffectTrees.Descriptor.Basic

/-!
# Copies with one member changed

`Instance.replace` makes a copy of an instance anew, from what the fields of the record name now and
from the new value. Which names the copy is given, and whether it can be made at all, depends on the
classes and on the members that the instance has, and not on the new value (`Instance.copyNames`).
So at given classes there is one function that says for every new value what the copy holds:

* `Instance.replaced_eq_ok` — the copy holds `copyWith` of the names and of the values under them;
* `Instance.fieldAt?_copy_self` — the copy has the new value under the changed name;
* `Instance.replaced_copy` — a copy of the copy, with the same member changed again, is a copy of
  the original;
* `Instance.fieldAt?_copy_other` — what the copy has under other names does not depend on the new
  value, and under the names of fields that are given it is what the original has.
-/

namespace EffectTrees

namespace Instance

variable (t : ClassTable) (c : ClassRef)

/-! ### Making an instance -/

/-- Whether an instance can be made from values under the given names, and why not. -/
def accepts (names : List String) : Except Fault Unit :=
  let given := t.givenFields c.id
  if names.any fun n => !given.any fun f => f.name = n then .error .misuse
  else if given.any fun f => f.default.isNone && !names.any fun n => n = f.name then .error .misuse
  else if !((t.initializer? c.id).any Initializer.isPrivileged) &&
      given.any fun f => t.guards c.id f.name then .error .guarded
  else .ok ()

/-- What an instance holds that is given `value n` under each of the names. -/
def copyWith (names : List String) (value : String → Value) : List (String × Value) :=
  (t.givenFields c.id).filterMap fun f =>
    ((if f.name ∈ names then some (value f.name) else none).or (f.default.map .scalar)).map
      fun v => (f.name, v)

/-- The value under a name among values under several names, none of which has two of them. -/
theorem fieldAt?_map (names : List String) (value : String → Value) (n : String) :
    Value.fieldAt? (names.map fun k => (k, value k)) n =
      if n ∈ names then some (value n) else none := by
  induction names with
  | nil => rfl
  | cons k names ih =>
    rw [List.map_cons, Value.fieldAt?_cons, ih]
    by_cases h : k = n
    · simp [h]
    · simp [h, Ne.symm h]

theorem runIn_make (names : List String) (value : String → Value) (w : World) :
    (make c (names.map fun n => (n, value n))).runIn w =
      match accepts w.classes c names with
      | .ok () => some (.ok (.descriptor c (copyWith w.classes c names value)), w)
      | .error f => some (.error (.fault f), w) := by
  unfold make accepts copyWith
  rw [Act.runIn_bind, Act.runIn_classes]
  dsimp only
  simp only [List.any_map, Function.comp_def, ← List.map_reverse, fieldAt?_map, List.mem_reverse]
  split_ifs <;> rfl

/-! ### Copying an instance -/

/-- The names that a copy with another member under `name` is given values for, whatever the new
value, or why there is no copy. -/
def copyNames (own : List (String × Value)) (name : String) : Except Fault (List String) :=
  match t.fields? c.id with
  | none => .error .misuse
  | some fields =>
    let before := fields.takeWhile fun f => f.isGiven || f.name ≠ name
    let names := (before.filter Field.isGiven).map Field.name
    if names.any fun n => n ≠ name && (t.memberOf? c.id own .scalar n).isNone then
      .error .missingMember
    else if before.length < fields.length then .error .badValue
    else
      let all := if name ∈ names then names else name :: names
      (accepts t c all).map fun _ => all

/-- What a copy with `new` under `name` is given under each name. -/
def copyValue (own : List (String × Value)) (name : String) (new : Value) (n : String) : Value :=
  if n = name then new else (t.memberOf? c.id own .scalar n).getD .null

/-- What a copy with `new` under `name` holds, or why there is none. -/
def replaced (own : List (String × Value)) (name : String) (new : Value) :
    Except Fault (List (String × Value)) :=
  (copyNames t c own name).map fun names => copyWith t c names (copyValue t c own name new)

theorem memberOf?_cons (own : List (String × Value)) (name : String) (new : Value) (n : String) :
    t.memberOf? c.id ((name, new) :: own) .scalar n =
      if name = n then some new else t.memberOf? c.id own .scalar n := by
  unfold ClassTable.memberOf?
  by_cases h : name = n <;> simp [h]

/-- Values for all of several fields, or a fault if one of them has none. -/
theorem mapM_named (g : Field → Option Value) (fs : List Field) :
    (fs.mapM fun f =>
      match g f with
      | some v => Except.ok (f.name, v)
      | none => Except.error Fault.missingMember) =
      if fs.any fun f => (g f).isNone then .error .missingMember
      else .ok (fs.map fun f => (f.name, (g f).getD .null)) := by
  induction fs with
  | nil => rfl
  | cons f fs ih =>
    rw [List.mapM_cons, ih]
    cases hf : g f with
    | none => simp [hf, bind, Except.bind]
    | some v =>
      cases hfs : fs.any fun f => (g f).isNone <;>
        simp [hf, hfs, bind, Except.bind, pure, Except.pure]

/-- The arguments of a copy: the fault, if there is one, does not depend on the new value. -/
theorem arguments_cons (own : List (String × Value)) (name : String) (new : Value)
    (fields : List Field) :
    arguments t c ((name, new) :: own) fields =
      let names := (fields.filter Field.isGiven).map Field.name
      if names.any fun n => n ≠ name && (t.memberOf? c.id own .scalar n).isNone then
        .error .missingMember
      else .ok (names.map fun n => (n, copyValue t c own name new n)) := by
  have missing (f : Field) : (t.memberOf? c.id ((name, new) :: own) .scalar f.name).isNone =
      (decide (f.name ≠ name) && (t.memberOf? c.id own .scalar f.name).isNone) := by
    rw [memberOf?_cons]
    by_cases h : name = f.name <;> simp [h, eq_comm (a := f.name)]
  have value (f : Field) : (t.memberOf? c.id ((name, new) :: own) .scalar f.name).getD .null =
      copyValue t c own name new f.name := by
    rw [memberOf?_cons, copyValue]
    by_cases h : name = f.name <;> simp [h, eq_comm (a := f.name)]
  unfold arguments
  refine (mapM_named (fun f => t.memberOf? c.id ((name, new) :: own) .scalar f.name) _).trans ?_
  simp only [missing, value, List.any_map, List.map_map, Function.comp_def]

/-- The changed name is given the new value, also if it is no field. -/
theorem withChange (own : List (String × Value)) (name : String) (new : Value)
    (names : List String) :
    (let args := names.map fun n => (n, copyValue t c own name new n)
    if args.any fun a => a.1 = name then args else (name, new) :: args) =
      (if name ∈ names then names else name :: names).map fun n =>
        (n, copyValue t c own name new n) := by
  by_cases h : name ∈ names
  · simp [h]
  · simp [h, copyValue]

theorem runIn_replace (own : List (String × Value)) (name : String) (new : Value) (w : World) :
    (replace c own name new).runIn w =
      match replaced w.classes c own name new with
      | .ok fields => some (.ok (.descriptor c fields), w)
      | .error f => some (.error (.fault f), w) := by
  -- The faults are found in the order of the definition: no record, a missing member, a field of
  -- that name that cannot be given, and at last what the names themselves do not allow.
  unfold replace replaced copyNames
  rw [Act.runIn_bind, Act.runIn_classes]
  dsimp only
  cases w.classes.fields? c.id with
  | none => rfl
  | some fields =>
    dsimp only
    rw [Act.runIn_bind, arguments_cons]
    generalize fields.takeWhile _ = before
    generalize (before.filter Field.isGiven).map Field.name = names
    dsimp only
    by_cases missing : names.any fun n =>
      n ≠ name && (w.classes.memberOf? c.id own .scalar n).isNone
    · simp only [missing, if_true]
      rfl
    · simp only [missing, if_false, Bool.false_eq_true]
      by_cases short : before.length < fields.length
      · simp only [short, if_true]
        rfl
      · simp only [short, if_false]
        have all := withChange w.classes c own name new names
        dsimp only at all
        change (ite _ (make c _) (make c _)).runIn w = _
        rw [← apply_ite (make c), all, runIn_make]
        cases accepts w.classes c (if name ∈ names then names else name :: names) <;> rfl

/-! ### What a copy holds -/

variable {t c}

/-- What an instance holds under a name that is given a value, or has a default. -/
theorem fieldAt?_copyWith (names : List String) (value : String → Value) (n : String) :
    Value.fieldAt? (copyWith t c names value) n =
      (t.givenFields c.id).findSome? fun f =>
        if f.name = n then
          (if n ∈ names then some (value n) else none).or (f.default.map .scalar)
        else none := by
  unfold copyWith
  induction t.givenFields c.id with
  | nil => rfl
  | cons f fs ih =>
    rw [List.filterMap_cons, List.findSome?_cons]
    by_cases h : f.name = n
    · subst h
      cases hv : (if f.name ∈ names then some (value f.name) else none).or
        (f.default.map .scalar) with
      | none => simpa [hv] using ih
      | some v => simp
    -- A field without a value and without a default leaves no trace, and a later one may answer.
    · cases hv : (if f.name ∈ names then some (value f.name) else none).or
        (f.default.map .scalar) with
      | none => simpa [hv, h] using ih
      | some v => simpa [hv, h] using ih

/-- What an instance holds under a name depends on the value that is given for that name alone. -/
theorem fieldAt?_copyWith_congr {names : List String} {value value' : String → Value} {n : String}
    (h : n ∈ names → value n = value' n) :
    Value.fieldAt? (copyWith t c names value) n = Value.fieldAt? (copyWith t c names value') n := by
  rw [fieldAt?_copyWith, fieldAt?_copyWith]
  by_cases hn : n ∈ names
  · rw [h hn]
  · simp only [hn, if_false]

theorem copyWith_congr {names : List String} {value value' : String → Value}
    (h : ∀ n ∈ names, value n = value' n) :
    copyWith t c names value = copyWith t c names value' := by
  unfold copyWith
  congr 1
  funext f
  by_cases hf : f.name ∈ names
  · rw [h _ hf]
  · simp only [hf, if_false]

/-- What is accepted is held. -/
theorem fieldAt?_of_accepts {names : List String} (h : accepts t c names = .ok ())
    (value : String → Value) {n : String} (hn : n ∈ names) :
    Value.fieldAt? (copyWith t c names value) n = some (value n) := by
  have known : ∃ f ∈ t.givenFields c.id, f.name = n := by
    unfold accepts at h
    dsimp only at h
    split_ifs at h with unknown
    simp only [List.any_eq_true, not_exists, not_and] at unknown
    simpa using unknown n hn
  rw [fieldAt?_copyWith]
  simp only [hn, if_true, Option.some_or]
  obtain ⟨f, hf, hname⟩ := known
  cases hs : (t.givenFields c.id).findSome? fun f =>
    if f.name = n then some (value n) else none with
  | none => simp [List.findSome?_eq_none_iff] at hs; exact absurd hname (hs f hf)
  | some v =>
    obtain ⟨g, -, hg⟩ := List.exists_of_findSome?_eq_some hs
    split_ifs at hg
    exact hg.symm

/-! ### The laws of copies -/

variable {own : List (String × Value)} {name : String}

/-- A copy with another member under `name` is given values under `names`: the record has fields,
all those of that name are given, the instance has a member under each other name, and the names are
accepted. -/
structure Copied (t : ClassTable) (c : ClassRef) (own : List (String × Value)) (name : String)
    (names : List String) (fields : List Field) : Prop where
  listed : t.fields? c.id = some fields
  given : ∀ f ∈ fields, (f.isGiven || f.name ≠ name) = true
  known : ∀ f ∈ fields, f.isGiven → f.name ≠ name → (t.memberOf? c.id own .scalar f.name).isSome
  names_eq : names =
    let given := (fields.filter Field.isGiven).map Field.name
    if name ∈ given then given else name :: given
  accepted : accepts t c names = .ok ()

theorem exists_ok_of_map {α β : Type} {f : α → β} {x : Except Fault α} {b : β}
    (h : x.map f = .ok b) : ∃ a, x = .ok a ∧ f a = b := by
  cases x with
  | error e => simp [Except.map] at h
  | ok a => exact ⟨a, rfl, by simpa [Except.map] using h⟩

/-- The members that a copy takes over are all there exactly if none is missing. -/
theorem none_missing_iff {fields : List Field} :
    (((fields.filter Field.isGiven).map Field.name).any fun n =>
      n ≠ name && (t.memberOf? c.id own .scalar n).isNone) = false ↔
      ∀ f ∈ fields, f.isGiven → f.name ≠ name →
        (t.memberOf? c.id own .scalar f.name).isSome := by
  simp [Option.isSome_iff_ne_none]

theorem copyNames_eq_ok_iff {names : List String} :
    copyNames t c own name = .ok names ↔ ∃ fields, Copied t c own name names fields := by
  unfold copyNames
  refine ⟨fun h => ?_, fun ⟨fields, h⟩ => ?_⟩
  · cases hf : t.fields? c.id with
    | none => simp [hf] at h
    | some fields =>
      rw [hf] at h
      dsimp only at h
      by_cases short : (fields.takeWhile fun f => f.isGiven || f.name ≠ name).length < fields.length
      · rw [if_pos short] at h
        split_ifs at h
      -- No field stopped the search, so all of them are copied from.
      have all : fields.takeWhile (fun f => f.isGiven || f.name ≠ name) = fields :=
        (List.takeWhile_prefix _).eq_of_length_le (by omega)
      rw [if_neg short, all] at h
      by_cases missing : (((fields.filter Field.isGiven).map Field.name).any fun n =>
        n ≠ name && (t.memberOf? c.id own .scalar n).isNone) = true
      · rw [if_pos missing] at h
        simp at h
      rw [if_neg missing] at h
      obtain ⟨u, accepted, rfl⟩ := exists_ok_of_map h
      exact ⟨fields, hf, List.takeWhile_eq_self_iff.mp all,
        none_missing_iff.mp (by simpa using missing), rfl, accepted⟩
  · have all : fields.takeWhile (fun f => f.isGiven || f.name ≠ name) = fields :=
      List.takeWhile_eq_self_iff.mpr h.given
    rw [h.listed]
    dsimp only
    rw [all, none_missing_iff.mpr h.known, ← h.names_eq, h.accepted]
    simp [Except.map]

theorem Copied.mem {names : List String} {fields : List Field}
    (h : Copied t c own name names fields) : name ∈ names := by
  rw [h.names_eq]
  dsimp only
  split_ifs with hn
  · exact hn
  · exact List.mem_cons_self

theorem Copied.mem_of_given {names : List String} {fields : List Field}
    (h : Copied t c own name names fields) {f : Field} (hf : f ∈ fields) (given : f.isGiven) :
    f.name ∈ names := by
  have : f.name ∈ (fields.filter Field.isGiven).map Field.name :=
    List.mem_map_of_mem (List.mem_filter.mpr ⟨hf, given⟩)
  rw [h.names_eq]
  dsimp only
  split_ifs
  · exact this
  · exact List.mem_cons_of_mem _ this

/-- The names that a copy is given values under are the changed one and those of the fields. -/
theorem Copied.exists_member {names : List String} {fields : List Field}
    (h : Copied t c own name names fields) {n : String} (hn : n ∈ names) (other : n ≠ name) :
    (t.memberOf? c.id own .scalar n).isSome := by
  rw [h.names_eq] at hn
  dsimp only at hn
  have : n ∈ (fields.filter Field.isGiven).map Field.name := by
    split_ifs at hn
    · exact hn
    · exact (List.mem_cons.mp hn).resolve_left other
  obtain ⟨f, hf, rfl⟩ := List.mem_map.mp this
  exact h.known f (List.mem_filter.mp hf).1 (List.mem_filter.mp hf).2 other

theorem replaced_eq_ok {new : Value} {copy : List (String × Value)}
    (h : replaced t c own name new = .ok copy) :
    ∃ names fields, Copied t c own name names fields ∧
      copy = copyWith t c names (copyValue t c own name new) := by
  obtain ⟨names, hn, rfl⟩ := exists_ok_of_map h
  obtain ⟨fields, hf⟩ := copyNames_eq_ok_iff.mp hn
  exact ⟨names, fields, hf, rfl⟩

theorem Copied.replaced {names : List String} {fields : List Field}
    (h : Copied t c own name names fields) (new : Value) :
    replaced t c own name new = .ok (copyWith t c names (copyValue t c own name new)) := by
  rw [Instance.replaced, copyNames_eq_ok_iff.mpr ⟨fields, h⟩]
  rfl

/-- Whether there is a copy does not depend on the new value. -/
theorem exists_fill {new : Value} {copy : List (String × Value)}
    (h : replaced t c own name new = .ok copy) :
    ∃ fill : Value → List (String × Value), fill new = copy ∧
      ∀ new', replaced t c own name new' = .ok (fill new') := by
  obtain ⟨names, fields, hc, rfl⟩ := replaced_eq_ok h
  exact ⟨fun new' => copyWith t c names (copyValue t c own name new'), rfl, hc.replaced⟩

/-- **The copy has the new value** under the changed name. -/
theorem fieldAt?_copy_self {new : Value} {copy : List (String × Value)}
    (h : replaced t c own name new = .ok copy) : Value.fieldAt? copy name = some new := by
  obtain ⟨names, fields, hc, rfl⟩ := replaced_eq_ok h
  rw [fieldAt?_of_accepts hc.accepted _ hc.mem, copyValue, if_pos rfl]

/-- **The other members of a copy do not depend on the new value.** -/
theorem fieldAt?_copy_other {new new' : Value} {copy copy' : List (String × Value)}
    (h : replaced t c own name new = .ok copy) (h' : replaced t c own name new' = .ok copy')
    {n : String} (other : n ≠ name) : Value.fieldAt? copy n = Value.fieldAt? copy' n := by
  obtain ⟨names, fields, hc, rfl⟩ := replaced_eq_ok h
  obtain rfl : copyWith t c names (copyValue t c own name new') = copy' := by
    simpa [hc.replaced] using h'
  exact fieldAt?_copyWith_congr fun _ => by rw [copyValue, copyValue, if_neg other, if_neg other]

/-- What a copy is given it has. -/
theorem Copied.memberOf?_copy {names : List String} {fields : List Field}
    (h : Copied t c own name names fields) (value : String → Value) {n : String}
    (hn : n ∈ names) :
    t.memberOf? c.id (copyWith t c names value) .scalar n = some (value n) := by
  change (Value.fieldAt? _ n).or _ = _
  rw [fieldAt?_of_accepts h.accepted value hn, Option.some_or]

/-- **A field that is given and not changed** is the same in the copy. -/
theorem memberOf?_copy_given {new : Value} {copy : List (String × Value)}
    (h : replaced t c own name new = .ok copy) {fields : List Field}
    (listed : t.fields? c.id = some fields) {f : Field} (hf : f ∈ fields) (given : f.isGiven)
    (other : f.name ≠ name) :
    t.memberOf? c.id copy .scalar f.name = t.memberOf? c.id own .scalar f.name := by
  obtain ⟨names, fields', hc, rfl⟩ := replaced_eq_ok h
  obtain rfl : fields' = fields := Option.some.inj (hc.listed.symm.trans listed)
  have hn := hc.mem_of_given hf given
  obtain ⟨v, hv⟩ := Option.isSome_iff_exists.mp (hc.exists_member hn other)
  rw [hc.memberOf?_copy _ hn, copyValue, if_neg other, hv, Option.getD_some]

/-- **A copy of a copy**, with the same member changed again, is a copy of the original. -/
theorem replaced_copy {new : Value} {copy : List (String × Value)}
    (h : replaced t c own name new = .ok copy) (new' : Value) :
    replaced t c copy name new' = replaced t c own name new' := by
  obtain ⟨names, fields, hc, rfl⟩ := replaced_eq_ok h
  -- The copy has all members that the original gave it, so nothing is missing from it.
  have again : Copied t c (copyWith t c names (copyValue t c own name new)) name names fields :=
    { hc with
      known := fun f hf given other => by
        rw [hc.memberOf?_copy _ (hc.mem_of_given hf given)]
        rfl }
  rw [again.replaced, hc.replaced]
  congr 1
  refine copyWith_congr fun n hn => ?_
  by_cases other : n = name
  · rw [copyValue, copyValue, if_pos other, if_pos other]
  · obtain ⟨v, hv⟩ := Option.isSome_iff_exists.mp (hc.exists_member hn other)
    rw [copyValue, if_neg other, hc.memberOf?_copy _ hn, Option.getD_some, copyValue, copyValue,
      if_neg other, if_neg other]

end Instance

end EffectTrees
