import EffectTrees.Proofs.Family.Chain
import EffectTrees.Proofs.Family.Refusal

/-!
# Plain subclasses

A plain subclass names its parent and adds nothing: it has no type parameters, no fields and no
attributes of its own, and no decorator has been applied to it (`ClassInfo.IsPlain`). A class may be
reached from another one by any number of such steps (`ClassTable.PlainlyBelow`).

What such a class is asked for is looked up in its ancestors, so it finds what the class at the top
finds (`PlainlyBelow.lookup?_eq`): the fields, how instances are made, and the values that instances
show without having them. The continuation variable is inherited unchanged, and texts in annotations
are read with the same names. So a slot is derived for it as for the class at the top
(`PlainlyBelow.deriveSlot_eq`), and an instance is copied as an instance of that class that holds
the same (`PlainlyBelow.replaced_eq`).

The guard of a frozen class is the exception. It stands before all fields of the instances of the
very class, and before the listed ones in subclasses. This makes no difference where the guard of
the class keeps no instance from being made (`ClassTable.Constructible`), as is the case if one can
be made (`Reachable.constructible`).
-/

namespace EffectTrees

/-- **A plain subclass** of the parent. -/
structure ClassInfo.IsPlain (c : ClassInfo) (parent : Nat) : Prop where
  parents : c.parents = [⟨parent, none⟩]
  typeVars : c.typeVars = []
  annotations : c.annotations = []
  attributes : c.attributes = []
  layout : c.layout = .unsettled

namespace ClassTable

variable {t : ClassTable} {c d k p : Nat} {chain : List Nat} {info : ClassInfo}

/-- **The class is reached by plain subclassing.** The chain lists the classes on the way, from the
reached one upwards. -/
inductive PlainlyBelow (t : ClassTable) (c : Nat) : Nat → List Nat → Prop where
  | child {k : Nat} {info : ClassInfo} (known : t.info? k = some info) (plain : info.IsPlain c) :
      PlainlyBelow t c k [k]
  | further {k p : Nat} {info : ClassInfo} {chain : List Nat} (known : t.info? k = some info)
      (plain : info.IsPlain p) (above : PlainlyBelow t c p chain) : PlainlyBelow t c k (k :: chain)

/-! ### One step -/

/-- A plain subclass stands before the linearization of its parent. -/
theorem Reachable.lineage_of_plain (h : t.Reachable) (known : t.info? k = some info)
    (plain : info.IsPlain p) (parent : (t.info? p).isSome) : t.lineage k = k :: t.lineage p := by
  have placed := h.placed k info known (h.ne_root known plain.parents)
  obtain ⟨rest, above⟩ := h.exists_lineage parent
  have distinct : (p :: rest).Nodup := above ▸ h.nodup_lineage p
  rw [lineage_eq known, placed.lineage_eq plain.parents above distinct, above]

theorem Reachable.lt_of_plain (h : t.Reachable) (known : t.info? k = some info)
    (plain : info.IsPlain p) : p < k := by
  have placed := h.placed k info known (h.ne_root known plain.parents)
  exact placed.earlier ⟨p, none⟩ (by simp [plain.parents])

namespace PlainlyBelow

/-! ### What a plain subclass inherits -/

/-- The classes on the way are plain subclasses. -/
theorem exists_plain (h : t.PlainlyBelow c d chain) :
    ∀ k ∈ chain, ∃ info p, t.info? k = some info ∧ info.IsPlain p := by
  induction h with
  | child known plain =>
    intro k mem
    rw [List.mem_singleton.mp mem]
    exact ⟨_, _, known, plain⟩
  | further known plain _ ih =>
    intro k mem
    rcases List.mem_cons.mp mem with rfl | mem
    · exact ⟨_, _, known, plain⟩
    · exact ih k mem

/-- So the classes on the way are reached by plain subclassing. -/
theorem exists_chain (h : t.PlainlyBelow c d chain) :
    ∀ k ∈ chain, ∃ chain', t.PlainlyBelow c k chain' := by
  induction h with
  | child known plain =>
    intro k mem
    rw [List.mem_singleton.mp mem]
    exact ⟨_, .child known plain⟩
  | further known plain above ih =>
    intro k mem
    rcases List.mem_cons.mp mem with rfl | mem
    · exact ⟨_, .further known plain above⟩
    · exact ih k mem

theorem isSome (h : t.PlainlyBelow c d chain) : (t.info? d).isSome := by
  cases h with
  | child known _ | further known _ _ =>
    rw [known]
    rfl

theorem lt (h : t.PlainlyBelow c d chain) (reachable : t.Reachable) : c < d := by
  induction h with
  | child known plain => exact reachable.lt_of_plain known plain
  | further known plain _ ih => exact Nat.lt_trans ih (reachable.lt_of_plain known plain)

/-- It belongs to the family of the class at the top. -/
theorem descends (h : t.PlainlyBelow c d chain) : t.Descends c d := by
  have direct : ∀ {k p : Nat} {info : ClassInfo}, t.info? k = some info → info.IsPlain p →
      k ∈ t.subclasses p := fun known plain => by
    simp [subclasses, List.mem_filter, List.mem_range, lt_of_info? known, known, plain.parents]
  induction h with
  | child known plain => exact .single (direct known plain)
  | further known plain _ ih => exact ih.tail (direct known plain)

theorem lineage_eq (h : t.PlainlyBelow c d chain) (reachable : t.Reachable)
    (top : (t.info? c).isSome) : t.lineage d = chain ++ t.lineage c := by
  induction h with
  | child known plain => exact reachable.lineage_of_plain known plain top
  | further known plain above ih =>
    rw [reachable.lineage_of_plain known plain above.isSome, ih, List.cons_append]

/-- **What is looked up is found at the top**, if it is nothing that plain subclasses settle. -/
theorem lookup?_eq {α : Type} (h : t.PlainlyBelow c d chain) (reachable : t.Reachable)
    (top : (t.info? c).isSome) {f : ClassInfo → Option α}
    (silent : ∀ info p, info.IsPlain p → f info = none) : t.lookup? f d = t.lookup? f c := by
  have nothing : chain.findSome? (fun k => (t.info? k).bind f) = none := by
    refine List.findSome?_eq_none_iff.mpr fun k mem => ?_
    obtain ⟨info, p, known, plain⟩ := h.exists_plain k mem
    rw [known, Option.bind_some, silent info p plain]
  unfold lookup?
  rw [h.lineage_eq reachable top, List.findSome?_append, nothing, Option.none_or]

/-- The parts of the layout are looked up. -/
theorem lookup?_layout_eq {α : Type} (h : t.PlainlyBelow c d chain) (reachable : t.Reachable)
    (top : (t.info? c).isSome) {f : Layout → Option α} (silent : f .unsettled = none) :
    t.lookup? (fun c => f c.layout) d = t.lookup? (fun c => f c.layout) c :=
  h.lookup?_eq reachable top fun info p plain => by rw [plain.layout, silent]

theorem fields?_eq (h : t.PlainlyBelow c d chain) (reachable : t.Reachable)
    (top : (t.info? c).isSome) : t.fields? d = t.fields? c :=
  congrArg (Option.map _) (h.lookup?_layout_eq reachable top (f := Layout.entries) rfl)

theorem isRecord_eq (h : t.PlainlyBelow c d chain) (reachable : t.Reachable)
    (top : (t.info? c).isSome) : t.isRecord d = t.isRecord c :=
  congrArg Option.isSome (h.lookup?_layout_eq reachable top (f := Layout.entries) rfl)

theorem initializer?_eq (h : t.PlainlyBelow c d chain) (reachable : t.Reachable)
    (top : (t.info? c).isSome) : t.initializer? d = t.initializer? c :=
  h.lookup?_layout_eq reachable top (f := Layout.initializer) rfl

theorem givenFields_eq (h : t.PlainlyBelow c d chain) (reachable : t.Reachable)
    (top : (t.info? c).isSome) : t.givenFields d = t.givenFields c := by
  unfold givenFields
  rw [h.initializer?_eq reachable top]

theorem memberOf?_eq {α : Type} (h : t.PlainlyBelow c d chain) (reachable : t.Reachable)
    (top : (t.info? c).isSome) (own : List (String × α)) (ofClass : Scalar → α) (name : String) :
    t.memberOf? d own ofClass name = t.memberOf? c own ofClass name := by
  have inherited : t.attribute? d name = t.attribute? c name :=
    h.lookup?_eq reachable top fun info p plain => by rw [plain.attributes]; rfl
  unfold memberOf? valueAt?
  rw [inherited]

theorem search_eq (h : t.PlainlyBelow c d chain) (reachable : t.Reachable) :
    t.search d = t.search c := by
  induction h with
  | child known plain => exact reachable.search_of_unapplied known plain.parents
  | further known plain _ ih =>
    rw [reachable.search_of_unapplied known plain.parents]
    exact ih

/-! ### The derivation of its slot -/

/-- A list that the classes of a linearization contribute to, and plain subclasses do not. -/
theorem flatMap_eq {α : Type} (h : t.PlainlyBelow c d chain) {f : ClassInfo → List α}
    (silent : ∀ info p, info.IsPlain p → f info = []) :
    chain.flatMap (fun k => ((t.info? k).map f).getD []) = [] := by
  refine List.flatMap_eq_nil_iff.mpr fun k mem => ?_
  obtain ⟨info, p, known, plain⟩ := h.exists_plain k mem
  rw [known, Option.map_some, Option.getD_some, silent info p plain]

theorem textScope_eq (h : t.PlainlyBelow c d chain) (reachable : t.Reachable)
    (top : (t.info? c).isSome) : t.textScope d = t.textScope c := by
  have vars : t.typeVarsOf d = t.typeVarsOf c := by
    unfold typeVarsOf
    rw [h.lineage_eq reachable top, List.flatMap_append,
      h.flatMap_eq fun _ _ plain => plain.typeVars, List.nil_append]
  unfold textScope
  rw [vars]

/-- **The types of the fields** are those at the top. -/
theorem fieldTypes_eq (h : t.PlainlyBelow c d chain) (reachable : t.Reachable)
    (top : (t.info? c).isSome) : t.fieldTypes d = t.fieldTypes c := by
  have nothing : chain.reverse.flatMap (fun k => ((t.info? k).map ClassInfo.annotations).getD []) =
      [] := by
    refine List.flatMap_eq_nil_iff.mpr fun k mem => ?_
    exact List.flatMap_eq_nil_iff.mp (h.flatMap_eq fun _ _ plain => plain.annotations) k
      (List.mem_reverse.mp mem)
  unfold fieldTypes hints
  dsimp only
  rw [h.lineage_eq reachable top, List.reverse_append, List.flatMap_append, nothing,
    List.append_nil, h.textScope_eq reachable top]

/-- **A slot is derived as at the top.** -/
theorem deriveSlot_eq (h : t.PlainlyBelow c d chain) (reachable : t.Reachable)
    (top : (t.info? c).isSome) (declared : Option String) :
    t.deriveSlot d declared = t.deriveSlot c declared := by
  unfold deriveSlot typedFields
  rw [h.search_eq reachable, h.fieldTypes_eq reachable top, h.fields?_eq reachable top]

theorem isA_of_top (h : t.PlainlyBelow c d chain) (reachable : t.Reachable)
    (top : (t.info? c).isSome) {id : Nat} (member : (t.ref c).isA id = true) :
    (t.ref d).isA id = true := by
  have mem : id ∈ t.lineage c := List.contains_iff_mem.mp member
  refine List.contains_iff_mem.mpr ?_
  change id ∈ t.lineage d
  rw [h.lineage_eq reachable top]
  exact List.mem_append_right chain mem

end PlainlyBelow

/-! ### Guards -/

/-- Every class of the table that has a guard settles how its instances are made. -/
def SettlesGuarded (t : ClassTable) : Prop :=
  ∀ k c, t.info? k = some c → c.layout.guarded.isSome → c.layout.initializer.isSome

theorem SettlesGuarded.update (h : t.SettlesGuarded) (id : Nat) {f : ClassInfo → ClassInfo}
    (change : ∀ c, t.info? id = some c →
      (f c).layout.guarded.isSome → (f c).layout.initializer.isSome) :
    (t.update id f).SettlesGuarded := by
  intro k c known
  rw [info?_update] at known
  split at known
  · next same =>
    subst same
    obtain ⟨before, there, rfl⟩ := Option.map_eq_some_iff.mp known
    exact change before there
  · exact h k c known

/-- To make a class a record settles how instances are made, before the guard is set up. -/
theorem SettlesGuarded.makeRecord (h : t.SettlesGuarded) (id : Nat) (frozen : Bool) :
    (t.makeRecord id frozen).1.SettlesGuarded := by
  have complete : ∀ (l : Layout) (fields : List Field),
      ((l.complete frozen fields).initializer).isSome := fun l fields => by
    cases own : l.initializer <;> simp [Layout.complete, own]
  unfold ClassTable.makeRecord
  split
  · exact h
  · next info _ =>
    have frozen' := h.update id
      (f := fun c => { c with layout := { c.layout with frozen := some frozen } }) (h id)
    have described := frozen'.update id
      (f := fun c => { c with attributes := t.settledAttributes id c }) (frozen' id)
    have listed := described.update id
      (f := fun c => { c with layout := { c.layout with entries := some (t.entriesOf id info) } })
      (described id)
    have completed := fun fields => listed.update id
      (f := fun c => { c with layout := c.layout.complete frozen fields }) fun c _ _ =>
        complete c.layout fields
    dsimp only
    split
    · exact described
    · split
      · exact listed
      · split
        · exact completed _
        · refine (completed _).update id fun c known _ => ?_
          rw [info?_update, if_pos rfl] at known
          obtain ⟨before, -, rfl⟩ := Option.map_eq_some_iff.mp known
          exact complete before.layout _

theorem Reachable.settlesGuarded (h : t.Reachable) : t.SettlesGuarded := by
  induction h with
  | initial shared =>
    intro k c known guarded
    obtain ⟨-, rfl⟩ : k = 0 ∧ c = ClassTable.root := by
      simpa [info?, ClassTable.initial, List.getElem?_singleton, eq_comm] using known
    cases guarded
  | @add t d added _ declared ih =>
    intro k c known guarded
    rcases info?_add_cases known with before | ⟨-, rfl⟩
    · exact ih k c before guarded
    · rw [(of_classOf declared).2.2.2] at guarded
      cases guarded
  | makeRecord _ id frozen ih => exact ih.makeRecord id frozen
  | assign _ id slot ih => exact ih.update id (ih id)
  | @settle t _ asked ih =>
    intro k c known
    rw [info?_settle] at known
    obtain ⟨before, there, rfl⟩ := Option.map_eq_some_iff.mp known
    split
    · exact ih k before there
    · exact ih k before there
  | bind _ _ _ ih => exact ih

/-- **The guard of the class keeps no instance of it from being made**: the class has none, it makes
its instances past the guard, or it sets nothing in them. -/
def Constructible (t : ClassTable) (c : Nat) : Prop :=
  ((t.info? c).bind (·.layout.guarded)).isSome →
    ∃ i, (t.info? c).bind (·.layout.initializer) = some i ∧ (i.isPrivileged = true ∨ i.fields = [])

/-- The guards keep instances of the class from being made. -/
def isBlocked (t : ClassTable) (c : Nat) : Bool :=
  !((t.initializer? c).any Initializer.isPrivileged) &&
    (t.givenFields c).any fun f => t.guards c f.name

/-- The guards of the ancestors are those at the top, if the class at the top has none. -/
theorem PlainlyBelow.guards_eq (h : t.PlainlyBelow c d chain) (reachable : t.Reachable)
    (top : (t.info? c).isSome) (unguarded : (t.info? c).bind (·.layout.guarded) = none)
    (name : String) : t.guards d name = t.guards c name := by
  have nothing : chain.any (fun k => ((t.info? k).bind (·.layout.guarded)).any
      fun names => k = d || names.contains name) = false := by
    refine List.any_eq_false.mpr fun k mem => ?_
    obtain ⟨info, p, known, plain⟩ := h.exists_plain k mem
    rw [known, Option.bind_some, plain.layout]
    exact Bool.false_ne_true
  unfold guards
  rw [h.lineage_eq reachable top, List.any_append, nothing, Bool.false_or, Bool.eq_iff_iff]
  simp only [List.any_eq_true]
  refine exists_congr fun k => and_congr_right fun mem => ?_
  -- The reached class is no ancestor of the one at the top, and that one has no guard.
  have other : k ≠ d := by
    have le := reachable.le_of_mem_lineage c k mem
    have lt := h.lt reachable
    omega
  by_cases top : k = c
  · rw [top, unguarded]
    rfl
  · simp only [other, top]

theorem OwnRecord.initializer?_eq (h : t.OwnRecord c) {i : Initializer}
    (own : (t.info? c).bind (·.layout.initializer) = some i) : t.initializer? c = some i := by
  obtain ⟨rest, lineage⟩ := h.head
  rw [initializer?, lookup?, lineage, List.findSome?_cons, own]

/-- Where an instance can be made, the guard of the class keeps none from being made. -/
theorem Reachable.constructible (h : t.Reachable) (record : t.OwnRecord c)
    (free : t.isBlocked c = false) : t.Constructible c := by
  intro guarded
  obtain ⟨info, known⟩ := Option.isSome_iff_exists.mp (Option.isSome_of_isSome_bind guarded)
  simp only [known, Option.bind_some] at guarded ⊢
  obtain ⟨i, own⟩ := Option.isSome_iff_exists.mp (h.settlesGuarded c info known guarded)
  refine ⟨i, own, ?_⟩
  have found : t.initializer? c = some i := record.initializer?_eq (by rw [known]; exact own)
  by_contra neither
  obtain ⟨unprivileged, fields⟩ := not_or.mp neither
  obtain ⟨f, rest, listed⟩ := List.exists_cons_of_ne_nil fields
  -- The guard of the class itself is before every field.
  have guards : t.guards c f.name = true := by
    obtain ⟨names, set⟩ := Option.isSome_iff_exists.mp guarded
    obtain ⟨above, lineage⟩ := record.head
    simp [ClassTable.guards, lineage, known, set]
  simp [isBlocked, givenFields, found, unprivileged, listed, guards] at free

/-- **The guards keep the same instances from being made.** -/
theorem PlainlyBelow.isBlocked_eq (h : t.PlainlyBelow c d chain) (reachable : t.Reachable)
    (record : t.OwnRecord c) (constructible : t.Constructible c) :
    t.isBlocked d = t.isBlocked c := by
  have top : (t.info? c).isSome := Option.isSome_of_isSome_bind record.entries
  unfold isBlocked
  rw [h.initializer?_eq reachable top, h.givenFields_eq reachable top]
  cases guarded : (t.info? c).bind (·.layout.guarded) with
  | none => simp only [h.guards_eq reachable top guarded]
  | some names =>
    obtain ⟨i, own, privileged | empty⟩ := constructible (by rw [guarded]; rfl)
    · rw [record.initializer?_eq own, Option.any_some, privileged]
      rfl
    · have given : t.givenFields c = [] := by
        rw [givenFields, record.initializer?_eq own, Option.map_some, Option.getD_some, empty]
      simp only [given, List.any_nil, Bool.and_false]

/-! ### Copies of instances -/

namespace PlainlyBelow

variable (h : t.PlainlyBelow c d chain) (reachable : t.Reachable) (record : t.OwnRecord c)
  (constructible : t.Constructible c)
include h reachable record constructible

theorem accepts_eq (names : List String) :
    Instance.accepts t (t.ref d) names = Instance.accepts t (t.ref c) names := by
  have top : (t.info? c).isSome := Option.isSome_of_isSome_bind record.entries
  have blocked := h.isBlocked_eq reachable record constructible
  unfold isBlocked at blocked
  unfold Instance.accepts
  dsimp only
  rw [show (t.ref d).id = d from rfl, show (t.ref c).id = c from rfl, blocked,
    h.givenFields_eq reachable top]

/-- **A copy with one member changed** is the same, and is refused for the same reasons. -/
theorem replaced_eq (own : List (String × Value)) (name : String) (new : Value) :
    Instance.replaced t (t.ref d) own name new = Instance.replaced t (t.ref c) own name new := by
  have top : (t.info? c).isSome := Option.isSome_of_isSome_bind record.entries
  have member : ∀ n,
      t.memberOf? (t.ref d).id own .scalar n = t.memberOf? (t.ref c).id own .scalar n :=
    h.memberOf?_eq reachable top own .scalar
  have fields : t.fields? (t.ref d).id = t.fields? (t.ref c).id := h.fields?_eq reachable top
  have given : t.givenFields (t.ref d).id = t.givenFields (t.ref c).id :=
    h.givenFields_eq reachable top
  have names :
      Instance.copyNames t (t.ref d) own name = Instance.copyNames t (t.ref c) own name := by
    unfold Instance.copyNames
    simp only [fields, member, h.accepts_eq reachable record constructible]
  have values : Instance.copyValue t (t.ref d) own name new =
      Instance.copyValue t (t.ref c) own name new := by
    unfold Instance.copyValue
    simp only [member]
  unfold Instance.replaced Instance.copyWith
  rw [names, values, given]

end PlainlyBelow

end ClassTable

end EffectTrees
