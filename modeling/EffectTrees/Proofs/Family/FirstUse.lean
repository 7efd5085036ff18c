import EffectTrees.Proofs.Family.SubclassSlot
import EffectTrees.Proofs.World.Operations

/-!
# The first use of a plain subclass

Asked for its slot for the first time, a plain subclass has it derived, and this is noted. The note is
not without consequence: at the next registration the slot is written down, so the classes differ from
what they were without the note. But nobody can tell, since the slot that is written down is the one
that would be derived.

* `World.SameBut` — the worlds are the same but for what is noted of the constructor and of its
  subclass.
* `ClassTable.Abreast` — two such worlds, in both of which nothing has happened that matters for the
  slot of the subclass.
* `Act.Made.keepsAbreast` — what ends in the one world ends alike in the other, and two such worlds
  are left behind. The exception is a computation that registers one of the classes on the way: it
  leaves that class marked for good (`ClassTable.Decorated`). There is one lemma for each way to make a
  computation.
-/

namespace EffectTrees

open World (Event Step History)

/-! ### Registering next to a forgotten slot -/

namespace ClassTable

variable {t t' u u' : ClassTable} {c d id k : Nat} {chain : List Nat} {declared : Option String}
  {s : Slot}

theorem ext_info? (shared : t'.shared = t.shared) (bound : t'.bound = t.bound)
    (infos : ∀ k, t'.info? k = t.info? k) : t' = t := by
  obtain ⟨classes, _, _⟩ := t
  obtain ⟨classes', _, _⟩ := t'
  obtain rfl := shared
  obtain rfl := bound
  obtain rfl : classes' = classes := List.ext_getElem? infos
  rfl

/-- Tables that differ in the slot of one class have the other classes in common. -/
theorem info?_eq_of_forget (same : t'.forget d = t.forget d) (other : k ≠ d) :
    t'.info? k = t.info? k := by
  have infos := congrArg (info? · k) same
  simpa [info?_forget, Ne.symm other] using infos

theorem forget_eq_of_info? (shared : t'.shared = t.shared) (bound : t'.bound = t.bound)
    (others : ∀ k, k ≠ d → t'.info? k = t.info? k)
    (itself : ((t'.info? d).map fun c => { c with slot := none }) =
      (t.info? d).map fun c => { c with slot := none }) : t'.forget d = t.forget d := by
  refine ext_info? shared bound fun k => ?_
  rw [info?_forget, info?_forget]
  split
  · next same =>
    subst same
    exact itself
  · next other => exact others k (Ne.symm other)

theorem sameDeclared_forget (t : ClassTable) (d : Nat) : SameDeclared t (t.forget d) :=
  ⟨fun k => t.map_info?_forget d k ClassInfo.core fun _ => rfl, rfl, rfl⟩

theorem deriveSlot_forget (t : ClassTable) (d k : Nat) (declared : Option String) :
    (t.forget d).deriveSlot k declared = t.deriveSlot k declared :=
  (t.sameDeclared_forget d).deriveSlot_eq (t.fields?_forget d k) declared

theorem slotOf_forget (t : ClassTable) (other : k ≠ d) : (t.forget d).slotOf k = t.slotOf k := by
  unfold slotOf
  rw [info?_forget, if_neg (Ne.symm other), ref_forget, isRecord_forget, deriveSlot_forget]

theorem update_forget (t : ClassTable) (f : ClassInfo → ClassInfo) (other : k ≠ d) :
    (t.forget d).update k f = (t.update k f).forget d := by
  refine ext_info? rfl rfl fun j => ?_
  rw [info?_update, info?_forget, info?_forget, info?_update]
  by_cases same : k = j
  · subst same
    rw [if_pos rfl, if_pos rfl, if_neg (Ne.symm other), if_neg (Ne.symm other)]
  · rw [if_neg same, if_neg same]

/-- Another class is made a record in the same way. -/
theorem makeRecord_forget (t : ClassTable) (frozen : Bool) (other : k ≠ d) :
    (t.forget d).makeRecord k frozen =
      ((t.makeRecord k frozen).1.forget d, (t.makeRecord k frozen).2) := by
  have field : (t.forget d).fieldOf k = t.fieldOf k := by
    funext written
    simp only [fieldOf, attribute?_forget]
  have entries : ∀ info, (t.forget d).entriesOf k info = t.entriesOf k info := fun info => by
    simp only [entriesOf, recordAncestors, lineage_forget, isRecord_forget, entries?_forget, field]
  have attributes : ∀ info, (t.forget d).settledAttributes k info = t.settledAttributes k info :=
    fun info => by simp only [settledAttributes, attribute?_forget]
  have fits : (t.forget d).fitsAncestors k frozen = t.fitsAncestors k frozen := by
    simp only [fitsAncestors, recordAncestors, lineage_forget, isRecord_forget, isFrozen_forget]
  unfold makeRecord
  rw [info?_forget, if_neg (Ne.symm other)]
  cases t.info? k with
  | none => rfl
  | some info =>
    simp only [entries, attributes, fits, setLayout, update_forget _ _ other]
    split_ifs <;> rfl

theorem ensureRecord_forget (t : ClassTable) (other : k ≠ d) :
    (t.forget d).ensureRecord k =
      ((t.ensureRecord k).1.forget d, (t.ensureRecord k).2) := by
  unfold ensureRecord
  rw [info?_forget, if_neg (Ne.symm other)]
  cases (t.info? k).bind (·.layout.entries) with
  | none => simp only [makeRecord_forget t true other]
  | some entries => simp only [isFrozen_forget, ref_forget]

/-- **Another class is registered in the same way.** -/
theorem register_forget (t : ClassTable) (declared : Option String) (other : k ≠ d) :
    (t.forget d).register k declared =
      ((t.register k declared).1.forget d, (t.register k declared).2) := by
  unfold register
  simp only [ref_forget, ensureRecord_forget t other, deriveSlot_forget]
  split_ifs
  · rfl
  · rfl
  · split
    · rfl
    · simp only [update_forget _ _ other]

/-! ### Classes that have been decorated -/

/-- A decorator has been applied to the class, whatever came of it. -/
def Decorated (t : ClassTable) (k : Nat) : Prop := ((t.info? k).bind (·.layout.frozen)).isSome

theorem decorated_makeRecord (known : (t.info? k).isSome) (frozen : Bool) :
    (t.makeRecord k frozen).1.Decorated k := by
  obtain ⟨info, known⟩ := Option.isSome_iff_exists.mp known
  unfold Decorated makeRecord
  rw [known]
  dsimp only
  split_ifs <;> simp [setLayout, info?_update, Layout.guard, Layout.complete, known]

theorem Decorated.of_layout (h : t.Decorated k) (same : SameLayout t t' k) : t'.Decorated k := by
  unfold Decorated
  rw [same.bind Layout.frozen]
  exact h

theorem Decorated.isSome (h : t.Decorated k) : (t.info? k).isSome := Option.isSome_of_isSome_bind h

theorem Decorated.ensureRecord (h : t.Decorated k) (id : Nat) : (t.ensureRecord id).1.Decorated k := by
  by_cases same : k = id
  · subst same
    unfold ClassTable.ensureRecord
    split
    · exact decorated_makeRecord h.isSome true
    · exact h
  · unfold Decorated
    rw [t.info?_ensureRecord_of_ne same]
    exact h

theorem Decorated.register (h : t.Decorated k) {r : Except RegistrationFault Unit}
    (registers : t.Registers id declared t' r) : t'.Decorated k := by
  cases registers with
  | notEffect _ => exact h
  | notRecord _ _ | refused _ _ _ => exact h.ensureRecord id
  | derived _ _ _ => exact (h.ensureRecord id).of_layout (sameLayout_assign _ id _ k)

/-- What has been decorated stays so. -/
theorem Decorated.history {w w' : World} {es : List Event} (h : w.classes.Decorated k)
    (history : History w es w') : w'.classes.Decorated k := by
  refine history.invariant (P := fun w => w.classes.Decorated k) h fun _ _ _ _ step before => ?_
  cases step with
  | ask _ => exact before
  | register id declared =>
    exact (before.of_layout (sameLayout_settle _ _ k)).register (registers _ id declared)
  | note classes _ => rwa [classes]

/-- To register a plain subclass of a constructor decorates it. -/
theorem Continues.decorated (continues : Continues t u c d chain s)
    (registered : t.Registered c declared s) (mem : k ∈ chain) {other : Option String}
    {r : Except RegistrationFault Unit} (registers : u.Registers k other u' r) : u'.Decorated k := by
  obtain ⟨info, p, known, plain⟩ := continues.plain.exists_plain k mem
  have still := continues.registered registered
  obtain ⟨chain', below⟩ := continues.plain.exists_chain k mem
  have effect : (u.ref k).isEffect = true :=
    below.isA_of_top continues.reachable still.isSome still.effect
  have made : (u.ensureRecord k).1.Decorated k := by
    unfold ensureRecord
    rw [known, Option.bind_some, plain.layout]
    exact decorated_makeRecord (by rw [known]; rfl) true
  cases registers with
  | notEffect other => simp [effect] at other
  | notRecord _ _ | refused _ _ _ => exact made
  | derived _ _ _ => exact made.of_layout (sameLayout_assign _ k _ k)

theorem Continues.not_decorated (continues : Continues t u c d chain s) (mem : k ∈ chain) :
    ¬ u.Decorated k := by
  obtain ⟨info, p, known, plain⟩ := continues.plain.exists_plain k mem
  simp [Decorated, known, plain.layout, Layout.unsettled]

end ClassTable

/-! ### Worlds side by side -/

/-- **The worlds are the same but for what is noted of two classes**: which of the two have been asked
for their slot, and whether the slot of the second one has been written down. -/
structure World.SameBut (c d : Nat) (w w' : World) : Prop where
  classes : w'.classes.forget d = w.classes.forget d
  slot : w'.classes.slotOf d = w.classes.slotOf d
  asked : ∀ k, k ≠ c → k ≠ d → w'.asked k = w.asked k
  log : w'.log = w.log
  remarks : w'.remarks = w.remarks

namespace World.SameBut

variable {c d : Nat} {w w' w'' : World}

theorem refl (w : World) : w.SameBut c d w := ⟨rfl, rfl, fun _ _ _ => rfl, rfl, rfl⟩

theorem symm (h : w.SameBut c d w') : w'.SameBut c d w :=
  ⟨h.classes.symm, h.slot.symm, fun k top below => (h.asked k top below).symm, h.log.symm,
    h.remarks.symm⟩

theorem trans (h : w.SameBut c d w') (h' : w'.SameBut c d w'') : w.SameBut c d w'' :=
  ⟨h'.classes.trans h.classes, h'.slot.trans h.slot,
    fun k top below => (h'.asked k top below).trans (h.asked k top below), h'.log.trans h.log,
    h'.remarks.trans h.remarks⟩

/-- To ask one of the two for its slot makes no difference. -/
theorem ask (w : World) {k : Nat} (mem : k = c ∨ k = d) :
    w.SameBut c d { w with asked := w.asked.add k } := by
  refine ⟨rfl, rfl, fun j top below => ?_, rfl, rfl⟩
  have other : j ≠ k := by rintro rfl; exact mem.elim top below
  simp [Consultations.add_apply, other]

/-- All classes have the same slots. -/
theorem slotOf_eq (h : w.SameBut c d w') (k : Nat) : w'.classes.slotOf k = w.classes.slotOf k := by
  by_cases itself : k = d
  · rw [itself, h.slot]
  · rw [← ClassTable.slotOf_forget _ itself, h.classes, ClassTable.slotOf_forget _ itself]

/-- What is read without the slots is the same. -/
theorem read_eq {α : Type} (h : w.SameBut c d w') {f : ClassTable → α}
    (blind : ∀ t id, f (t.forget id) = f t) : f w'.classes = f w.classes := by
  rw [← blind _ d, h.classes, blind]

/-- A class is asked in both. -/
theorem both_ask (h : w.SameBut c d w') (k : Nat) :
    { w with asked := w.asked.add k }.SameBut c d { w' with asked := w'.asked.add k } := by
  refine ⟨h.classes, h.slot, fun j top below => ?_, h.log, h.remarks⟩
  simp [Consultations.add_apply, h.asked j top below]

end World.SameBut

namespace ClassTable

variable {t : ClassTable} {c d : Nat} {chain : List Nat} {declared : Option String} {s : Slot}

/-- **Worlds side by side**: they are the same but for what is noted of the two classes, and in both
nothing has happened that matters for the slot of the subclass. -/
structure Abreast (t : ClassTable) (c d : Nat) (chain : List Nat) (s : Slot) (w w' : World) :
    Prop where
  left : Continues t w.classes c d chain s
  right : Continues t w'.classes c d chain s
  same : w.SameBut c d w'

namespace Abreast

variable {w w' : World}

theorem symm (h : Abreast t c d chain s w w') : Abreast t c d chain s w' w :=
  ⟨h.right, h.left, h.same.symm⟩

/-- The slots that are written down are the same, but for that of the subclass. -/
theorem settle (h : Abreast t c d chain s w w') :
    (w'.classes.settle w'.asked).forget d = (w.classes.settle w.asked).forget d := by
  have slots := h.same.slotOf_eq
  have shared := congrArg ClassTable.shared h.same.classes
  have bound := congrArg ClassTable.bound h.same.classes
  refine forget_eq_of_info? shared bound (fun k other => ?_) ?_
  · have same := info?_eq_of_forget h.same.classes other
    rw [info?_settle, info?_settle, same, slots k]
    by_cases top : k = c
    -- The slot of the constructor has been written down already.
    · subst top
      obtain ⟨info, known, slot⟩ := Option.bind_eq_some_iff.mp h.left.kept
      simp [known, slot]
    · rw [h.same.asked k top other]
  · have forgotten : ∀ (u : ClassTable) (asked : Consultations),
        (((u.settle asked).info? d).map fun c => { c with slot := none }) =
          (u.info? d).map fun c => { c with slot := none } := fun u asked => by
      rw [info?_settle, Option.map_map]
      refine congrFun (congrArg Option.map (funext fun c => ?_)) _
      dsimp only [Function.comp_apply]
      split <;> rfl
    have infos := congrArg (info? · d) h.same.classes
    rw [forgotten, forgotten]
    simpa [info?_forget] using infos

/-- **A class is registered in both**, with the same outcome. -/
theorem register (h : Abreast t c d chain s w w') (registered : t.Registered c declared s) {k : Nat}
    (apart : k ∉ chain) (other : Option String) :
    (w'.register k other).2 = (w.register k other).2 ∧
      Abreast t c d chain s (w.register k other).1 (w'.register k other).1 := by
  have below : k ≠ d := fun same => apart (same ▸ h.left.plain.mem_chain)
  have alike : ((w'.classes.settle w'.asked).forget d).register k other =
      ((w.classes.settle w.asked).forget d).register k other := by rw [h.settle]
  rw [register_forget _ _ below, register_forget _ _ below] at alike
  obtain ⟨classes, outcome⟩ := Prod.mk.inj alike
  have left := (h.left.settle registered w.asked).register registered
    (registers _ k other) apart
  have right := (h.right.settle registered w'.asked).register registered
    (registers _ k other) apart
  have ends := congrArg Prod.snd outcome
  refine ⟨ends, left, right, classes, ?_, h.same.asked, h.same.log, h.same.remarks⟩
  exact (right.slotOf_eq registered).trans (left.slotOf_eq registered).symm

end Abreast

end ClassTable

/-! ### Computations side by side -/

namespace Act

open ClassTable (Abreast Continues)

variable {t : ClassTable} {c d : Nat} {chain : List Nat} {declared : Option String} {s : Slot}
  {α β : Type}

/-- **What ends in the one world ends alike in the other**, and leaves two such worlds behind, unless a
class on the way has been decorated by then. -/
def KeepsAbreast (t : ClassTable) (c d : Nat) (chain : List Nat) (s : Slot) (a : Act α) : Prop :=
  ∀ ⦃w₁ w₂ w₁' : World⦄ ⦃r : Except Signal α⦄, Abreast t c d chain s w₁ w₂ →
    a.runIn w₁ = some (r, w₁') → (∃ k ∈ chain, w₁'.classes.Decorated k) ∨
      ∃ w₂', a.runIn w₂ = some (r, w₂') ∧ Abreast t c d chain s w₁' w₂'

namespace KeepsAbreast

/-- A computation that ends in the same way from both worlds. -/
theorem of_ends {a : Act α} (ends : ∀ w₁ w₂, Abreast t c d chain s w₁ w₂ → ∃ r w₁' w₂',
    a.runIn w₁ = some (r, w₁') ∧ a.runIn w₂ = some (r, w₂') ∧ Abreast t c d chain s w₁' w₂') :
    a.KeepsAbreast t c d chain s := by
  intro w₁ w₂ w₁' r h run
  obtain ⟨_, _, w₂', run', other, after⟩ := ends w₁ w₂ h
  obtain ⟨rfl, rfl⟩ := Prod.mk.inj (Option.some.inj (run'.symm.trans run))
  exact .inr ⟨w₂', other, after⟩

theorem slotOf (k : ClassRef) : (Act.slotOf k).KeepsAbreast t c d chain s := by
  refine of_ends fun w₁ w₂ h => ?_
  rw [runIn_slotOf, runIn_slotOf, h.same.slotOf_eq]
  cases w₁.classes.slotOf k.id with
  | error f => exact ⟨_, w₁, w₂, rfl, rfl, h⟩
  | ok s => exact ⟨_, _, _, rfl, rfl, h.left, h.right, h.same.both_ask k.id⟩

theorem registerClass (registered : t.Registered c declared s) (k : ClassRef) :
    (EffectTrees.registerClass k).KeepsAbreast t c d chain s := by
  by_cases mem : k.id ∈ chain
  · intro w₁ w₂ w₁' r h run
    obtain rfl := eq_register_of_registerClass run
    exact .inl ⟨k.id, mem, (h.left.settle registered w₁.asked).decorated registered mem
      (ClassTable.registers _ k.id none)⟩
  · refine of_ends fun w₁ w₂ h => ?_
    obtain ⟨outcome, after⟩ := h.register registered mem none
    rw [runIn_registerClass, runIn_registerClass, outcome]
    cases (w₁.register k.id none).2 with
    | error f => exact ⟨_, _, _, rfl, rfl, after⟩
    | ok u => exact ⟨_, _, _, rfl, rfl, after⟩

theorem remark (r : Remark) : (Act.remark r).KeepsAbreast t c d chain s :=
  of_ends fun w₁ w₂ h => ⟨.ok (), { w₁ with remarks := r :: w₁.remarks },
    { w₂ with remarks := r :: w₂.remarks }, rfl, rfl, h.left, h.right, h.same.classes, h.same.slot,
    h.same.asked, h.same.log, congrArg (r :: ·) h.same.remarks⟩

theorem write (v : Value) :
    (modify fun w => { w with log := v :: w.log } : Act PUnit).KeepsAbreast t c d chain s :=
  of_ends fun w₁ w₂ h => ⟨.ok (), { w₁ with log := v :: w₁.log }, { w₂ with log := v :: w₂.log },
    rfl, rfl, h.left, h.right, h.same.classes, h.same.slot, h.same.asked,
    congrArg (v :: ·) h.same.log, h.same.remarks⟩

theorem read {f : ClassTable → Act α} (blind : ∀ t id, f (t.forget id) = f t)
    (rest : ∀ u, (f u).KeepsAbreast t c d chain s) :
    (classes >>= f).KeepsAbreast t c d chain s := by
  intro w₁ w₂ w₁' r h run
  have same : f w₂.classes = f w₁.classes := h.same.read_eq blind
  rw [runIn_bind, runIn_classes] at run ⊢
  dsimp only at run ⊢
  rw [same]
  exact rest w₁.classes h run

/-- A class that is decorated early is decorated late. -/
theorem bind {a : Act α} {f : α → Act β} (first : a.KeepsAbreast t c d chain s)
    (made : ∀ x, (f x).Made) (rest : ∀ x, (f x).KeepsAbreast t c d chain s) :
    (a >>= f).KeepsAbreast t c d chain s := by
  intro w₁ w₂ w₁' r h run
  rw [runIn_bind] at run ⊢
  match ended : a.runIn w₁ with
  | none => simp [ended] at run
  | some (.error fault, w) =>
    obtain ⟨rfl, rfl⟩ : _ ∧ w = w₁' := by simpa [ended] using run
    refine (first h ended).imp_right fun ⟨w₂', other, after⟩ => ⟨w₂', ?_, after⟩
    rw [other]
  | some (.ok x, w) =>
    rw [ended] at run
    rcases first h ended with ⟨k, mem, decorated⟩ | ⟨w', other, between⟩
    · obtain ⟨es, history⟩ := (made x).history run
      exact .inl ⟨k, mem, decorated.history history⟩
    · rw [other]
      exact rest x between run

theorem tryCatch {a : Act α} {f : Signal → Act α} (tried : a.KeepsAbreast t c d chain s)
    (made : ∀ fault, (f fault).Made) (handled : ∀ fault, (f fault).KeepsAbreast t c d chain s) :
    (tryCatch a f).KeepsAbreast t c d chain s := by
  intro w₁ w₂ w₁' r h run
  rw [runIn_tryCatch] at run ⊢
  match ended : a.runIn w₁ with
  | none => simp [ended] at run
  | some (.error fault, w) =>
    rw [ended] at run
    rcases tried h ended with ⟨k, mem, decorated⟩ | ⟨w', other, between⟩
    · obtain ⟨es, history⟩ := (made fault).history run
      exact .inl ⟨k, mem, decorated.history history⟩
    · rw [other]
      exact handled fault between run
  | some (.ok x, w) =>
    obtain ⟨rfl, rfl⟩ : _ ∧ w = w₁' := by simpa [ended] using run
    refine (tried h ended).imp_right fun ⟨w₂', other, after⟩ => ⟨w₂', ?_, after⟩
    rw [other]

/-- A computation without a bound keeps them abreast if it does so within each depth. -/
theorem limit {as : Nat → Act α} {a : Act α} (tends : Tends as a)
    (each : ∀ n, (as n).KeepsAbreast t c d chain s) : a.KeepsAbreast t c d chain s := by
  intro w₁ w₂ w₁' r h run
  obtain ⟨n, run⟩ := tends.exists_runIn run
  exact (each n h run).imp_right fun ⟨w₂', other, after⟩ => ⟨w₂', tends.runIn_limit other, after⟩

end KeepsAbreast

/-- **Whatever a computation does**, nobody can tell whether the subclass has been asked for its slot
before. -/
theorem Made.keepsAbreast {a : Act α} (made : a.Made) (registered : t.Registered c declared s) :
    a.KeepsAbreast t c d chain s := by
  induction made with
  | pure x => exact .of_ends fun w₁ w₂ h => ⟨_, w₁, w₂, rfl, rfl, h⟩
  | throw fault => exact .of_ends fun w₁ w₂ h => ⟨_, w₁, w₂, rfl, rfl, h⟩
  | tooDeep =>
    intro w₁ w₂ w₁' r h run
    cases run
  | read blind _ rest => exact .read blind rest
  | slotOf k => exact .slotOf k
  | registerClass k => exact .registerClass registered k
  | remark r => exact .remark r
  | write v => exact .write v
  | bind _ made first rest => exact .bind first made rest
  | tryCatch _ made tried handled => exact .tryCatch tried made handled
  | limit tends _ each => exact .limit tends each

/-- If the classes on the way are still plain at its end, it ends alike in the other world. -/
theorem Made.follows {a : Act α} (made : a.Made) (registered : t.Registered c declared s)
    {w₁ w₂ : World} {x : Except Signal α × World} (h : Abreast t c d chain s w₁ w₂)
    (run : a.runIn w₁ = some x) (continues : Continues t x.2.classes c d chain s) :
    ∃ y, a.runIn w₂ = some y ∧ y.1 = x.1 ∧ Abreast t c d chain s x.2 y.2 := by
  rcases made.keepsAbreast registered h run with ⟨k, mem, decorated⟩ | ⟨w₂', other, after⟩
  · exact absurd decorated (continues.not_decorated mem)
  · exact ⟨(x.1, w₂'), other, rfl, after⟩

end Act

end EffectTrees
