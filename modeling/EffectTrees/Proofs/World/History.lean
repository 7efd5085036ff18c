import EffectTrees.Proofs.Descriptor.Slotted
import EffectTrees.Proofs.Family.Forgetting

/-!
# What a computation does to the world

Whatever a computation does, the world changes by events of three kinds (`World.Step`): a class is
asked for its slot, which it has; a class is registered, successfully or not; something is noted in
the log or among the remarks. A *history* (`World.History`) is a sequence of such events.

Computations are put together from a few that deal with the world (`Act.Made`). One that is, is
*traceable* (`Act.Traceable`): a history leads from the world that it runs in to the one that it
leaves behind, however it ends (`Act.Traceable.history`). Traceability is a class, so that it is found
by instances for whatever is put together from traceable parts; module `Proofs.World.Operations` has
the instances for the operations. What a single event preserves is therefore preserved by everything
that a program may do.
-/

namespace EffectTrees

/-! ### Events and histories -/

namespace World

/-- Registers a class in a world: the slots that have been derived so far are written down before
anything changes. -/
def register (w : World) (id : Nat) (declared : Option String) :
    World × Except RegistrationFault Unit :=
  let (t, _, r) := (w.classes.settle w.asked).register id declared
  ({ w with classes := t }, r)

/-- What may happen in a world. -/
inductive Event where
  /-- The class is asked for its slot. -/
  | ask (id : Nat)
  /-- The class is registered, perhaps with a name for its continuation, and with this outcome. -/
  | register (id : Nat) (declared : Option String) (outcome : Except RegistrationFault Unit)
  /-- Something is logged or remarked. -/
  | note

/-- **One event** in a world, and the world after it. -/
inductive Step : World → Event → World → Prop where
  | ask {w : World} {id : Nat} {s : Slot} (found : w.classes.slotOf id = .ok s) :
      Step w (.ask id) { w with asked := w.asked.add id }
  | register (w : World) (id : Nat) (declared : Option String) :
      Step w (.register id declared (w.register id declared).2) (w.register id declared).1
  | note {w w' : World} (classes : w'.classes = w.classes) (asked : w'.asked = w.asked) :
      Step w .note w'

/-- **A history**: events one after the other, oldest first. -/
inductive History : World → List Event → World → Prop where
  | nil (w : World) : History w [] w
  | cons {w w' w'' : World} {e : Event} {es : List Event} (step : Step w e w')
      (rest : History w' es w'') : History w (e :: es) w''

variable {w w' w'' : World} {es es' : List Event}

theorem Step.history {e : Event} (h : Step w e w') : History w [e] w' := .cons h (.nil w')

theorem History.append (h : History w es w') (h' : History w' es' w'') :
    History w (es ++ es') w'' := by
  induction h with
  | nil w => exact h'
  | cons step _ ih => exact .cons step (ih h')

/-- **Invariants.** What holds of a world and survives the events of a history holds at its end. -/
theorem History.invariant {P : World → Prop} (h : History w es w') (initial : P w)
    (preserved : ∀ e ∈ es, ∀ w w', Step w e w' → P w → P w') : P w' := by
  induction h with
  | nil w => exact initial
  | cons step _ ih =>
    obtain ⟨head, rest⟩ := List.forall_mem_cons.mp preserved
    exact ih (head _ _ step initial) rest

end World

open World (Event Step History)

/-! ### What computations are made of -/

theorem runIn_registerClass (c : ClassRef) (w : World) :
    (registerClass c).runIn w =
      match (w.register c.id none).2 with
      | .ok () => some (.ok (.cls c), (w.register c.id none).1)
      | .error f => some (.error (.fault (.ofRegistration f)), (w.register c.id none).1) := by
  change (match (w.register c.id none).2 with
    | .ok () => Pure.pure (.cls c)
    | .error f => Act.fail (.ofRegistration f) : Act Value).runIn (w.register c.id none).1 = _
  cases (w.register c.id none).2 <;> rfl

/-- However it ends, the class has been registered. -/
theorem eq_register_of_registerClass {c : ClassRef} {w w' : World} {r : Except Signal Value}
    (run : (registerClass c).runIn w = some (r, w')) : (w.register c.id none).1 = w' := by
  rw [runIn_registerClass] at run
  cases outcome : (w.register c.id none).2 with
  | error f => exact (by simpa [outcome] using run : _ ∧ _).2
  | ok u => exact (by simpa [outcome] using run : _ ∧ _).2

namespace Act

variable {α β : Type}

/-- **What computations are made of.** The classes are read, but nothing that is done depends on
which slots have been written down, apart from the answers to the question for a slot. -/
inductive Made : {α : Type} → Act α → Prop where
  | pure {α : Type} (x : α) : Made (Pure.pure x)
  | throw {α : Type} (s : Signal) : Made (throw s : Act α)
  | tooDeep {α : Type} : Made (tooDeep : Act α)
  | read {α : Type} {f : ClassTable → Act α} (blind : ∀ t id, f (t.forget id) = f t)
      (rest : ∀ t, Made (f t)) : Made (classes >>= f)
  | slotOf (c : ClassRef) : Made (Act.slotOf c)
  | registerClass (c : ClassRef) : Made (registerClass c)
  | remark (r : Remark) : Made (Act.remark r)
  | write (v : Value) : Made (modify fun w => { w with log := v :: w.log } : Act PUnit)
  | bind {α β : Type} {a : Act α} {f : α → Act β} (first : Made a) (rest : ∀ x, Made (f x)) :
      Made (a >>= f)
  | tryCatch {α : Type} {a : Act α} {f : Signal → Act α} (tried : Made a)
      (handled : ∀ s, Made (f s)) : Made (tryCatch a f)
  | limit {α : Type} {as : Nat → Act α} {a : Act α} (tends : Tends as a) (each : ∀ n, Made (as n)) :
      Made a

/-- However such a computation ends, a history leads to the world that it leaves behind. -/
theorem Made.history {a : Act α} (made : a.Made) {w w' : World} {r : Except Signal α}
    (run : a.runIn w = some (r, w')) : ∃ es, History w es w' := by
  induction made generalizing w w' with
  | pure x =>
    obtain ⟨-, rfl⟩ : _ ∧ w = w' := by simpa using run
    exact ⟨[], .nil w⟩
  | throw s =>
    obtain ⟨-, rfl⟩ : _ ∧ w = w' := by simpa using run
    exact ⟨[], .nil w⟩
  | tooDeep => cases run
  | read _ _ ih => exact ih w.classes run
  | slotOf c =>
    rw [runIn_slotOf] at run
    cases found : w.classes.slotOf c.id with
    | error f =>
      obtain ⟨-, rfl⟩ : _ ∧ w = w' := by simpa [found] using run
      exact ⟨[], .nil w⟩
    | ok s =>
      obtain ⟨-, rfl⟩ : _ ∧ { w with asked := w.asked.add c.id } = w' := by
        simpa [found] using run
      exact ⟨_, (Step.ask found).history⟩
  | registerClass c =>
    obtain rfl := eq_register_of_registerClass run
    exact ⟨_, (Step.register w c.id none).history⟩
  | remark made =>
    obtain ⟨-, rfl⟩ : _ ∧ { w with remarks := made :: w.remarks } = w' := by simpa using run
    exact ⟨[.note], Step.history (.note (by rfl) (by rfl))⟩
  | write v =>
    obtain rfl : { w with log := v :: w.log } = w' := (Prod.mk.inj (Option.some.inj run)).2
    exact ⟨[.note], Step.history (.note (by rfl) (by rfl))⟩
  | @bind _ _ a f _ _ first rest =>
    rw [runIn_bind] at run
    match ended : a.runIn w with
    | none => simp [ended] at run
    | some (.error s, w₁) =>
      obtain ⟨-, rfl⟩ : _ ∧ w₁ = w' := by simpa [ended] using run
      exact first ended
    | some (.ok x, w₁) =>
      rw [ended] at run
      obtain ⟨es, before⟩ := first ended
      obtain ⟨es', after⟩ := rest x run
      exact ⟨es ++ es', before.append after⟩
  | @tryCatch _ a f _ _ tried handled =>
    rw [runIn_tryCatch] at run
    match ended : a.runIn w with
    | none => simp [ended] at run
    | some (.error s, w₁) =>
      rw [ended] at run
      obtain ⟨es, before⟩ := tried ended
      obtain ⟨es', after⟩ := handled s run
      exact ⟨es ++ es', before.append after⟩
    | some (.ok x, w₁) =>
      obtain ⟨-, rfl⟩ : _ ∧ w₁ = w' := by simpa [ended] using run
      exact tried ended
  | limit tends _ ih =>
    obtain ⟨n, run⟩ := tends.exists_runIn run
    exact ih n run

end Act

/-! ### Traceable computations -/

/-- **Traceable computations.** The class of the computations that are made so, for instances to find
it. -/
class Act.Traceable {α : Type} (a : Act α) : Prop where
  made : a.Made

/-- Every call is traceable. -/
class Caller.Traceable (call : Caller) : Prop where
  call (f : Value) (args : List Value) : (call f args).Traceable

namespace Act

variable {α β : Type}

/-- However a traceable computation ends, a history leads to the world that it leaves behind. -/
theorem Traceable.history {a : Act α} [traced : a.Traceable] {w w' : World} {r : Except Signal α}
    (run : a.runIn w = some (r, w')) : ∃ es, History w es w' :=
  traced.made.history run

instance Traceable.ofCall {call : Caller} [traced : call.Traceable] (f : Value)
    (args : List Value) : (call f args).Traceable :=
  traced.call f args

instance Traceable.pure (x : α) : (Pure.pure x : Act α).Traceable := ⟨.pure x⟩

instance Traceable.throw (s : Signal) : (throw s : Act α).Traceable := ⟨.throw s⟩

instance Traceable.fail (f : Fault) : (Act.fail f : Act α).Traceable := .throw (.fault f)

instance Traceable.abort : (Act.abort : Act α).Traceable := .throw .abort

instance Traceable.wrong (f : ExprFault) : (Act.wrong f : Act α).Traceable := .fail _

instance Traceable.tooDeep : (Act.tooDeep : Act α).Traceable := ⟨.tooDeep⟩

instance Traceable.slotOf (c : ClassRef) : (Act.slotOf c).Traceable := ⟨.slotOf c⟩

instance Traceable.registerClass (c : ClassRef) : (registerClass c).Traceable := ⟨.registerClass c⟩

instance Traceable.remark (r : Remark) : (Act.remark r).Traceable := ⟨.remark r⟩

instance Traceable.bind {a : Act α} {f : α → Act β} [first : a.Traceable]
    [rest : ∀ x, (f x).Traceable] : (a >>= f).Traceable :=
  ⟨.bind first.made fun x => (rest x).made⟩

/-- The same for a continuation whose cases are still to be split. -/
theorem Traceable.andThen {a : Act α} {f : α → Act β} [a.Traceable] (rest : ∀ x, (f x).Traceable) :
    (a >>= f).Traceable := .bind

/-- The classes may be read for anything but the slots that are written down. -/
theorem Traceable.read {f : ClassTable → Act α} (blind : ∀ t id, f (t.forget id) = f t)
    (rest : ∀ t, (f t).Traceable) : (classes >>= f).Traceable :=
  ⟨.read blind fun t => (rest t).made⟩

instance Traceable.tryCatch {a : Act α} {f : Signal → Act α} [tried : a.Traceable]
    [handled : ∀ s, (f s).Traceable] : (tryCatch a f).Traceable :=
  ⟨.tryCatch tried.made fun s => (handled s).made⟩

instance Traceable.ite {p : Prop} [Decidable p] {a b : Act α} [a.Traceable] [b.Traceable] :
    (if p then a else b).Traceable := by
  split <;> infer_instance

instance Traceable.map {a : Act α} [a.Traceable] (f : α → β) : (f <$> a).Traceable := by
  rw [map_eq_pure_bind]
  infer_instance

instance Traceable.discard {a : Act α} [a.Traceable] : (discard a).Traceable :=
  .map _

instance Traceable.mapM {γ : Type} {f : γ → Act β} [each : ∀ x, (f x).Traceable] (xs : List γ) :
    (xs.mapM f).Traceable := by
  induction xs with
  | nil => exact .pure []
  | cons x xs ih =>
    rw [List.mapM_cons]
    infer_instance

instance Traceable.forM {γ : Type} {f : γ → Act PUnit} [each : ∀ x, (f x).Traceable] (xs : List γ) :
    (xs.forM f).Traceable := by
  induction xs with
  | nil => exact .pure ()
  | cons x xs ih => exact .bind

instance Traceable.probe {a : Act Value} [a.Traceable] : (EffectTrees.probe a).Traceable := by
  have handler : ∀ s : Signal, (match s with
      | .abort => Pure.pure none
      | .fault f => Act.fail f : Act (Option Value)).Traceable := fun s => by
    cases s <;> infer_instance
  exact .tryCatch

instance Traceable.ofFault (r : Except Fault α) : (Act.ofFault r).Traceable := by
  unfold Act.ofFault
  cases r <;> infer_instance

instance Traceable.ofSignal (r : Except Signal α) : (Act.ofSignal r).Traceable := by
  unfold Act.ofSignal
  cases r <;> infer_instance

instance Traceable.log (v : Value) : (Act.log v).Traceable := by
  have written : ∀ shown : Value,
      (modify fun w : World => { w with log := shown :: w.log } : Act PUnit).Traceable := fun shown =>
    ⟨.write shown⟩
  unfold Act.log
  exact .read (fun t id => by rw [v.display_forget]) fun t => inferInstance

end Act

end EffectTrees
