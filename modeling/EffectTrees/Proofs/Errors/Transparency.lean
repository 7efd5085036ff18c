import EffectTrees.Proofs.Act.Ending
import EffectTrees.Proofs.Depth.Limit

/-!
# Faults pass

The operations of the library call functions that are not its own, and such a call may end by a
fault. No operation does anything about it: it ends by the same fault, in the world that the call
left behind.

To say so one has to say which calls an operation makes. Operations take the meaning of calls as an
argument, so this can be told from outside: what an operation comes to `DependsOn` a call if it is
another under a caller that differs in that one call. An operation also calls functions of its own,
the frames, so it `Invokes` what a frame invokes that it depends on.

An operation that has no way to notice a fault is *faithful* (`Faithful`): if two callers are alike
but where a call ends by a certain fault, so is the operation. This comparison is a congruence, so
all operations are faithful. The main statement is `Faithful.fault_passes`: if a faithful operation
invokes a call that ends by a fault, then the operation ends by that fault.
-/

namespace EffectTrees

open Machine (limit)

variable {e : Fault × World}

namespace Act

variable {α β : Type} {a a' : Act α}

/-- The two computations run alike, but where the second one ends by this fault in this world. -/
def AlikeBut (e : Fault × World) (a' a : Act α) : Prop :=
  ∀ w, a'.runIn w = a.runIn w ∨ a.runIn w = some (.error (.fault e.1), e.2)

theorem AlikeBut.bind {f f' : α → Act β} (ha : AlikeBut e a' a)
    (hf : ∀ x, AlikeBut e (f' x) (f x)) : AlikeBut e (a' >>= f') (a >>= f) := by
  intro w
  rw [runIn_bind, runIn_bind]
  rcases ha w with same | fault
  · rw [same]
    match a.runIn w with
    | none => exact .inl rfl
    | some (.error s, w') => exact .inl rfl
    | some (.ok x, w') => exact hf x w'
  · rw [fault]
    exact .inr rfl

/-- A probation notices aborts, but no faults. -/
theorem AlikeBut.probe {a a' : Act Value} (ha : AlikeBut e a' a) :
    AlikeBut e (probe a') (probe a) := by
  intro w
  rcases ha w with same | fault
  · rw [runIn_probe, runIn_probe, same]
    exact .inl rfl
  · exact .inr (runIn_probe_fault fault)

/-- To be alike but for a fault is a congruence. -/
def alikeness (e : Fault × World) : Congruence Unit where
  Rel as a := AlikeBut e (as ()) a
  const _ := fun _ => .inl rfl
  seq ha hf := ha.bind hf
  probation ha := ha.probe

end Act

/-- The two callers agree on all calls in all worlds, but for one call in one world. -/
def Caller.AgreeBut (g : Value) (args : List Value) (w : World) (c' c : Caller) : Prop :=
  ∀ f xs w', (f = g ∧ xs = args ∧ w' = w) ∨ (c' f xs).runIn w' = (c f xs).runIn w'

/-- An operation, under any meaning of calls. -/
abbrev Operating := Caller → Act Value

variable {op : Operating} {w w₁ w₂ : World} {g v : Value} {args : List Value} {f : Fault}

/-- From the world `w`, what the operation comes to depends on what the call of `g` comes to in the
world `w₁`. -/
def DependsOn (op : Operating) (w : World) (g : Value) (args : List Value) (w₁ : World) : Prop :=
  ∃ c', c'.AgreeBut g args w₁ limit ∧ (op c').runIn w ≠ (op limit).runIn w

open Classical in
/-- The caller that does not end on this one call in this world, and is otherwise as given. -/
noncomputable def Caller.stuckAt (c : Caller) (g : Value) (args : List Value) (w₁ : World) : Caller :=
  fun f xs => ExceptT.mk fun w => if f = g ∧ xs = args ∧ w = w₁ then none else (c f xs).runIn w

theorem Caller.runIn_stuckAt (c : Caller) (g : Value) (args : List Value) (w₁ : World) :
    (c.stuckAt g args w₁ g args).runIn w₁ = none :=
  if_pos ⟨rfl, rfl, rfl⟩

theorem Caller.stuckAt_of_ne (c : Caller) {xs args : List Value} (h : xs ≠ args) (g f : Value)
    (w₁ : World) : c.stuckAt g args w₁ f xs = c f xs :=
  Act.ext_runIn fun _ => if_neg fun same => h same.2.1

/-- An operation that ends cannot hide its calls: it does not end if one of them does not. -/
theorem dependsOn_of_stuck (stuck : (op (limit.stuckAt g args w₁)).runIn w = none)
    (ends : (op limit).runIn w ≠ none) : DependsOn op w g args w₁ := by
  refine ⟨limit.stuckAt g args w₁, fun f xs w' => ?_, fun same => ends (same ▸ stuck)⟩
  by_cases h : f = g ∧ xs = args ∧ w' = w₁
  · exact .inl h
  · exact .inr (if_neg h)

/-- **The calls that an operation makes**, from the world `w`: the operation calls `g` in the world
`w₁`, or it calls a frame that does. -/
inductive Invokes : Operating → World → Value → List Value → World → Prop where
  | direct {op : Operating} {w w₁ : World} {g : Value} {args : List Value}
      (depends : DependsOn op w g args w₁) : Invokes op w g args w₁
  | within {op : Operating} {w w' w₁ : World} {k : Frame} {v g : Value} {args : List Value}
      (depends : DependsOn op w (.frame k) [v] w') (inner : Invokes (k.run · v) w' g args w₁) :
      Invokes op w g args w₁

/-- **The operation notices no fault**: whatever the fault and the world, it is alike under callers
that are alike but where a call ends so. -/
def Faithful (op : Operating) : Prop :=
  ∀ e c' c, (Act.alikeness e).Callers (fun _ => c') c → (op c').AlikeBut e (op c)

theorem Frame.faithful_run (k : Frame) (v : Value) : Faithful (k.run · v) :=
  fun _ _ _ hc => k.respects_run hc v

/-- If the outcome depends on a call that ends by a fault, the fault is the outcome. -/
theorem Faithful.of_dependsOn (faithful : Faithful op) (depends : DependsOn op w g args w₁)
    (fault : (limit g args).runIn w₁ = some (.error (.fault f), w₂)) :
    (op limit).runIn w = some (.error (.fault f), w₂) := by
  obtain ⟨c', agree, differs⟩ := depends
  have alike : (Act.alikeness (f, w₂)).Callers (fun _ => c') limit := by
    intro h xs w'
    rcases agree h xs w' with ⟨rfl, rfl, rfl⟩ | same
    · exact .inr fault
    · exact .inl same
  exact (faithful _ _ _ alike w).resolve_left differs

/-- **Faults pass.** If an operation invokes a call that ends by a fault, it ends by that fault. The
induction is on the frames through which the call is invoked. -/
theorem Faithful.fault_passes (faithful : Faithful op) (invokes : Invokes op w g args w₁)
    (fault : (limit g args).runIn w₁ = some (.error (.fault f), w₂)) :
    (op limit).runIn w = some (.error (.fault f), w₂) := by
  induction invokes with
  | direct depends => exact faithful.of_dependsOn depends fault
  | @within op w w' w₁ k v g args depends _ ih =>
    refine faithful.of_dependsOn depends ?_
    rw [Machine.limit_frame]
    exact ih (k.faithful_run v) fault

end EffectTrees
