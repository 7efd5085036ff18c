import EffectTrees.Proofs.Analysis.Recursion
import EffectTrees.Proofs.World.Operations

/-!
# Where an analysis fails

An analysis that starts at a tree comes by other trees: `Analysis.Reaches` says which, and in which
world it comes by them. If it fails, it fails at one of them, for a reason to be found there
(`Analysis.FailsAt`): the content of a finished tree fails, or the erasure of a descriptor, or the step
to what follows, or there is no tree at all. The converse holds too, so that the faults of an analysis
are those of the trees that it comes by (`Analysis.runIn_analyze_fault_iff`).

On its way the analysis runs callbacks, which may change the world; a history leads to the world in
which it comes by a tree (`Analysis.Reaches.history`).
-/

namespace EffectTrees

open Machine (limit)

namespace Analysis

variable {stepper node node' : Value} {w w' w'' : World} {f : Fault}

/-- **What an analysis comes by**: from the first tree, in the first world, it gets to the second
tree, in the second world. -/
inductive Reaches (stepper : Value) : World → Value → World → Value → Prop where
  | here (w : World) (node : Value) : Reaches stepper w node w node
  | step {d e next node : Value} {w w₁ w₂ w' : World}
      (erased : (erase limit d).runIn w = some (.ok e, w₁))
      (stepped : (limit stepper [d]).Gives w₁ next w₂) (rest : Reaches stepper w₂ next w' node) :
      Reaches stepper w (.tree (.suspended d)) w' node

/-- **What is wrong at a tree**: the fault that an analysis ends with there, and the world that it
leaves behind. -/
inductive FailsAt (stepper : Value) : World → Value → Fault → World → Prop where
  | payload {p : Payload} {w w' : World} {f : Fault}
      (forced : (p.force limit).runIn w = some (.error (.fault f), w')) :
      FailsAt stepper w (.tree (.done p)) f w'
  | erase {d : Value} {w w' : World} {f : Fault}
      (erased : (erase limit d).runIn w = some (.error (.fault f), w')) :
      FailsAt stepper w (.tree (.suspended d)) f w'
  | step {d e : Value} {w w₁ w' : World} {f : Fault}
      (erased : (EffectTrees.erase limit d).runIn w = some (.ok e, w₁))
      (stepped : (limit stepper [d]).runIn w₁ = some (.error (.fault f), w')) :
      FailsAt stepper w (.tree (.suspended d)) f w'
  | noTree {v : Value} {w : World} {text : Option String} (other : ∀ t, v ≠ .tree t)
      (written : v.write w.classes true = .ok text) :
      FailsAt stepper w v (.refused .tree text) w
  | noText {v : Value} {w : World} {f : Fault} (other : ∀ t, v ≠ .tree t)
      (written : v.write w.classes true = .error f) : FailsAt stepper w v f w

/-- The world changes on the way as a history says. -/
theorem Reaches.history (h : Reaches stepper w node w' node') : ∃ es, w.History es w' := by
  induction h with
  | here w node => exact ⟨[], .nil w⟩
  | step erased stepped _ ih =>
    obtain ⟨es, first⟩ := Act.Traceable.history erased
    obtain ⟨es', second⟩ := Act.Traceable.history stepped.1
    obtain ⟨es'', rest⟩ := ih
    exact ⟨es ++ (es' ++ es''), first.append (second.append rest)⟩

/-- The recursion fails where something is wrong. -/
theorem FailsAt.recurses (h : FailsAt stepper w node f w') :
    ∃ calls, Recurses stepper node w calls (.error f) w' := by
  cases h with
  | payload forced => exact ⟨_, .payloadFault forced⟩
  | erase erased => exact ⟨_, .eraseFault erased⟩
  | step erased stepped => exact ⟨_, .stepFault erased stepped⟩
  | noTree other written => exact ⟨_, .noTree other written⟩
  | noText other written => exact ⟨_, .noText other written⟩

/-- What is wrong with a tree that the recursion comes by is wrong with the whole. -/
theorem Reaches.recurses (h : Reaches stepper w node w' node') {calls : List Callback}
    (fails : Recurses stepper node' w' calls (.error f) w'') :
    ∃ calls', Recurses stepper node w calls' (.error f) w'' := by
  induction h with
  | here w node => exact ⟨calls, fails⟩
  | step erased stepped _ ih =>
    obtain ⟨calls', rest⟩ := ih fails
    exact ⟨_, .step erased stepped rest⟩

/-- A recursion that fails comes by a tree where something is wrong. -/
theorem exists_failsAt {calls : List Callback} {r : Found} (h : Recurses stepper node w calls r w')
    (failed : r = .error f) : ∃ w₁ node₁, Reaches stepper w node w₁ node₁ ∧
      FailsAt stepper w₁ node₁ f w' := by
  induction h with
  | failed w | value forced | noValue forced | noStep erased stepped => cases failed
  | payloadFault forced =>
    cases failed
    exact ⟨_, _, .here _ _, .payload forced⟩
  | eraseFault erased =>
    cases failed
    exact ⟨_, _, .here _ _, .erase erased⟩
  | @step d e next w w₁ w₂ w' calls r erased stepped rest ih =>
    -- The fault is that of the rest, since recording an effect does not add one.
    have restFails : r = .error f := by
      cases r with
      | error f' => exact congrArg Except.error (Except.error.inj failed)
      | ok x => cases failed
    obtain ⟨w₃, node₃, reached, fails⟩ := ih restFails
    exact ⟨w₃, node₃, .step erased stepped reached, fails⟩
  | stepFault erased stepped =>
    cases failed
    exact ⟨_, _, .here _ _, .step erased stepped⟩
  | noTree other written =>
    cases failed
    exact ⟨_, _, .here _ _, .noTree other written⟩
  | noText other written =>
    cases failed
    exact ⟨_, _, .here _ _, .noText other written⟩

/-- **An analysis fails exactly if something is wrong with a tree that it comes by.** -/
theorem runIn_analyze_fault_iff :
    (analyze limit stepper node).runIn w = some (.error (.fault f), w') ↔
      ∃ w₁ node₁, Reaches stepper w node w₁ node₁ ∧ FailsAt stepper w₁ node₁ f w' := by
  rw [runIn_analyze_iff]
  constructor
  · rintro ⟨calls, r, w₁, recurses, -, ends⟩
    cases r with
    | error f' =>
      obtain ⟨rfl, rfl⟩ : f = f' ∧ w' = w₁ := by simpa [conclude] using ends
      exact exists_failsAt recurses rfl
    | ok x => simp [conclude] at ends
  · rintro ⟨w₁, node₁, reached, fails⟩
    obtain ⟨calls, recurses⟩ := fails.recurses
    obtain ⟨calls', whole⟩ := reached.recurses recurses
    exact ⟨calls', _, w', whole, whole.orderly, rfl⟩

end Analysis

end EffectTrees
