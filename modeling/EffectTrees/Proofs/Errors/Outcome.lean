import EffectTrees.Proofs.Errors.Containment
import EffectTrees.Proofs.Errors.Transparency

/-!
# What gets out of an operation

The operations that combine and inspect trees are taken together here: to analyse, to build, to map,
to bind and to apply. Whatever their callbacks do, an abort does not get out of them, and a fault
does.

An abort can get out of `map`, `bind` and `ap` if a slot at hand holds the unknown argument, say,
since these are members of what is in the slot; so their operands are to be founded
(`Operation.Founded`). The other half has no such condition.
-/

namespace EffectTrees

open Machine (limit)

/-- An operation on trees, with its operands. -/
inductive Operation where
  | analyze (stepper node : Value)
  | build (b : Builder)
  | map (t : Tree) (f : Value)
  | bind (t : Tree) (f : Value)
  | ap (t : Tree) (u : Value)

namespace Operation

/-- What the operation does. -/
def run (c : Caller) : Operation → Act Value
  | analyze stepper node => Analysis.analyze c stepper node
  | build b => b.build c
  | map t f => t.map c f
  | bind t f => t.bind c f
  | ap t u => t.ap c u

/-- The operands are fit for the operation: what is mapped, bound or applied is founded, and so is
what it is applied to. The functions stay within the tables on what they are put to use on. -/
def Founded (Ts : Tables) : Operation → Prop
  | analyze _ _ | build _ => True
  | map t f | bind t f => EffectTrees.Founded Ts (StaysOn Ts f) (.tree t)
  | ap t u => EffectTrees.Founded Ts (fun g => ∀ v, StaysOn Ts g v) (.tree t) ∧
      EffectTrees.Founded Ts (fun _ => True) u

variable {Ts : Tables} {o : Operation}

theorem not_aborts (founded : o.Founded Ts) {w : World} (within : Ts w.classes) (w' : World) :
    (o.run limit).runIn w ≠ some (.error .abort, w') := by
  cases o with
  | analyze stepper node =>
    exact (Analysis.contained_walk stepper [] node).not_aborts trivial w'
  | build b => exact (Builder.contained_materialize _ b.tree).not_aborts trivial w'
  | map t f =>
    have mapped := EffectTrees.Founded.map founded
    rw [Machine.limit_frame] at mapped
    exact mapped.not_aborts within w'
  | bind t f =>
    have bound := EffectTrees.Founded.bind founded
    rw [Machine.limit_frame] at bound
    exact bound.not_aborts within w'
  | ap t u =>
    have applied := EffectTrees.Founded.ap founded.1 founded.2
    rw [Machine.limit_frame] at applied
    exact applied.not_aborts within w'

theorem faithful (o : Operation) : Faithful (o.run ·) := by
  intro e c' c hc
  cases o with
  | analyze stepper node => exact Analysis.respects_walk hc stepper [] node
  | build b => exact b.respects_build hc
  | map t f => exact t.respects_map hc f
  | bind t f => exact t.respects_bind hc f
  | ap t u => exact t.respects_ap hc u

/-- **Aborts are contained, and nothing else is.** No operation ends by an abort, if its operands are
founded at the tables that its callbacks stay within; and an operation that makes a call that ends by
a fault ends by that fault, in the world that the call leaves behind. -/
theorem contains_aborts_only (o : Operation) :
    (∀ Ts, o.Founded Ts → ∀ w, Ts w.classes → ∀ w',
      (o.run limit).runIn w ≠ some (.error .abort, w')) ∧
    (∀ w g args w₁ f w₂, Invokes (o.run ·) w g args w₁ →
      (limit g args).runIn w₁ = some (.error (.fault f), w₂) →
      (o.run limit).runIn w = some (.error (.fault f), w₂)) :=
  ⟨fun _ founded _ within w' => not_aborts founded within w',
    fun _ _ _ _ _ _ invokes fault => o.faithful.fault_passes invokes fault⟩

/-! ### To bind to a finished tree -/

variable {p : Payload} {f v : Value} {w w₁ : World} {x : Except Signal Value × World}

/-- To bind a function to a finished tree is to call it with the content of the payload. -/
theorem invokes_bind (gives : (p.force limit).Gives w v w₁)
    (ends : (limit f [v]).runIn w₁ = some x) :
    Invokes ((Operation.bind (.done p) f).run ·) w f [v] w₁ := by
  have resolved : (p.resolve limit).runIn w = some (.ok (some v), w₁) := gives.probe
  refine .direct (dependsOn_of_stuck ?_ ?_)
  · -- The payload is computed by a call without arguments, so it is another call.
    have same : p.resolve (limit.stuckAt f [v] w₁) = p.resolve limit := by
      cases p with
      | resolved u => rfl
      | deferred g =>
        have apart : limit.stuckAt f [v] w₁ g [] = limit g [] :=
          Caller.stuckAt_of_ne limit (by simp) f g w₁
        exact congrArg probe apart
    change ((p.resolve (limit.stuckAt f [v] w₁)) >>= _ : Act Value).runIn w = none
    rw [same, Act.runIn_bind, resolved]
    change (probe (limit.stuckAt f [v] w₁ f [v]) >>= _ : Act Value).runIn w₁ = none
    rw [Act.runIn_bind, runIn_probe, Caller.runIn_stuckAt]
  · obtain ⟨r, w₂⟩ := x
    change ((p.resolve limit) >>= _ : Act Value).runIn w ≠ none
    rw [Act.runIn_bind, resolved]
    change (probe (limit f [v]) >>= _ : Act Value).runIn w₁ ≠ none
    rw [Act.runIn_bind, runIn_probe, ends]
    match r with
    | .error .abort | .error (.fault _) | .ok _ => simp [Ending.onProbation]

/-- A function that takes no arguments. -/
def constant : Value := .function (.closure [] (.scalar .null) [])

theorem contains_aborts_only_bind :
    (∀ w', ((Operation.bind (Tree.pure .unit) (.function .betray)).run limit).runIn
      (.initial (.initial [])) ≠ some (.error .abort, w')) ∧
    ((Operation.bind (Tree.pure .unit) constant).run limit).runIn (.initial (.initial [])) =
      some (.error (.fault (.expression .arity)), .initial (.initial [])) := by
  constructor
  · refine (contains_aborts_only _).1 .all ?_ _ trivial
    exact .done ((Act.keeps_all _).mono fun _ _ => Act.keeps_all _)
  · have fault : (limit constant [.unit]).runIn (.initial (.initial [])) =
        some (.error (.fault (.expression .arity)), .initial (.initial [])) := by
      rw [constant, Machine.limit_closure]
      rfl
    have gives : (Payload.force limit (.resolved .unit)).Gives (.initial (.initial [])) .unit
        (.initial (.initial [])) := ⟨rfl, by simp [Value.unit]⟩
    exact (contains_aborts_only _).2 _ _ _ _ _ _ (invokes_bind gives fault) fault

end Operation

end EffectTrees
