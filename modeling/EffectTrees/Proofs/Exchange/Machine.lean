import EffectTrees.Proofs.Exchange.Library
import EffectTrees.Proofs.Exchange.Operator

/-!
# Programs side by side

An expression that registers no class, evaluated with variables whose values differ in functions
only, comes to values that differ in functions only (`Comparison.Matched.eval`), if calls do. So does
one call, if the exchanged functions do the same (`Comparison.Matched.apply`). By induction on the
depth of calls it is enough to look at one call of each exchanged function
(`Comparison.callers_call`):

> Programs cannot tell values apart that differ in exchanged functions only, if they cannot tell
> from one call, at whatever depth, what an exchanged function is exchanged for.

If nothing is exchanged this says that quiet values lead to quiet values
(`Comparison.callers_quiet`).
-/

namespace EffectTrees

open Machine (limit)

namespace Comparison

variable {K : Comparison} {call call' : Caller} {v v' w w' : Value} {env env' : Env}

namespace Matched

/-! ### Parts of expressions -/

protected theorem find (h : List.Forall₂ (Named K.Rel) env env') (name : String) :
    K.Matched K.Rel (env.find name) (env'.find name) := by
  unfold Env.find
  rcases (lookup_rel h name).both with ⟨hx, hx'⟩ | ⟨x, x', hx, hx', related⟩
  · rw [hx, hx']
    exact .fail _
  · rw [hx, hx']
    exact .pure related

protected theorem belongsTo (h : K.Rel v v') (cls : String) :
    K.Matched Eq (v.belongsTo cls) (v'.belongsTo cls) := by
  unfold Value.belongsTo
  split
  · cases h.shape with
    | scalar s => cases s <;> exact .pure rfl
    | _ => exact .pure rfl
  · cases h.shape with
    | scalar s => cases s <;> exact .pure rfl
    | _ => exact .pure rfl
  · refine .classes ?_
    split
    · exact .pure (h.isA_eq _)
    · exact .fail _

protected theorem ofClassName (name : String) :
    K.Matched K.Rel (Value.ofClassName name) (Value.ofClassName name) := by
  unfold Value.ofClassName
  split
  · exact .pure (.of_shape (.builtinClass name))
  · refine .classes ?_
    split
    · exact .pure (.of_shape (.cls _))
    · exact .fail _

protected theorem construct (h : K.Rel v v') {args args' : List (String × Value)}
    (ha : List.Forall₂ (Named K.Rel) args args') :
    K.Matched K.Rel (v.construct args) (v'.construct args') := by
  cases h.shape with
  | cls c => exact (Matched.make ha fun _ => .scalar).imp fun _ _ => Instances.rel
  | builtinClass name =>
    cases ha with
    | nil =>
      simp only [Value.construct]
      exact .pure (by split <;> exact .scalar _)
    | cons _ _ => exact .fail _
  | _ => exact .fail _

protected theorem field (h : K.Rel v v') (name : String) :
    K.Matched K.Rel (v.field name) (v'.field name) := by
  have held := h.member?_rel name
  have looked := Matched.lookup h name
  unfold Value.field
  cases h.shape with
  | poison => exact .poisonMember name
  | descriptor c fields =>
    refine .classes ?_
    split
    · exact looked
    · exact .fail _
  | _ =>
    revert held
    generalize Value.member? _ name = a
    generalize Value.member? _ name = b
    intro held
    cases held with
    | some related => exact .pure related
    | none => exact .fail _

theorem isCallable_eq (h : K.Rel v v') : v.isCallable = v'.isCallable := by
  cases h.shape <;> rfl

/-- One more variable. -/
theorem bound (name : String) (h : K.Rel v v') (henv : List.Forall₂ (Named K.Rel) env env') :
    List.Forall₂ (Named K.Rel) ((name, v) :: env) ((name, v') :: env') := .cons ⟨rfl, h⟩ henv

protected theorem bindFields (henv : List.Forall₂ (Named K.Rel) env env') (h : K.Rel v v')
    (fields : List (String × String)) :
    K.Matched (List.Forall₂ (Named K.Rel)) (env.bindFields v fields)
      (env'.bindFields v' fields) := by
  induction fields generalizing env env' with
  | nil => exact .pure henv
  | cons field rest ih =>
    exact (Matched.lookup h _).bind fun _ _ related => ih (bound _ related henv)

protected theorem repeated {turn turn' : Nat → Value → Act Value}
    (ht : ∀ i x x', K.Rel x x' → K.Matched K.Rel (turn i x) (turn' i x')) (index : Nat)
    (h : K.Rel v v') (n : Nat) :
    K.Matched K.Rel (repeated turn index v n) (repeated turn' index v' n) := by
  induction n generalizing index v v' with
  | zero => exact .pure h
  | succ n ih => exact (ht index _ _ h).bind fun _ _ related => ih (index + 1) related

/-! ### Expressions -/

mutual

/-- **The value of an expression** that registers no class. -/
theorem eval (hc : K.Callers call call') {env env' : Env}
    (henv : List.Forall₂ (Named K.Rel) env env') (e : Expr) (quiet : e.registers = false) :
    K.Matched K.Rel (e.eval call env) (e.eval call' env') := by
  cases e with
  | scalar s => exact .pure (.scalar s)
  | var name => exact .find henv name
  | lambda params body => exact .pure (.of_shape (.function (.closure quiet henv)))
  | call fn args =>
    obtain ⟨fn_quiet, args_quiet⟩ := Bool.or_eq_false_iff.mp quiet
    -- An exchanged function is a function, so both sides pass or fail the test that it can be
    -- called.
    refine (eval hc henv fn fn_quiet).bind fun f f' hf =>
      (evalAll hc henv args args_quiet).bind fun vs vs' hvs => ?_
    rw [isCallable_eq hf]
    split
    · exact hc _ _ _ _ hf hvs
    · exact .fail _
  | cond test yes no =>
    obtain ⟨rest, no_quiet⟩ := Bool.or_eq_false_iff.mp quiet
    obtain ⟨test_quiet, yes_quiet⟩ := Bool.or_eq_false_iff.mp rest
    refine (eval hc henv test test_quiet).bind fun _ _ hx => (truth hx).bind ?_
    rintro b _ rfl
    split
    · exact eval hc henv yes yes_quiet
    · exact eval hc henv no no_quiet
  | bind name value body =>
    obtain ⟨value_quiet, body_quiet⟩ := Bool.or_eq_false_iff.mp quiet
    exact (eval hc henv value value_quiet).bind fun _ _ hx =>
      eval hc (bound name hx henv) body body_quiet
  | list items => exact (evalAll hc henv items quiet).bind fun _ _ hvs => .pure (.list hvs)
  | tuple items => exact (evalAll hc henv items quiet).bind fun _ _ hvs => .pure (.tuple hvs)
  | log entry body =>
    obtain ⟨entry_quiet, body_quiet⟩ := Bool.or_eq_false_iff.mp quiet
    exact (eval hc henv entry entry_quiet).bind fun _ _ hx => (Matched.log hx).bind fun _ _ _ =>
      eval hc henv body body_quiet
  | raise kind message => exact .fail _
  | attempt body handler =>
    obtain ⟨body_quiet, handler_quiet⟩ := Bool.or_eq_false_iff.mp quiet
    -- The signals are equal, so the handler starts on both sides or on neither.
    refine (eval hc henv body body_quiet).tryCatch fun s => ?_
    cases s with
    | abort => exact .abort
    | fault f => exact eval hc henv handler handler_quiet
  | loop turns start acc index body =>
    obtain ⟨rest, body_quiet⟩ := Bool.or_eq_false_iff.mp quiet
    obtain ⟨turns_quiet, start_quiet⟩ := Bool.or_eq_false_iff.mp rest
    refine (eval hc henv turns turns_quiet).bind fun _ _ hx => (Matched.turns hx).bind ?_
    rintro n _ rfl
    exact (eval hc henv start start_quiet).bind fun _ _ first =>
      .repeated (fun i _ _ hx => eval hc (bound index (.scalar (.int i)) (bound acc hx henv)) body
        body_quiet) 0 first n
  | make className args =>
    exact (Matched.ofClassName className).bind fun _ _ hcl =>
      (evalNamed hc henv args quiet).bind fun _ _ hargs => .construct hcl hargs
  | cases subject branches otherwise =>
    obtain ⟨rest, otherwise_quiet⟩ := Bool.or_eq_false_iff.mp quiet
    obtain ⟨subject_quiet, branches_quiet⟩ := Bool.or_eq_false_iff.mp rest
    refine (eval hc henv subject subject_quiet).bind fun _ _ hx =>
      (evalCases hc henv hx branches branches_quiet).bind fun _ _ found => ?_
    cases found with
    | some related => exact .pure related
    | none => exact evalOption hc henv otherwise otherwise_quiet
  | field subject name => exact (eval hc henv subject quiet).bind fun _ _ hx => .field hx name
  | cls name => exact .ofClassName name
  | target members =>
    exact (evalNamed hc henv members quiet).bind fun _ _ hms =>
      .pure (.of_shape (.target (.custom hms)))
  | operator name args =>
    exact (evalAll hc henv args quiet).bind fun _ _ hvs => run_operator name hvs
  | library name args =>
    obtain ⟨other, args_quiet⟩ := Bool.or_eq_false_iff.mp quiet
    exact (evalAll hc henv args args_quiet).bind fun _ _ hvs =>
      run_library hc (of_decide_eq_false other) hvs
  | malformed => exact .fail _

/-- The values of several expressions. -/
theorem evalAll (hc : K.Callers call call') {env env' : Env}
    (henv : List.Forall₂ (Named K.Rel) env env') (es : List Expr)
    (quiet : Expr.registersAny es = false) :
    K.Matched (List.Forall₂ K.Rel) (Expr.evalAll call env es) (Expr.evalAll call' env' es) := by
  cases es with
  | nil => exact .pure .nil
  | cons e es =>
    obtain ⟨e_quiet, es_quiet⟩ := Bool.or_eq_false_iff.mp quiet
    exact (eval hc henv e e_quiet).bind fun _ _ first =>
      (evalAll hc henv es es_quiet).bind fun _ _ rest => .pure (.cons first rest)

/-- The values of several named expressions. -/
theorem evalNamed (hc : K.Callers call call') {env env' : Env}
    (henv : List.Forall₂ (Named K.Rel) env env') (es : List (String × Expr))
    (quiet : Expr.registersNamed es = false) :
    K.Matched (List.Forall₂ (Named K.Rel)) (Expr.evalNamed call env es)
      (Expr.evalNamed call' env' es) := by
  match es with
  | [] => exact .pure .nil
  | (name, e) :: es =>
    obtain ⟨e_quiet, es_quiet⟩ := Bool.or_eq_false_iff.mp quiet
    exact (eval hc henv e e_quiet).bind fun _ _ first =>
      (evalNamed hc henv es es_quiet).bind fun _ _ rest => .pure (.cons ⟨rfl, first⟩ rest)

/-- The value of the first case that a value belongs to. -/
theorem evalCases (hc : K.Callers call call') {env env' : Env}
    (henv : List.Forall₂ (Named K.Rel) env env') {v v' : Value} (h : K.Rel v v')
    (branches : List ((String × List (String × String)) × Expr))
    (quiet : Expr.registersCases branches = false) :
    K.Matched (Option.Rel K.Rel) (Expr.evalCases call env v branches)
      (Expr.evalCases call' env' v' branches) := by
  match branches with
  | [] => exact .pure .none
  | ((className, fields), body) :: rest =>
    obtain ⟨body_quiet, rest_quiet⟩ := Bool.or_eq_false_iff.mp quiet
    refine (Matched.belongsTo h className).bind ?_
    rintro b _ rfl
    split
    · exact (Matched.bindFields henv h fields).bind fun _ _ henv' =>
        (eval hc henv' body body_quiet).bind fun _ _ related => .pure (.some related)
    · exact evalCases hc henv h rest rest_quiet

/-- The value of an expression that may be absent. -/
theorem evalOption (hc : K.Callers call call') {env env' : Env}
    (henv : List.Forall₂ (Named K.Rel) env env') (e : Option Expr)
    (quiet : Expr.registersOption e = false) :
    K.Matched K.Rel (Expr.evalOption call env e) (Expr.evalOption call' env' e) := by
  cases e with
  | none => exact .pure (.scalar .null)
  | some e => exact eval hc henv e quiet

end

/-! ### Calls -/

/-- **One call**, of functions that are exchanged or of values that differ in functions only. -/
theorem apply (hc : K.Callers call call') {f f' : Value} {args args' : List Value}
    (swapped : ∀ g g' : Function, f = .function g → f' = .function g' → K.Swaps K.Rel g g' →
      K.Matched K.Rel (f.apply call args) (f'.apply call' args'))
    (h : K.Rel f f') (ha : List.Forall₂ K.Rel args args') :
    K.Matched K.Rel (f.apply call args) (f'.apply call' args') := by
  cases h.shape with
  | function function =>
    cases function with
    -- What exchanged functions come to is up to the exchange.
    | swap swap => exact swapped _ _ rfl rfl swap
    | @closure params body env env' quiet scope =>
      simp only [Value.apply, ha.length_eq]
      split
      · exact eval hc (List.rel_append (List.forall₂_reverse_iff.mpr (zip_named params ha)) scope)
          body quiet
      · exact .fail _
    | betray => exact .abort
    | frame frame =>
      rcases ha with _ | ⟨hx, _ | ⟨_, _⟩⟩
      · exact .fail _
      · exact run_frame hc frame hx
      · exact .fail _
    | delayed frame content =>
      cases ha with
      | nil => exact run_frame hc frame content
      | cons _ _ => exact .fail _
    | after next inner =>
      exact (hc _ _ _ _ inner ha).bind fun _ _ related => hc _ _ _ _ next (.cons related .nil)
  | locator family =>
    rcases ha with _ | ⟨hx, _ | ⟨_, _⟩⟩
    · exact .fail _
    · exact Matched.locate hc family hx
    · exact .fail _
  | poison => exact .abort
  | cls c => exact .makeInOrder ha
  | builtinClass name => exact convert name ha
  | _ => exact .fail _

end Matched

/-! ### Calls within calls -/

/-- **It is enough to look at one call** of each exchanged function, when calls inside it come to the
same already. -/
theorem callers_call
    (step : ∀ n, K.Callers (Machine.call n) limit → ∀ (f f' : Function) (args args' : List Value),
      K.Swaps K.Rel f f' → List.Forall₂ K.Rel args args' →
        K.Matched K.Rel ((Value.function f).apply (Machine.call n) args) (limit (.function f') args'))
    (n : Nat) : K.Callers (Machine.call n) limit := by
  induction n with
  | zero => exact fun _ _ _ _ _ _ => .tooDeep
  | succ n ih =>
    intro f f' args args' hf ha
    rw [Machine.call_succ, Machine.limit_eq]
    refine .apply ih (fun g g' hg hg' swap => ?_) hf ha
    subst hg hg'
    rw [← Machine.limit_eq]
    exact step n ih g g' args args' swap ha

/-- Within a smaller depth. -/
theorem Callers.of_succ {n : Nat} (hc : K.Callers (Machine.call (n + 1)) limit) :
    K.Callers (Machine.call n) limit :=
  fun f f' args args' hf ha => (hc f f' args args' hf ha).of_runs fun _ _ _ run =>
    Machine.runIn_call_of_le (Nat.le_succ n) run

/-- Without a bound on the depth. -/
theorem callers_limit (h : ∀ n, K.Callers (Machine.call n) limit) : K.Callers limit limit :=
  fun f f' args args' hf ha =>
    .of_tends (fun n => h n f f' args args' hf ha) (Machine.tends_limit f args)

/-- Nothing is exchanged, and what is written does not count. -/
def quiet (T : ClassTable) : Comparison := { Exchange.nothing with classes := T, observed := False }

/-- **Calls of quiet functions give quiet values**, and what has been written before has no influence
on what they come to. -/
theorem callers_quiet (T : ClassTable) : (quiet T).Callers limit limit :=
  callers_limit (callers_call fun _ _ _ _ _ _ (swap : False) _ => swap.elim)

end Comparison

end EffectTrees
