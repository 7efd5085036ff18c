import EffectTrees.Proofs.Depth.Operations

/-!
# Calls without a bound on their depth

`Machine.call` grants calls inside calls up to a depth. A call that ends within some depth ends in
the same way within any greater one (`Machine.below_of_le`), so there is a meaning of calls without
a bound, `Machine.limit`: the outcome at any depth that suffices, and none if no depth does.

* `Machine.runIn_limit_iff` — a call ends without a bound exactly if it ends within some depth.
* `Machine.limit_eq` — the meaning without a bound is its own meaning of the calls inside a call.
* `Machine.runIn_eval_of_run` — what a step of a program comes to is what it comes to without a
  bound.

All statements about operations are made for this meaning of calls. An induction on what a call does
goes by the depth that it ends within.
-/

namespace EffectTrees

namespace Machine

open Act (Tends)

/-- A greater depth decides all that a smaller one does, and alike. -/
theorem below_succ (n : Nat) : Caller.Below (call n) (call (n + 1)) := by
  induction n with
  | zero => exact fun f args w => .inl rfl
  -- One call converges with the calls inside it, so it inherits the comparison from them.
  | succ n ih => exact fun f args w => (Value.tends_apply (.ofBelow ih) f args w).1 0

theorem below_of_le {n m : Nat} (h : n ≤ m) : Caller.Below (call n) (call m) :=
  Caller.below_of_le below_succ h

/-- What a call comes to within some depth, it comes to within any greater one. -/
theorem runIn_call_of_le {n m : Nat} (h : n ≤ m) {f : Value} {args : List Value} {w : World}
    {x : Except Signal Value × World} (hx : (call n f args).runIn w = some x) :
    (call m f args).runIn w = some x := by
  rcases below_of_le h f args w with hn | hn
  · simp [hx] at hn
  · rw [← hn, hx]

open Classical in
/-- **Calls without a bound.** The outcome at any depth that suffices, and none if no depth does. -/
noncomputable def limit : Caller := fun f args => ExceptT.mk fun w =>
  if h : ∃ n, ((call n f args).runIn w).isSome then (call h.choose f args).runIn w else none

theorem runIn_limit_of_call {n : Nat} {f : Value} {args : List Value} {w : World}
    {x : Except Signal Value × World} (hx : (call n f args).runIn w = some x) :
    (limit f args).runIn w = some x := by
  have h : ∃ n, ((call n f args).runIn w).isSome := ⟨n, by simp [hx]⟩
  obtain ⟨y, hy⟩ := Option.isSome_iff_exists.mp h.choose_spec
  -- Two depths that both suffice agree at the greater one.
  have hxy : some x = some y := by
    rw [← runIn_call_of_le (Nat.le_max_left n h.choose) hx,
      runIn_call_of_le (Nat.le_max_right n h.choose) hy]
  calc (limit f args).runIn w = (call h.choose f args).runIn w := dif_pos h
    _ = some x := by rw [hy, hxy]

theorem runIn_limit_iff {f : Value} {args : List Value} {w : World}
    {x : Except Signal Value × World} :
    (limit f args).runIn w = some x ↔ ∃ n, (call n f args).runIn w = some x := by
  refine ⟨fun hx => ?_, fun ⟨n, hn⟩ => runIn_limit_of_call hn⟩
  by_cases h : ∃ n, ((call n f args).runIn w).isSome
  · exact ⟨h.choose, (dif_pos h).symm.trans hx⟩
  · have hnone : (limit f args).runIn w = none := dif_neg h
    simp [hnone] at hx

/-- Calls tend to what they are without a bound as their depth grows. -/
theorem tends_limit : Caller.Tends call limit := by
  intro f args w
  cases hr : (limit f args).runIn w with
  | none =>
    -- No depth suffices, so the sequence is undecided for good.
    have hnone : ∀ n, (call n f args).runIn w = none := fun n => by
      cases hn : (call n f args).runIn w with
      | none => rfl
      | some x => simp [runIn_limit_of_call hn] at hr
    exact ⟨fun n => .inl (hnone n), 0, fun n _ => hnone n⟩
  | some x =>
    obtain ⟨N, hN⟩ := runIn_limit_iff.mp hr
    refine ⟨fun n => ?_, N, fun n hn => runIn_call_of_le hn hN⟩
    cases hn : (call n f args).runIn w with
    | none => exact .inl rfl
    | some y => exact .inr (by rw [← hr, runIn_limit_of_call hn])

/-- **The meaning without a bound is a fixed point** of one call. -/
theorem limit_eq (f : Value) (args : List Value) : limit f args = f.apply limit args :=
  -- Both sides are limits of the calls at the depths from one on.
  (tends_limit f args).tail.unique (Value.tends_apply tends_limit f args)

@[simp] theorem limit_frame (k : Frame) (v : Value) : limit (.frame k) [v] = k.run limit v :=
  limit_eq _ _

@[simp] theorem limit_after (next inner : Value) (args : List Value) :
    limit (.function (.after next inner)) args = (do limit next [← limit inner args]) :=
  limit_eq _ _

@[simp] theorem limit_locator (family : ClassRef) (d : Value) :
    limit (.locator family) [d] = locate limit family d :=
  limit_eq _ _

@[simp] theorem limit_closure (params : List String) (body : Expr) (env : Env)
    (args : List Value) :
    limit (.function (.closure params body env)) args =
      if params.length = args.length then
        body.eval limit ((params.zip args).reverse ++ env)
      else Act.wrong .arity :=
  limit_eq _ _

/-- An expression that ends within the depth that programs are granted comes to the same without a
bound. -/
theorem runIn_eval_of_run {env : Env} {e : Expr} {w : World} {x : Except Signal Value × World}
    (h : run env e w = some x) : (e.eval limit env).runIn w = some x := by
  exact (Expr.tends_eval tends_limit env e).runIn_limit h

end Machine

end EffectTrees
