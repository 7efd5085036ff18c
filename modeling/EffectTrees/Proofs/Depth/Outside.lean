import EffectTrees.Proofs.Depth.Limit

/-!
# Functions whose meaning is given from outside

What a function of a program does is up to the program, and so is what it reads and writes. To say
that two computations make the same calls, the functions are left open: an arbitrary caller
`outside` says what some functions do, and all other calls are made as the machine makes them. A
caller that writes down each call with its arguments is one of those in question, so computations
that leave the same world behind whatever is given have made the same calls in the same order.

* `Machine.callWith given outside` — calls with calls inside them up to a depth, where `outside`
  says what the functions in `given` do. Such a call is not part of the depth.
* `Machine.limitWith given outside` — the same without a bound. It is the least caller that is its
  own meaning of the calls inside a call (`Machine.limitWith_eq`, `Machine.below_limitWith`).
* `Machine.limitWith_limitWith` — to give more functions from outside, with the meaning that they
  have anyway, changes nothing. So the machine itself is one of these callers
  (`Machine.limitWith_limit`), and an induction may go by the calls of a single operation
  (`Machine.callWith` with everything else given).
-/

namespace EffectTrees

/-- Callers that decide all that the other one does, and alike, are the same. -/
theorem Caller.Below.antisymm {c c' : Caller} (h : Caller.Below c c') (h' : Caller.Below c' c) :
    c = c' := by
  refine funext fun f => funext fun args => Act.ext_runIn fun w => ?_
  rcases h f args w with hc | same
  · rcases h' f args w with hc' | same
    · rw [hc, hc']
    · exact same.symm
  · exact same

/-- What tends to a caller is below any caller that all its members are below. -/
theorem Caller.Tends.below {cs : Nat → Caller} {c c' : Caller} (h : Caller.Tends cs c)
    (each : ∀ n, Caller.Below (cs n) c') : Caller.Below c c' := by
  intro f args w
  obtain ⟨-, N, reached⟩ := h f args w
  have same : (cs N f args).runIn w = (c f args).runIn w := reached N (Nat.le_refl N)
  rw [← same]
  exact each N f args w

/-- The function is one of the program. -/
def Value.IsClosure (f : Value) : Prop := ∃ params body env, f = .function (.closure params body env)

namespace Machine

open Act (Tends)

section

variable (given : Value → Prop) (outside : Caller)

open Classical in
/-- Calls with calls inside them, up to the given depth. What the functions in `given` do comes from
outside. -/
noncomputable def callWith : Nat → Caller
  | 0 => fun f args => if given f then outside f args else Act.tooDeep
  | depth + 1 => fun f args =>
    if given f then outside f args else f.apply (callWith depth) args

end

variable {given given' : Value → Prop} {outside : Caller} {f : Value} {args : List Value}

theorem callWith_of_given (h : given f) (n : Nat) :
    callWith given outside n f args = outside f args := by
  cases n with
  | zero => exact if_pos h
  | succ n => exact if_pos h

theorem callWith_zero (h : ¬ given f) : callWith given outside 0 f args = Act.tooDeep := if_neg h

theorem callWith_succ (h : ¬ given f) (n : Nat) :
    callWith given outside (n + 1) f args = f.apply (callWith given outside n) args := if_neg h

/-- One call decides more if the calls inside it do. -/
theorem below_apply {c c' : Caller} (h : Caller.Below c c') (f : Value) (args : List Value)
    (w : World) :
    (f.apply c args).runIn w = none ∨ (f.apply c args).runIn w = (f.apply c' args).runIn w :=
  (Value.tends_apply (.ofBelow h) f args w).1 0

/-- What decides all calls that are given, and all others as far as the calls inside them are
decided, is above every depth. -/
theorem below_callWith {c : Caller}
    (ofGiven : ∀ f args, given f → c f args = outside f args)
    (step : ∀ n, Caller.Below (callWith given outside n) c → ∀ f args w, ¬ given f →
      (f.apply (callWith given outside n) args).runIn w = none ∨
        (f.apply (callWith given outside n) args).runIn w = (c f args).runIn w) (n : Nat) :
    Caller.Below (callWith given outside n) c := by
  induction n with
  | zero =>
    intro f args w
    by_cases h : given f
    · rw [callWith_of_given h, ofGiven f args h]
      exact .inr rfl
    · rw [callWith_zero h]
      exact .inl rfl
  | succ n ih =>
    intro f args w
    by_cases h : given f
    · rw [callWith_of_given h, ofGiven f args h]
      exact .inr rfl
    · rw [callWith_succ h]
      exact step n ih f args w h

theorem below_callWith_succ (n : Nat) :
    Caller.Below (callWith given outside n) (callWith given outside (n + 1)) := by
  induction n with
  | zero =>
    intro f args w
    by_cases h : given f
    · rw [callWith_of_given h, callWith_of_given h]
      exact .inr rfl
    · rw [callWith_zero h]
      exact .inl rfl
  | succ n ih =>
    intro f args w
    by_cases h : given f
    · rw [callWith_of_given h, callWith_of_given h]
      exact .inr rfl
    · rw [callWith_succ h, callWith_succ h]
      exact below_apply ih f args w

variable (given outside)

theorem exists_tends_callWith : ∃ c, Caller.Tends (callWith given outside) c :=
  Caller.exists_tends below_callWith_succ

/-- **Calls without a bound**, where `outside` says what the functions in `given` do. -/
noncomputable def limitWith : Caller := (exists_tends_callWith given outside).choose

theorem tends_limitWith : Caller.Tends (callWith given outside) (limitWith given outside) :=
  (exists_tends_callWith given outside).choose_spec

variable {given outside}

theorem limitWith_of_given (h : given f) : limitWith given outside f args = outside f args := by
  refine (tends_limitWith given outside f args).unique ?_
  simp only [callWith_of_given h]
  exact Act.tends_const _

/-- **The meaning of all other calls** is a fixed point of one call. -/
theorem limitWith_eq (h : ¬ given f) :
    limitWith given outside f args = f.apply (limitWith given outside) args := by
  refine (tends_limitWith given outside f args).tail.unique ?_
  simp only [callWith_succ h]
  exact Value.tends_apply (tends_limitWith given outside) f args

/-- **It is the least such meaning.** -/
theorem below_limitWith {c : Caller} (ofGiven : ∀ f args, given f → c f args = outside f args)
    (fixed : ∀ f args, ¬ given f → c f args = f.apply c args) :
    Caller.Below (limitWith given outside) c := by
  refine (tends_limitWith given outside).below (below_callWith ofGiven fun n below f args w h => ?_)
  rw [fixed f args h]
  exact below_apply below f args w

/-- **More functions may be given from outside**, if they keep their meaning. -/
theorem limitWith_limitWith (h : ∀ f, given f → given' f) :
    limitWith given' (limitWith given outside) = limitWith given outside := by
  refine Caller.Below.antisymm ?_ ?_
  · exact below_limitWith (fun _ _ _ => rfl) fun f args hf => limitWith_eq fun hg => hf (h f hg)
  · refine (tends_limitWith given outside).below (below_callWith ?_ fun n below f args w hf => ?_)
    · intro f args hf
      rw [limitWith_of_given (h f hf), limitWith_of_given hf]
    · -- Functions that are given in addition mean what they mean without a bound.
      by_cases hf' : given' f
      · rw [limitWith_of_given hf', ← callWith_succ hf]
        exact (tends_limitWith given outside f args w).1 (n + 1)
      · rw [limitWith_eq hf']
        exact below_apply below f args w

/-- **The machine is one of these callers**, whatever functions are looked at. -/
theorem limitWith_limit (given : Value → Prop) : limitWith given limit = limit := by
  have nothingGiven : limitWith (fun _ => False) limit = limit := by
    have same : ∀ n, callWith (fun _ => False) limit n = call n := by
      intro n
      induction n with
      | zero => exact funext fun f => funext fun args => callWith_zero id
      | succ n ih =>
        refine funext fun f => funext fun args => ?_
        rw [callWith_succ id, ih, call_succ]
    refine funext fun f => funext fun args => ?_
    refine (tends_limitWith (fun _ => False) limit f args).unique ?_
    simp only [same]
    exact tends_limit f args
  calc limitWith given limit
      = limitWith given (limitWith (fun _ => False) limit) := by rw [nothingGiven]
    _ = limitWith (fun _ => False) limit := limitWith_limitWith fun _ h => h.elim
    _ = limit := nothingGiven

theorem not_isClosure_frame (k : Frame) : ¬ (Value.frame k).IsClosure := by
  rintro ⟨params, body, env, same⟩
  cases same

theorem not_isClosure_after (next inner : Value) : ¬ (Value.function (.after next inner)).IsClosure := by
  rintro ⟨params, body, env, same⟩
  cases same

end Machine

end EffectTrees
