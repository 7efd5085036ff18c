import EffectTrees.Proofs.Act.Ending
import EffectTrees.Proofs.Depth.Limit

/-!
# Running a tree at once

The target `Tree.immediate` sequences by going on at once: a value is itself, absence is null, and
what comes next is called with what there is. To fold a tree into it, with a function that performs
effects, is to run the tree: the function is called with the outermost descriptor, then with the
descriptor of what it gave, and so on up to a finished or failed tree.

`Tree.Runs` says so, with the descriptors of the effects that are performed, in order. The runs are
those of the fold (`Tree.runIn_fold_iff`), and a fold performs one list of effects only
(`Tree.Runs.unique`).
-/

namespace EffectTrees

open Machine (limit call)

namespace Tree

/-! ### The target -/

/-- How the target sequences: `f` is called with `m`. -/
def sequence : Value := .function (.closure ["m", "f"] (.call (.var "f") [.var "m"]) [])

/-- **The target that goes on at once.** -/
def immediate : Value :=
  .target (.custom [("pure", .function (.closure ["value"] (.var "value") [])),
    ("empty", .function (.closure [] (.scalar .null) [])), ("bind", sequence)])

theorem invoke_immediate_pure (v : Value) : immediate.invoke limit .pure [v] = Pure.pure v := by
  change limit _ [v] = _
  rw [Machine.limit_closure]
  rfl

theorem invoke_immediate_empty : immediate.invoke limit .empty [] = Pure.pure .null := by
  change limit _ [] = _
  rw [Machine.limit_closure]
  rfl

/-- Sequencing calls the function that is to go on. -/
theorem apply_sequence (c : Caller) (k : Frame) (m : Value) :
    sequence.apply c [m, .frame k] = c (.frame k) [m] := rfl

/-! ### The fold -/

variable {perform : Value}

theorem fold_done (p : Payload) :
    fold limit perform immediate (.tree (.done p)) =
      p.resolve limit >>= fun v => Pure.pure (v.getD .null) := by
  change leafIn limit immediate p = _
  unfold leafIn
  congr 1
  funext v
  cases v with
  | none => exact invoke_immediate_empty
  | some v => exact invoke_immediate_pure v

theorem fold_suspended (c : Caller) (d : Value) :
    fold c perform immediate (.tree (.suspended d)) =
      c perform [d] >>= fun m => c sequence [m, .frame (.fold perform immediate)] := rfl

theorem fold_suspended_limit (d : Value) :
    fold limit perform immediate (.tree (.suspended d)) =
      limit perform [d] >>= fold limit perform immediate := by
  rw [fold_suspended]
  congr 1
  funext m
  rw [Machine.limit_eq, apply_sequence, Machine.limit_frame]
  rfl

/-- What has nothing pending is absent. -/
theorem fold_other {v : Value} (notDone : ∀ p, v ≠ .tree (.done p))
    (notSuspended : ∀ d, v ≠ .tree (.suspended d)) :
    fold limit perform immediate v = Pure.pure .null := by
  unfold fold
  split
  · exact absurd rfl (notDone _)
  · exact absurd rfl (notSuspended _)
  · exact invoke_immediate_empty

/-! ### Runs -/

/-- **A run.** From the world `w` the tree is run by performing `effects`, in this order, and no
others; it comes to `r` and leaves the world `w'` behind. -/
inductive Runs (perform : Value) :
    Value → World → List Value → Except Signal Value → World → Prop where
  | value {p : Payload} {w w' : World} {v : Option Value}
      (resolved : (p.resolve limit).runIn w = some (.ok v, w')) :
      Runs perform (.tree (.done p)) w [] (.ok (v.getD .null)) w'
  | payloadSignal {p : Payload} {w w' : World} {s : Signal}
      (resolved : (p.resolve limit).runIn w = some (.error s, w')) :
      Runs perform (.tree (.done p)) w [] (.error s) w'
  | step {d next : Value} {w w₁ w' : World} {effects : List Value} {r : Except Signal Value}
      (performed : (limit perform [d]).runIn w = some (.ok next, w₁))
      (rest : Runs perform next w₁ effects r w') :
      Runs perform (.tree (.suspended d)) w (d :: effects) r w'
  | stepSignal {d : Value} {w w' : World} {s : Signal}
      (performed : (limit perform [d]).runIn w = some (.error s, w')) :
      Runs perform (.tree (.suspended d)) w [d] (.error s) w'
  | nothing {v : Value} (w : World) (notDone : ∀ p, v ≠ .tree (.done p))
      (notSuspended : ∀ d, v ≠ .tree (.suspended d)) : Runs perform v w [] (.ok .null) w

theorem Runs.runIn_fold {t : Value} {w w' : World} {effects : List Value}
    {r : Except Signal Value} (h : Runs perform t w effects r w') :
    (fold limit perform immediate t).runIn w = some (r, w') := by
  induction h with
  | value resolved => rw [fold_done, Act.runIn_bind, resolved]; rfl
  | payloadSignal resolved => rw [fold_done, Act.runIn_bind, resolved]
  | step performed _ ih => rw [fold_suspended_limit, Act.runIn_bind, performed]; exact ih
  | stepSignal performed => rw [fold_suspended_limit, Act.runIn_bind, performed]
  | nothing w notDone notSuspended => rw [fold_other notDone notSuspended]; rfl

theorem runs_of_done {p : Payload} {w w' : World} {r : Except Signal Value}
    (h : (fold limit perform immediate (.tree (.done p))).runIn w = some (r, w')) :
    Runs perform (.tree (.done p)) w [] r w' := by
  rw [fold_done, Act.runIn_bind] at h
  match hr : (p.resolve limit).runIn w with
  | none => simp [hr] at h
  | some (.error s, w₁) =>
    obtain ⟨rfl, rfl⟩ : .error s = r ∧ w₁ = w' := by simpa [hr] using h
    exact .payloadSignal hr
  | some (.ok v, w₁) =>
    obtain ⟨rfl, rfl⟩ : .ok (v.getD .null) = r ∧ w₁ = w' := by simpa [hr] using h
    exact .value hr

/-- What a fold comes to within some depth is a run. The induction is on the depth: what follows an
effect is folded two calls further in. -/
theorem exists_runs_of_fold (n : Nat) {t : Value} {w w' : World} {r : Except Signal Value}
    (h : (fold (call n) perform immediate t).runIn w = some (r, w')) :
    ∃ effects, Runs perform t w effects r w' := by
  have hlimit := (tends_fold Machine.tends_limit perform immediate t).runIn_limit h
  by_cases isDone : ∃ p, t = .tree (.done p)
  · obtain ⟨p, rfl⟩ := isDone
    exact ⟨_, runs_of_done hlimit⟩
  by_cases isSuspended : ∃ d, t = .tree (.suspended d)
  · obtain ⟨d, rfl⟩ := isSuspended
    rw [fold_suspended, Act.runIn_bind] at h
    match hr : (call n perform [d]).runIn w with
    | none => simp [hr] at h
    | some (.error s, w₁) =>
      obtain ⟨rfl, rfl⟩ : .error s = r ∧ w₁ = w' := by simpa [hr] using h
      exact ⟨_, .stepSignal (Machine.runIn_limit_of_call hr)⟩
    | some (.ok next, w₁) =>
      rw [hr] at h
      dsimp only at h
      -- The target is called, and calls the fold of what follows in turn.
      match n with
      | 0 => simp at hr
      | 1 =>
        rw [Machine.call_succ, apply_sequence] at h
        simp at h
      | n + 2 =>
        rw [Machine.call_succ, apply_sequence, Machine.call_succ] at h
        obtain ⟨effects, rest⟩ := exists_runs_of_fold n h
        exact ⟨_, .step (Machine.runIn_limit_of_call hr) rest⟩
  · have notDone : ∀ p, t ≠ .tree (.done p) := fun p hp => isDone ⟨p, hp⟩
    have notSuspended : ∀ d, t ≠ .tree (.suspended d) := fun d hd => isSuspended ⟨d, hd⟩
    rw [fold_other notDone notSuspended] at hlimit
    obtain ⟨rfl, rfl⟩ : .ok .null = r ∧ w = w' := by simpa using hlimit
    exact ⟨_, .nothing w notDone notSuspended⟩

/-- **The fold runs the tree.** -/
theorem runIn_fold_iff {t : Value} {w w' : World} {r : Except Signal Value} :
    (fold limit perform immediate t).runIn w = some (r, w') ↔
      ∃ effects, Runs perform t w effects r w' := by
  refine ⟨fun h => ?_, fun ⟨_, h⟩ => h.runIn_fold⟩
  obtain ⟨n, hn⟩ := (tends_fold Machine.tends_limit perform immediate t).exists_runIn h
  exact exists_runs_of_fold n hn

/-- From one world, one list of effects is performed. -/
theorem Runs.unique {t : Value} {w w₁ w₂ : World} {effects effects' : List Value}
    {r r' : Except Signal Value} (h : Runs perform t w effects r w₁)
    (h' : Runs perform t w effects' r' w₂) : effects = effects' := by
  -- The tree tells which rule applies, and what an effect comes to tells whether the run goes on.
  induction h generalizing effects' with
  | value _ =>
    cases h' with
    | value _ => rfl
    | payloadSignal _ => rfl
    | nothing _ _ _ => rfl
  | payloadSignal _ =>
    cases h' with
    | value _ => rfl
    | payloadSignal _ => rfl
    | nothing _ _ _ => rfl
  | step performed _ ih =>
    cases h' with
    | step performed' rest =>
      obtain ⟨rfl, rfl⟩ := by simpa using performed.symm.trans performed'
      rw [ih rest]
    | stepSignal performed' => simpa using performed.symm.trans performed'
    | nothing _ _ notSuspended => exact absurd rfl (notSuspended _)
  | stepSignal performed =>
    cases h' with
    | step performed' _ => simpa using performed.symm.trans performed'
    | stepSignal _ => rfl
    | nothing _ _ notSuspended => exact absurd rfl (notSuspended _)
  | nothing _ notDone notSuspended =>
    cases h' with
    | value _ => rfl
    | payloadSignal _ => rfl
    | step _ _ => exact absurd rfl (notSuspended _)
    | stepSignal _ => exact absurd rfl (notSuspended _)
    | nothing _ _ _ => rfl

end Tree

end EffectTrees
