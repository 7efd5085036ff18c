import EffectTrees.Proofs.Builder.Materialize
import EffectTrees.Proofs.Depth.Outside
import EffectTrees.Proofs.Value.Twin

/-!
# Binds may be regrouped

To bind `f` to a builder and then `g` is to bind the function that binds `g` to what `f` gives
(`Builder.build_regrouped`). The queues differ: on one side two functions are in the queue, on the
other a single one, whose builder brings the second along as pending. At a finished tree they come
to the same queue, since what a builder has pending goes in front of the rest
(`Regroups.materialize_eq`). At a suspended tree they go into the slots as they are, so they are
compared again wherever a slot is looked into: at once if it is a direct one, or the item of a list,
and behind a function slot when the function is called.

No class and no tree is assumed to be in order, and functions of the program may do anything, such
as to write down who is called with what, or to register classes (module `Proofs.Depth.Outside`).
-/

namespace EffectTrees

namespace Builder

open Machine (limitWith callWith)
open Act (SameRun)

/-- **To bind `h` is to bind `f` and then `g`.** The function `f` gives a builder or the unknown
argument, if it gives anything, and `h` binds `g` to what `f` gives. -/
structure Regroups (call : Caller) (f g h : Value) : Prop where
  returns {v r : Value} {w w' : World} (run : (call f [v]).runIn w = some (.ok r, w')) :
    r = .poison ∨ ∃ b, r = .builder b
  bound (v : Value) : call h [v] = do (← call f [v]).invoke call .bind [g]

/-- Queues that differ in two functions taken for one. -/
inductive Regrouped (f g h : Value) : List Value → List Value → Prop where
  | here (rest : List Value) : Regrouped f g h (f :: g :: rest) (h :: rest)
  | later (k : Value) {l l' : List Value} (rest : Regrouped f g h l l') :
      Regrouped f g h (k :: l) (k :: l')

/-- What becomes of a function slot under either queue. -/
inductive RegroupedBehind (f g h : Value) : Function → Function → Prop where
  | mk {l l' : List Value} (queues : Regrouped f g h l l') (inner : Value) :
      RegroupedBehind f g h (.after (.frame (.materialize l)) inner)
        (.after (.frame (.materialize l')) inner)

variable {f g h : Value} {call : Caller}

theorem Regrouped.append {l l' : List Value} (queues : Regrouped f g h l l') (ks : List Value) :
    Regrouped f g h (ks ++ l) (ks ++ l') := by
  induction ks with
  | nil => exact queues
  | cons k ks ih => exact .later k ih

/-! ### At a finished tree -/

/-- Where `f` goes on with a builder, `h` goes on with the builder and `g` bound to it. -/
theorem Regroups.next_eq (regroups : Regroups call f g h) (p : Payload) :
    next call p h = do return (← next call p f).map (bind · g) := by
  unfold next
  simp only [bind_assoc]
  refine bind_congr fun value => ?_
  cases value with
  | none => rfl
  | some v =>
    refine Act.ext_runIn fun w => ?_
    dsimp only
    simp only [Act.runIn_bind, runIn_probe, regroups.bound]
    rcases run : (call f [v]).runIn w with _ | ⟨(_ | _) | r, w'⟩
    · rfl
    · rfl
    · rfl
    · -- The unknown argument has no binds, so asking for one aborts, which counts as much.
      rcases regroups.returns run with rfl | ⟨b, rfl⟩
      · rfl
      · rfl

/-- **At a finished tree** the queues come to the same. -/
theorem Regroups.materialize_done (regroups : Regroups call f g h) (rest : List Value)
    (p : Payload) :
    materialize call (f :: g :: rest) (.tree (.done p)) =
      materialize call (h :: rest) (.tree (.done p)) := by
  unfold materialize
  dsimp only
  rw [regroups.next_eq, bind_assoc]
  refine bind_congr fun r => ?_
  rw [pure_bind]
  cases r with
  | none => rfl
  | some b =>
    -- What is pending in the builder, `g` at last, comes before the rest.
    simp only [Option.map_some, tree_bind, queueBefore_bind]

/-! ### At any tree -/

/-- A queue is bound to finished and to suspended trees only. -/
theorem materialize_inert {node : Value} (unfinished : ∀ p, node ≠ .tree (.done p))
    (resting : ∀ d, node ≠ .tree (.suspended d)) {queue : List Value} :
    materialize call queue node = pure node := by
  unfold materialize
  split
  · rfl
  · split
    · exact absurd rfl (unfinished _)
    · exact absurd rfl (resting _)
    · rfl

variable {c : Caller}

/-- **One pass over a tree** with either queue runs the same, if it does so behind the slots. -/
theorem Regroups.sameRun_materialize (regroups : Regroups c f g h)
    (inner : ∀ l l', Regrouped f g h l l' → ∀ v,
      SameRun (UpTo (RegroupedBehind f g h)) (c (.frame (.materialize l)) [v])
        (c (.frame (.materialize l')) [v]))
    {l l' : List Value} (queues : Regrouped f g h l l') (node : Value) :
    SameRun (UpTo (RegroupedBehind f g h)) (materialize c l node) (materialize c l' node) := by
  have suspended : ∀ d, SameRun (UpTo (RegroupedBehind f g h))
      (fmap c d (.frame (.materialize l)) >>= fun d' => pure (.tree (.suspended d')))
      (fmap c d (.frame (.materialize l')) >>= fun d' => pure (.tree (.suspended d'))) := fun d =>
    (sameRun_fmap (inner l l' queues) (fun g => .mk queues g) d).bind fun d₁ d₂ related =>
      .pure (.suspended related)
  by_cases finished : ∃ p, node = .tree (.done p)
  · obtain ⟨p, rfl⟩ := finished
    cases queues with
    | here rest =>
      rw [regroups.materialize_done]
      exact .refl .same _
    | later k rest =>
      -- The same function goes on, and what it brings along goes in front of either queue.
      refine SameRun.start (next c p k) fun r => ?_
      cases r with
      | none => exact .pure (.same _)
      | some b => exact inner _ _ (rest.append b.pending.reverse) b.tree
  · by_cases pending : ∃ d, node = .tree (.suspended d)
    · obtain ⟨d, rfl⟩ := pending
      cases queues with
      | here rest => exact suspended d
      | later k rest => exact suspended d
    · rw [materialize_inert (fun p h => finished ⟨p, h⟩) fun d h => pending ⟨d, h⟩,
        materialize_inert (fun p h => finished ⟨p, h⟩) fun d h => pending ⟨d, h⟩]
      exact .pure (.same node)

/-! ### Without a bound on the depth of calls -/

/-- The function binds a queue to a tree. -/
def IsPass (k : Value) : Prop := ∃ queue, k = .frame (.materialize queue)

theorem limitWith_pass (outside : Caller) (queue : List Value) (v : Value) :
    limitWith Value.IsClosure outside (.frame (.materialize queue)) [v] =
      materialize (limitWith Value.IsClosure outside) queue v :=
  Machine.limitWith_eq (Machine.not_isClosure_frame _)

/-- The function that is bound instead gives builders only. -/
theorem Regroups.exists_builder (regroups : Regroups call f g h) {v r : Value} {w w' : World}
    (run : (call h [v]).runIn w = some (.ok r, w')) : ∃ b, r = .builder b := by
  rw [regroups.bound, Act.runIn_bind] at run
  match first : (call f [v]).runIn w with
  | none => simp [first] at run
  | some (.error s, w₁) => simp [first] at run
  | some (.ok r', w₁) =>
    rw [first] at run
    rcases regroups.returns first with rfl | ⟨b, rfl⟩
    · cases run
    · cases run
      exact ⟨_, rfl⟩

/-- A function that binds a queue leaves alone what is no tree, so it is not among those in
question. -/
theorem Regroups.not_isPass {outside : Caller}
    (regroups : Regroups (limitWith Value.IsClosure outside) f g h) : ¬ IsPass f ∧ ¬ IsPass h := by
  have stays : ∀ k, IsPass k → (limitWith Value.IsClosure outside k [.null]).runIn
      (.initial default) = some (.ok .null, .initial default) := by
    rintro _ ⟨queue, rfl⟩
    have inert : materialize (limitWith Value.IsClosure outside) queue .null = pure .null :=
      materialize_inert (fun _ h => by cases h) fun _ h => by cases h
    rw [limitWith_pass]
    rw [inert]
    rfl
  constructor
  · intro pass
    rcases regroups.returns (stays f pass) with same | ⟨b, same⟩
    · cases same
    · cases same
  · intro pass
    obtain ⟨b, same⟩ := regroups.exists_builder (stays h pass)
    cases same

/-- Only what the two functions do matters. -/
theorem Regroups.congr (regroups : Regroups call f g h) (hf : ∀ v, c f [v] = call f [v])
    (hh : ∀ v, c h [v] = call h [v]) : Regroups c f g h := by
  refine ⟨fun {v r w w'} run => regroups.returns (hf v ▸ run), fun v => ?_⟩
  rw [hf, hh, regroups.bound]
  refine Act.ext_runIn fun w => ?_
  rw [Act.runIn_bind, Act.runIn_bind]
  match run : (call f [v]).runIn w with
  | none => rfl
  | some (.error s, w') => rfl
  | some (.ok r, w') =>
    -- To bind a function to a builder calls nothing.
    rcases regroups.returns run with rfl | ⟨b, rfl⟩
    · rfl
    · rfl

/-- **Binding either queue runs the same.** The induction is on the passes inside a pass; whatever
else is called means what it means without a bound. -/
theorem Regroups.sameRun_pass {outside : Caller}
    (regroups : Regroups (limitWith Value.IsClosure outside) f g h) {l l' : List Value}
    (queues : Regrouped f g h l l') (v : Value) :
    SameRun (UpTo (RegroupedBehind f g h))
      (limitWith Value.IsClosure outside (.frame (.materialize l)) [v])
      (limitWith Value.IsClosure outside (.frame (.materialize l')) [v]) := by
  let others : Value → Prop := fun k => ¬ IsPass k
  have closures : ∀ k, Value.IsClosure k → others k := by
    rintro _ ⟨params, body, env, rfl⟩ ⟨queue, same⟩
    cases same
  have pass (queue : List Value) : ¬ others (.frame (.materialize queue)) := fun h => h ⟨queue, rfl⟩
  obtain ⟨hf, hh⟩ : others f ∧ others h := regroups.not_isPass
  have each : ∀ n l l', Regrouped f g h l l' → ∀ v, SameRun (UpTo (RegroupedBehind f g h))
      (callWith others (limitWith Value.IsClosure outside) n (.frame (.materialize l)) [v])
      (callWith others (limitWith Value.IsClosure outside) n (.frame (.materialize l')) [v]) := by
    intro n
    induction n with
    | zero =>
      intro l l' _ v
      rw [Machine.callWith_zero (pass l), Machine.callWith_zero (pass l')]
      exact fun w => .none
    | succ n ih =>
      intro l l' queues v
      rw [Machine.callWith_succ (pass l), Machine.callWith_succ (pass l')]
      have here := regroups.congr (fun v => Machine.callWith_of_given hf n)
        fun v => Machine.callWith_of_given hh n
      exact here.sameRun_materialize ih queues v
  have inside : Machine.limitWith others (limitWith Value.IsClosure outside) =
      limitWith Value.IsClosure outside := Machine.limitWith_limitWith closures
  rw [← inside]
  exact SameRun.limit (Machine.tends_limitWith _ _ _ _) (Machine.tends_limitWith _ _ _ _)
    fun n => each n l l' queues v

/-- **Binds may be regrouped.** Whatever the functions of the program do, to bind `f` and then `g`
to a builder runs the same as to bind the function that binds `g` to what `f` gives, and so do the
functions in the slots of the two trees. -/
theorem build_regrouped (outside : Caller) {f g h : Value}
    (regroups : Regroups (limitWith Value.IsClosure outside) f g h) (b : Builder) :
    SameRun (Twin (limitWith Value.IsClosure outside))
      (((b.bind f).bind g).build (limitWith Value.IsClosure outside))
      ((b.bind h).build (limitWith Value.IsClosure outside)) := by
  have queues : Regrouped f g h (b.queueBefore [f, g]) (b.queueBefore [h]) :=
    (Regrouped.here []).append b.pending.reverse
  have passes := regroups.sameRun_pass queues b.tree
  rw [limitWith_pass, limitWith_pass] at passes
  have built : SameRun (UpTo (RegroupedBehind f g h))
      (((b.bind f).bind g).build (limitWith Value.IsClosure outside))
      ((b.bind h).build (limitWith Value.IsClosure outside)) := by
    unfold build
    simp only [queueBefore_bind, tree_bind]
    exact passes
  refine built.imp fun t t' alike => ⟨_, alike, ?_⟩
  rintro _ _ ⟨queues, inner⟩ args
  rw [Machine.limitWith_eq (Machine.not_isClosure_after _ _),
    Machine.limitWith_eq (Machine.not_isClosure_after _ _)]
  -- The function of the slot is called first, on both sides.
  exact SameRun.start (limitWith Value.IsClosure outside inner args) fun v =>
    regroups.sameRun_pass queues v

/-! ### Two functions that write down their calls -/

namespace Regrouping

open Dialogue

/-- Writes down what it is called with, and says it before it goes on with it. -/
def announce : Value :=
  .function (.closure ["n"] (.log (.var "n") (.library "Builder.of" [.library "Suspended"
    [.make "Say" [("message", .var "n"), ("next", .library "pure" [.var "n"])]]])) [])

/-- Writes down what it is called with, and finishes with it. -/
def finish : Value :=
  .function (.closure ["m"] (.log (.var "m") (.library "Builder.pure" [.var "m"])) [])

/-- Binds the second function to what the first one gives. -/
def composed (f g : Value) : Value :=
  .function (.closure ["x"]
    (.library "Builder.bind" [.call (.var "f") [.var "x"], .var "g"]) [("f", f), ("g", g)])

/-- A builder of something is a builder. -/
theorem exists_builder_of_run {call : Caller} {env : Env} {e : Expr} {r : Value} {w w' : World}
    (run : ((Expr.library "Builder.of" [e]).eval call env).runIn w = some (.ok r, w')) :
    ∃ b, r = .builder b := by
  obtain ⟨vs, w₁, items, built⟩ := Act.exists_runs_of_bind run
  obtain ⟨v, w₂, -, list⟩ := Act.exists_runs_of_bind items
  cases list
  cases built
  exact ⟨_, rfl⟩

theorem regroups_announce :
    Regroups Machine.limit announce finish (composed announce finish) := by
  refine ⟨fun {v r w w'} run => .inr ?_, fun v => ?_⟩
  · rw [announce, Machine.limit_closure] at run
    obtain ⟨u, w₁, -, logs⟩ := Act.exists_runs_of_bind run
    obtain ⟨_, w₂, -, built⟩ := Act.exists_runs_of_bind logs
    exact exists_builder_of_run built
  · let env : Env := [("x", v), ("f", announce), ("g", finish)]
    have hf : Env.find env "f" = pure announce := rfl
    have hx : Env.find env "x" = pure v := rfl
    have hg : Env.find env "g" = pure finish := rfl
    rw [composed, Machine.limit_closure, if_pos (show ["x"].length = [v].length from rfl)]
    change (Expr.library "Builder.bind" [.call (.var "f") [.var "x"], .var "g"]).eval
      Machine.limit env = _
    simp only [Expr.eval, Expr.evalAll, hf, hx, hg, bind_assoc, pure_bind]
    rfl

end Regrouping

open Regrouping Dialogue in
/-- Both functions are bound to a list of a question and a finished tree. -/
theorem build_regrouped_announce :
    Regroups (limitWith Value.IsClosure Machine.limit) announce finish
        (composed announce finish) ∧
      SameRun (Twin (limitWith Value.IsClosure Machine.limit))
        ((((of (.tree (.suspended (.list [ask echo, .tree (Tree.pure (.int 3))])))).bind
          announce).bind finish).build (limitWith Value.IsClosure Machine.limit))
        (((of (.tree (.suspended (.list [ask echo, .tree (Tree.pure (.int 3))])))).bind
          (composed announce finish)).build (limitWith Value.IsClosure Machine.limit)) := by
  have regroups : Regroups (limitWith Value.IsClosure Machine.limit) announce finish
      (composed announce finish) := by
    rw [Machine.limitWith_limit]
    exact regroups_announce
  exact ⟨regroups, build_regrouped Machine.limit regroups _⟩

end Builder

end EffectTrees
