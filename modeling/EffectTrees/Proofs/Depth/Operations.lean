import EffectTrees.Machine
import EffectTrees.Proofs.Depth.Congruence

/-!
# Operations respect comparisons of callers

Every operation that calls functions takes the meaning of calls as an argument. If meanings of calls
are compared by a congruence, so is what the operation does under them. There is one lemma for each
operation; the proofs follow the definitions, and the parts that call nothing are constant.

Evaluation can notice faults, so it does not respect every congruence. It does converge if the
meaning of calls does, up to `Value.tends_apply` for a whole call.
-/

namespace EffectTrees

section Congruence

variable {ι : Type} {R : Congruence ι} {cs : ι → Caller} {c : Caller} (hc : R.Callers cs c)
include hc

/-! ### Descriptors -/

theorem Slot.respects_follow (s : Slot) (d : Value) :
    R.Rel (fun i => s.follow (cs i) d) (s.follow c d) := by
  refine (R.const (d.lookup s.name)).bind fun v => ?_
  cases s.kind with
  | direct => exact R.const _
  | function n => exact hc v _

theorem Slot.respects_map (s : Slot) (d f : Value) :
    R.Rel (fun i => s.map (cs i) d f) (s.map c d f) := by
  refine (R.const (d.lookup s.name)).bind fun v => ?_
  cases s.kind with
  | direct => exact (hc f [v]).bind fun _ => R.const _
  | function n => exact R.const _

theorem respects_fmap (d f : Value) : R.Rel (fun i => fmap (cs i) d f) (fmap c d f) := by
  unfold fmap
  split
  · exact (Congruence.Rel.mapM (fun v => hc f [v]) _).bind fun _ => R.const _
  · split
    · exact (R.const _).bind fun s => s.respects_map hc _ f
    · exact R.const _
  · exact R.const _

theorem respects_erase (d : Value) : R.Rel (fun i => erase (cs i) d) (erase c d) := by
  unfold erase
  split
  · split
    -- An instance of an effect class is erased without a call.
    · exact R.const _
    · exact respects_fmap hc _ _
  · exact respects_fmap hc d _

theorem respects_locate (family : ClassRef) (d : Value) :
    R.Rel (fun i => locate (cs i) family d) (locate c family d) := by
  unfold locate
  split
  · split
    · exact (R.const _).bind fun s => s.respects_follow hc _
    · exact R.const _
  · exact R.const _

/-! ### Trees -/

theorem Payload.respects_force (p : Payload) : R.Rel (fun i => p.force (cs i)) (p.force c) := by
  cases p with
  | resolved v => exact R.const _
  | deferred f => exact hc f []

theorem Payload.respects_resolve (p : Payload) : R.Rel (fun i => p.resolve (cs i)) (p.resolve c) :=
  (p.respects_force hc).probe

theorem respects_forcePayload (v : Value) :
    R.Rel (fun i => forcePayload (cs i) v) (forcePayload c v) := by
  unfold forcePayload
  split
  · exact Payload.respects_force hc _
  · exact R.const _

omit hc in
theorem respects_guarded {as : ι → Act Value} {a : Act Value} (ha : R.Rel as a) :
    R.Rel (fun i => guarded (as i)) (guarded a) :=
  ha.probe.bind fun _ => R.const _

theorem Tree.respects_map (t : Tree) (f : Value) : R.Rel (fun i => t.map (cs i) f) (t.map c f) := by
  cases t with
  | done p =>
    refine (p.respects_resolve hc).bind fun r => ?_
    cases r with
    | none => exact R.const _
    | some v => exact respects_guarded ((hc f [v]).bind fun _ => R.const _)
  | suspended d => exact (respects_fmap hc d _).bind fun _ => R.const _
  | failed => exact R.const _

theorem Tree.respects_bind (t : Tree) (f : Value) : R.Rel (fun i => t.bind (cs i) f) (t.bind c f) := by
  cases t with
  | done p =>
    refine (p.respects_resolve hc).bind fun r => ?_
    cases r with
    | none => exact R.const _
    | some v => exact respects_guarded (hc f [v])
  | suspended d => exact (respects_fmap hc d _).bind fun _ => R.const _
  | failed => exact R.const _

theorem Tree.respects_ap (t : Tree) (u : Value) : R.Rel (fun i => t.ap (cs i) u) (t.ap c u) := by
  unfold Tree.ap
  split
  · exact R.const _
  -- Both payloads are computed before either outcome is looked at.
  · refine (Payload.respects_resolve hc _).bind fun f => (Payload.respects_resolve hc _).bind fun v => ?_
    split
    · exact respects_guarded ((hc _ _).bind fun _ => R.const _)
    · exact R.const _
  · refine (Payload.respects_resolve hc _).bind fun f => ?_
    split
    · exact (respects_fmap hc _ _).bind fun _ => R.const _
    · exact R.const _
  · exact (respects_fmap hc _ _).bind fun _ => R.const _
  · exact R.const _

theorem Tree.respects_lift (d : Value) : R.Rel (fun i => lift (cs i) d) (lift c d) :=
  (respects_fmap hc d _).bind fun _ => R.const _

theorem PlainTree.respects_lift (d : Value) : R.Rel (fun i => lift (cs i) d) (lift c d) :=
  (respects_fmap hc d _).bind fun _ => R.const _

theorem PlainTree.respects_embed (v : Value) : R.Rel (fun i => embed (cs i) v) (embed c v) := by
  unfold embed
  split
  · exact R.const _
  · exact (respects_fmap hc _ _).bind fun _ => R.const _
  · exact R.const _

theorem Analysis.respects_walk (stepper : Value) (trace : List Value) (node : Value) :
    R.Rel (fun i => walk (cs i) stepper trace node) (walk c stepper trace node) := by
  unfold walk
  split
  · exact R.const _
  · exact (Payload.respects_resolve hc _).bind fun _ => R.const _
  · refine (respects_erase hc _).bind fun e => (hc stepper _).probe.bind fun r => ?_
    split
    · exact hc _ _
    · exact R.const _
  · exact R.const _

/-! ### Builders -/

theorem Builder.respects_next (p : Payload) (f : Value) :
    R.Rel (fun i => next (cs i) p f) (next c p f) := by
  refine (p.respects_resolve hc).bind fun r => ?_
  cases r with
  | none => exact R.const _
  | some v => exact (hc f [v]).probe.bind fun _ => R.const _

theorem Builder.respects_materialize (queue : List Value) (node : Value) :
    R.Rel (fun i => materialize (cs i) queue node) (materialize c queue node) := by
  unfold materialize
  split
  · exact R.const _
  · split
    · refine (respects_next hc _ _).bind fun b => ?_
      split
      · exact R.const _
      · exact hc _ _
    · exact (respects_fmap hc _ _).bind fun _ => R.const _
    · exact R.const _

theorem Builder.respects_build (b : Builder) : R.Rel (fun i => b.build (cs i)) (b.build c) :=
  respects_materialize hc _ _

theorem Builder.respects_choose (left : Builder) (other : Value) :
    R.Rel (fun i => left.choose (cs i) other) (left.choose c other) :=
  (left.respects_build hc).bind fun _ => R.const _

/-! ### Members -/

namespace Value

theorem respects_invokeSlot (name kind arity : Value) (m : Member) (args : List Value) :
    R.Rel (fun i => invokeSlot (cs i) name kind arity m args)
      (invokeSlot c name kind arity m args) := by
  unfold invokeSlot
  split
  · refine (R.const _).bind fun _ => (R.const _).bind fun v =>
      (R.const _).bind fun direct => ?_
    cases direct with
    | true => exact R.const _
    | false => exact (R.const _).bind fun i => hc v _
  · exact R.const _
  · refine (R.const _).bind fun _ => (R.const _).bind fun v =>
      (R.const _).bind fun direct => ?_
    cases direct with
    | true => exact (hc _ _).bind fun _ => R.const _
    | false => exact R.const _
  all_goals exact R.const _

theorem respects_invokeTree (t : Tree) (m : Member) (args : List Value) :
    R.Rel (fun i => invokeTree (cs i) t m args) (invokeTree c t m args) := by
  unfold invokeTree
  split
  · exact t.respects_map hc _
  · exact t.respects_bind hc _
  · exact t.respects_ap hc _
  all_goals exact R.const _

theorem respects_invokeBuilder (b : Builder) (m : Member) (args : List Value) :
    R.Rel (fun i => invokeBuilder (cs i) b m args) (invokeBuilder c b m args) := by
  unfold invokeBuilder
  split
  case h_5 => exact b.respects_build hc
  case h_8 => exact (Tree.respects_lift hc _).bind fun _ => R.const _
  all_goals exact R.const _

theorem respects_flatMapItems (v f : Value) :
    R.Rel (fun i => flatMapItems (cs i) v f) (flatMapItems c v f) := by
  refine (R.const v.items).bind fun xs => Congruence.Rel.bind ?_ fun _ => R.const _
  refine Congruence.Rel.mapM (fun x => ?_) xs
  exact (hc f [x]).bind fun _ => R.const _

theorem respects_invokeListTarget (m : Member) (args : List Value) :
    R.Rel (fun i => invokeListTarget (cs i) m args) (invokeListTarget c m args) := by
  unfold invokeListTarget
  split
  case h_3 => exact respects_flatMapItems hc _ _
  all_goals exact R.const _

theorem respects_invokeTreeTarget (m : Member) (args : List Value) :
    R.Rel (fun i => invokeTreeTarget (cs i) m args) (invokeTreeTarget c m args) := by
  unfold invokeTreeTarget
  split
  case h_3 => exact hc _ _
  all_goals exact R.const _

theorem respects_invoke (v : Value) (m : Member) (args : List Value) :
    R.Rel (fun i => v.invoke (cs i) m args) (v.invoke c m args) := by
  unfold invoke
  split
  · exact respects_invokeTree hc _ _ _
  · exact respects_invokeBuilder hc _ _ _
  · exact respects_invokeListTarget hc _ _
  · exact respects_invokeTreeTarget hc _ _
  · split
    · exact hc _ _
    · exact R.const _
  · exact respects_invokeSlot hc _ _ _ _ _
  · exact R.const _
  · exact (R.const _).bind fun _ => hc _ _

end Value

/-! ### Eliminations -/

namespace Tree

theorem respects_iterate (algebra node : Value) :
    R.Rel (fun i => iterate (cs i) algebra node) (iterate c algebra node) := by
  unfold iterate
  split
  · exact (Payload.respects_resolve hc _).bind fun _ => R.const _
  · exact (respects_fmap hc _ _).bind fun _ => hc _ _
  · exact R.const _

theorem respects_leafIn (target : Value) (p : Payload) :
    R.Rel (fun i => leafIn (cs i) target p) (leafIn c target p) := by
  refine (p.respects_resolve hc).bind fun r => ?_
  cases r with
  | none => exact target.respects_invoke hc _ _
  | some v => exact target.respects_invoke hc _ _

theorem respects_iterateIn (algebra target node : Value) :
    R.Rel (fun i => iterateIn (cs i) algebra target node) (iterateIn c algebra target node) := by
  unfold iterateIn
  split
  · exact respects_leafIn hc _ _
  · exact (respects_fmap hc _ _).bind fun _ => hc _ _
  · exact target.respects_invoke hc _ _

theorem respects_postponeSlots (algebra target d : Value) :
    R.Rel (fun i => postponeSlots (cs i) algebra target d) (postponeSlots c algebra target d) := by
  unfold postponeSlots
  split
  · split
    · refine (R.const _).bind fun s => ?_
      cases s.kind with
      | function n => exact respects_fmap hc _ _
      | direct => exact respects_fmap hc _ _
    · exact respects_fmap hc _ _
  · exact respects_fmap hc _ _

theorem respects_iterateLater (algebra target node : Value) :
    R.Rel (fun i => iterateLater (cs i) algebra target node)
      (iterateLater c algebra target node) := by
  unfold iterateLater
  split
  · exact respects_leafIn hc _ _
  · exact (respects_postponeSlots hc _ _ _).bind fun _ => hc _ _
  · exact target.respects_invoke hc _ _

theorem respects_fold (transform target node : Value) :
    R.Rel (fun i => fold (cs i) transform target node) (fold c transform target node) := by
  unfold fold
  split
  · exact respects_leafIn hc _ _
  -- Whether the target can sequence is found out without a call.
  · exact (R.const _).bind fun _ => (hc _ _).bind fun _ => target.respects_invoke hc _ _
  · exact target.respects_invoke hc _ _

theorem respects_hoist (transform node : Value) :
    R.Rel (fun i => hoist (cs i) transform node) (hoist c transform node) := by
  unfold hoist
  split
  · exact (hc _ _).bind fun _ => (respects_fmap hc _ _).bind fun _ => R.const _
  · exact R.const _

end Tree

theorem Frame.respects_run (k : Frame) (v : Value) :
    R.Rel (fun i => k.run (cs i) v) (k.run c v) := by
  unfold Frame.run
  cases k with
  | map f | bind f | ap argument => exact v.respects_invoke hc _ _
  | finish f => exact (hc f [v]).bind fun _ => R.const _
  | iterate algebra => exact Tree.respects_iterate hc _ _
  | iterateIn algebra target => exact Tree.respects_iterateIn hc _ _ _
  | iterateLater algebra target => exact Tree.respects_iterateLater hc _ _ _
  | fold transform target => exact Tree.respects_fold hc _ _ _
  | hoist transform => exact Tree.respects_hoist hc _ _
  | embed => exact PlainTree.respects_embed hc _
  | analyze stepper trace => exact Analysis.respects_walk hc _ _ _
  | materialize queue => exact Builder.respects_materialize hc _ _
  | choose left other => exact left.respects_choose hc _
  | _ => exact R.const _

/-! ### The library -/

namespace Library

/-- Operations that may be missing are related if all of them are missing, or all are there and
related. -/
def OptionRel (R : Congruence ι) (as : ι → Option (Act Value)) (a : Option (Act Value)) : Prop :=
  (a = none ∧ ∀ i, as i = none) ∨
    ∃ bs b, a = some b ∧ (∀ i, as i = some (bs i)) ∧ R.Rel bs b

omit hc in
theorem OptionRel.none : OptionRel R (fun _ => Option.none) Option.none :=
  .inl ⟨rfl, fun _ => rfl⟩

omit hc in
theorem OptionRel.some {as : ι → Act Value} {a : Act Value} (ha : R.Rel as a) :
    OptionRel R (fun i => Option.some (as i)) (Option.some a) :=
  .inr ⟨as, a, rfl, fun _ => rfl, ha⟩

omit hc in
theorem OptionRel.or {as bs : ι → Option (Act Value)} {a b : Option (Act Value)}
    (ha : OptionRel R as a) (hb : OptionRel R bs b) :
    OptionRel R (fun i => (as i).or (bs i)) (a.or b) := by
  rcases ha with ⟨rfl, has⟩ | ⟨as', a', rfl, has, ha'⟩
  · simpa only [has, Option.none_or] using hb
  · exact .inr ⟨as', a', Option.some_or, fun i => by simp only [has, Option.some_or], ha'⟩

theorem respects_either (v w : Value) :
    R.Rel (fun i => either (cs i) v w) (either c v w) := by
  unfold either
  split
  · exact Value.respects_invoke hc _ _ _
  · exact Value.respects_invoke hc _ _ _
  all_goals exact R.const _

theorem respects_onTrees (name : String) (args : List Value) :
    OptionRel R (fun i => onTrees? (cs i) name args) (onTrees? c name args) := by
  unfold onTrees?
  split
  · exact .some (Value.respects_invoke hc _ _ _)
  · exact .some (Value.respects_invoke hc _ _ _)
  · exact .some (Value.respects_invoke hc _ _ _)
  · exact .some (Value.respects_invoke hc _ _ _)
  · exact .some (respects_either hc _ _)
  · exact .some (Tree.respects_lift hc _)
  · exact .some (PlainTree.respects_lift hc _)
  · exact .some (PlainTree.respects_embed hc _)
  · exact .some ((hc _ _).probe.bind fun _ => R.const _)
  · exact .some (respects_forcePayload hc _)
  · exact .some ((respects_forcePayload hc _).probe.bind fun _ => R.const _)
  · split
    · exact .some (R.const _)
    · exact .none
  · exact .none

theorem respects_onEffects (name : String) (args : List Value) :
    OptionRel R (fun i => onEffects? (cs i) name args) (onEffects? c name args) := by
  unfold onEffects?
  split
  · exact .some (respects_fmap hc _ _)
  · exact .some (respects_erase hc _)
  · exact .some (R.const _)
  · exact .some (Value.respects_invoke hc _ _ _)
  · exact .some (Value.respects_invoke hc _ _ _)
  · exact .some (Value.respects_invoke hc _ _ _)
  · exact .some (R.const _)
  · exact .some (respects_locate hc _ _)
  · exact .some (R.const _)
  · exact .none

theorem respects_eliminations (name : String) (args : List Value) :
    OptionRel R (fun i => eliminations? (cs i) name args) (eliminations? c name args) := by
  unfold eliminations?
  split
  · exact .some (Analysis.respects_walk hc _ _ _)
  · exact .some (Analysis.respects_walk hc _ _ _)
  · exact .some (Analysis.respects_walk hc _ _ _)
  · exact .some (Analysis.respects_walk hc _ _ _)
  · exact .some (Tree.respects_iterate hc _ _)
  · exact .some (Tree.respects_iterateIn hc _ _ _)
  · exact .some (Tree.respects_iterateLater hc _ _ _)
  · exact .some (Tree.respects_fold hc _ _ _)
  · exact .some (Tree.respects_fold hc _ _ _)
  · exact .some (Tree.respects_hoist hc _ _)
  · exact .some (Value.respects_invoke hc _ _ _)
  · exact .some (Value.respects_invoke hc _ _ _)
  · exact .some (Value.respects_invoke hc _ _ _)
  · exact .none

theorem respects_onBuilders (name : String) (args : List Value) :
    OptionRel R (fun i => onBuilders? (cs i) name args) (onBuilders? c name args) := by
  unfold onBuilders?
  split
  · exact .some (R.const _)
  · exact .some (R.const _)
  · exact .some ((Tree.respects_lift hc _).bind fun _ => R.const _)
  · exact .some (R.const _)
  · exact .some (Value.respects_invoke hc _ _ _)
  · exact .some (Value.respects_invoke hc _ _ _)
  · exact .some (Value.respects_invoke hc _ _ _)
  · exact .some (Value.respects_invoke hc _ _ _)
  · exact .some (respects_either hc _ _)
  · exact .some (Value.respects_invoke hc _ _ _)
  · exact .none

theorem respects_run (name : String) (args : List Value) :
    R.Rel (fun i => run (cs i) name args) (run c name args) := by
  have known : OptionRel R (fun _ => constructor? name args) (constructor? name args) := by
    cases constructor? name args with
    | none => exact .none
    | some a => exact .some (R.const a)
  -- Whether a table has an operation depends on its name and arguments alone, so one table answers
  -- for all callers.
  have h := known.or <| (respects_onTrees hc name args).or <| (respects_onEffects hc name args).or <|
    (respects_eliminations hc name args).or <| respects_onBuilders hc name args
  unfold run
  rcases h with ⟨ha, has⟩ | ⟨bs, b, ha, has, hb⟩
  · simp only [ha, has]
    exact R.const _
  · simpa only [ha, has] using hb

end Library

end Congruence

/-! ### Convergence -/

section

open Act (Tends tends_const convergence)

variable {cs : Nat → Caller} {c : Caller}

theorem tends_erase (hc : Caller.Tends cs c) (d : Value) :
    Tends (fun n => erase (cs n) d) (erase c d) :=
  respects_erase (R := convergence) hc d

theorem Analysis.tends_walk (hc : Caller.Tends cs c) (stepper : Value) (trace : List Value)
    (node : Value) : Tends (fun n => walk (cs n) stepper trace node) (walk c stepper trace node) :=
  respects_walk (R := convergence) hc stepper trace node

theorem Builder.tends_next (hc : Caller.Tends cs c) (p : Payload) (f : Value) :
    Tends (fun n => next (cs n) p f) (next c p f) :=
  respects_next (R := convergence) hc p f

theorem Builder.tends_materialize (hc : Caller.Tends cs c) (queue : List Value) (node : Value) :
    Tends (fun n => materialize (cs n) queue node) (materialize c queue node) :=
  respects_materialize (R := convergence) hc queue node

theorem Tree.tends_fold (hc : Caller.Tends cs c) (transform target node : Value) :
    Tends (fun n => fold (cs n) transform target node) (fold c transform target node) :=
  respects_fold (R := convergence) hc transform target node

theorem tends_repeated {turns : Nat → Nat → Value → Act Value} {turn : Nat → Value → Act Value}
    (ht : ∀ i v, Tends (fun n => turns n i v) (turn i v)) (index : Nat) (acc : Value) (k : Nat) :
    Tends (fun n => repeated (turns n) index acc k) (repeated turn index acc k) := by
  induction k generalizing index acc with
  | zero => exact tends_const _
  | succ k ih => exact (ht index acc).bind fun v => ih (index + 1) v

mutual

theorem Expr.tends_eval (hc : Caller.Tends cs c) (env : Env) (e : Expr) :
    Tends (fun n => e.eval (cs n) env) (e.eval c env) := by
  cases e with
  | call fn args =>
    refine (Expr.tends_eval hc env fn).bind fun f =>
      (Expr.tends_evalAll hc env args).bind fun vs => ?_
    split
    · exact hc f vs
    · exact tends_const _
  | cond test yes no =>
    refine (Expr.tends_eval hc env test).bind fun v => (tends_const v.truth).bind fun b => ?_
    split
    · exact Expr.tends_eval hc env yes
    · exact Expr.tends_eval hc env no
  | bind name value body =>
    exact (Expr.tends_eval hc env value).bind fun v => Expr.tends_eval hc _ body
  | list items => exact (Expr.tends_evalAll hc env items).bind fun _ => tends_const _
  | tuple items => exact (Expr.tends_evalAll hc env items).bind fun _ => tends_const _
  | log entry body =>
    exact (Expr.tends_eval hc env entry).bind fun v => (tends_const _).bind fun _ =>
      Expr.tends_eval hc env body
  | attempt body handler =>
    refine (Expr.tends_eval hc env body).tryCatch fun s => ?_
    -- An abort passes the handler by.
    cases s with
    | abort => exact tends_const _
    | fault f => exact Expr.tends_eval hc env handler
  | loop turns start acc index body =>
    -- The number of turns is fixed before the first turn.
    exact (Expr.tends_eval hc env turns).bind fun v => (tends_const v.turns).bind fun k =>
      (Expr.tends_eval hc env start).bind fun first =>
        tends_repeated (fun i v => Expr.tends_eval hc _ body) 0 first k
  | make className args =>
    exact (tends_const _).bind fun cl => (Expr.tends_evalNamed hc env args).bind fun _ =>
      tends_const _
  | cases subject branches otherwise =>
    refine (Expr.tends_eval hc env subject).bind fun v =>
      (Expr.tends_evalCases hc env v branches).bind fun r => ?_
    cases r with
    | some w => exact tends_const _
    | none => exact Expr.tends_evalOption hc env otherwise
  | field subject name => exact (Expr.tends_eval hc env subject).bind fun _ => tends_const _
  | target members => exact (Expr.tends_evalNamed hc env members).bind fun _ => tends_const _
  | operator name args => exact (Expr.tends_evalAll hc env args).bind fun _ => tends_const _
  | library name args =>
    exact (Expr.tends_evalAll hc env args).bind fun vs =>
      Library.respects_run (R := convergence) hc name vs
  | _ => exact tends_const _

theorem Expr.tends_evalAll (hc : Caller.Tends cs c) (env : Env) (es : List Expr) :
    Tends (fun n => Expr.evalAll (cs n) env es) (Expr.evalAll c env es) := by
  cases es with
  | nil => exact tends_const _
  | cons e es =>
    exact (Expr.tends_eval hc env e).bind fun _ => (Expr.tends_evalAll hc env es).bind fun _ =>
      tends_const _

theorem Expr.tends_evalNamed (hc : Caller.Tends cs c) (env : Env) (es : List (String × Expr)) :
    Tends (fun n => Expr.evalNamed (cs n) env es) (Expr.evalNamed c env es) := by
  match es with
  | [] => exact tends_const _
  | (name, e) :: es =>
    exact (Expr.tends_eval hc env e).bind fun _ => (Expr.tends_evalNamed hc env es).bind fun _ =>
      tends_const _

theorem Expr.tends_evalCases (hc : Caller.Tends cs c) (env : Env) (v : Value)
    (branches : List ((String × List (String × String)) × Expr)) :
    Tends (fun n => Expr.evalCases (cs n) env v branches) (Expr.evalCases c env v branches) := by
  match branches with
  | [] => exact tends_const _
  | ((className, fields), body) :: rest =>
    refine (tends_const (v.belongsTo className)).bind fun b => ?_
    split
    · exact (tends_const _).bind fun env' => (Expr.tends_eval hc env' body).bind fun _ =>
        tends_const _
    · exact Expr.tends_evalCases hc env v rest

theorem Expr.tends_evalOption (hc : Caller.Tends cs c) (env : Env) (e : Option Expr) :
    Tends (fun n => Expr.evalOption (cs n) env e) (Expr.evalOption c env e) := by
  cases e with
  | none => exact tends_const _
  | some e => exact Expr.tends_eval hc env e

end

/-- **One call converges** with the calls inside it. -/
theorem Value.tends_apply (hc : Caller.Tends cs c) (f : Value) (args : List Value) :
    Tends (fun n => f.apply (cs n) args) (f.apply c args) := by
  unfold Value.apply
  split
  · split
    · exact Expr.tends_eval hc _ _
    · exact tends_const _
  · exact tends_const _
  · exact Frame.respects_run (R := convergence) hc _ _
  · exact Frame.respects_run (R := convergence) hc _ _
  · exact (hc _ _).bind fun v => hc _ _
  · exact tends_const _
  · exact respects_locate (R := convergence) hc _ _
  -- The other calls have no calls inside them.
  all_goals exact tends_const _

end

end EffectTrees
