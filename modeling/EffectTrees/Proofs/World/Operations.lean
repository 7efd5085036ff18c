import EffectTrees.Proofs.World.History

/-!
# Whatever a program does can be traced

One instance of `Act.Traceable` for each operation. They follow the definitions: what is put together
from traceable parts is found by instances, and the cases of a definition are split by hand. Where
the classes are read, it has to be said why the slots that are written down do not matter. An
operation that calls functions is traceable if every call is, so at last, by induction on the depth,
every call is (`Machine.traceable_limit`).
-/

namespace EffectTrees

open Act (Traceable)

/-! ### Values and instances -/

section

/-- A value is written in the same way whichever slots are written down. -/
instance traceable_write {α : Type} (v : Value) (showDeferred : Bool) (f : Option String → Act α)
    [∀ text, (f text).Traceable] :
    (do f (← Act.ofFault (v.write (← Act.classes) showDeferred))).Traceable :=
  .read (fun t id => by rw [v.write_forget]) fun t => inferInstance

instance (requirement : Requirement) (v : Value) {α : Type} :
    (Act.refuse requirement v : Act α).Traceable := by
  unfold Act.refuse
  infer_instance

instance (v w : Value) : (Act.equal v w).Traceable := by
  unfold Act.equal
  exact .read (fun t id => by rw [v.equal?_forget]) fun t => inferInstance

instance (c : ClassRef) (args : List (String × Value)) : (Instance.make c args).Traceable := by
  unfold Instance.make
  exact .read (fun t id => by simp only [ClassTable.givenFields_forget,
    ClassTable.initializer?_forget, ClassTable.guards_forget]) fun t => inferInstance

instance (c : ClassRef) (args : List Value) : (Instance.makeInOrder c args).Traceable := by
  unfold Instance.makeInOrder
  exact .read (fun t id => by rw [ClassTable.givenFields_forget]) fun t => inferInstance

instance (c : ClassRef) (own : List (String × Value)) (name : String) (new : Value) :
    (Instance.replace c own name new).Traceable := by
  have copied : ∀ fields : List Field, ∀ t id,
      Instance.arguments (ClassTable.forget t id) c ((name, new) :: own) fields =
        Instance.arguments t c ((name, new) :: own) fields := fun fields t id => by
    unfold Instance.arguments
    rw [ClassTable.memberOf?_forget]
  unfold Instance.replace
  refine .read (fun t id => by simp only [ClassTable.fields?_forget, copied]) fun t => ?_
  split <;> infer_instance

end

namespace Value

instance {α : Type} (name : String) : (poisonMember name : Act α).Traceable := by
  unfold poisonMember
  infer_instance

instance (v : Value) (name : String) : (v.lookup name).Traceable := by
  have fromClass : ∀ c : ClassRef, (do
      match (← Act.classes).valueAt? c.id name with
      | some s => pure (scalar s)
      | none => Act.fail .missingMember : Act Value).Traceable := fun c =>
    .read (fun t id => by rw [ClassTable.valueAt?_forget]) fun t => by split <;> infer_instance
  unfold lookup
  split
  case h_3 => exact fromClass _
  case h_4 => exact fromClass _
  all_goals infer_instance

instance (v : Value) (name : String) (new : Value) : (v.replaceMember name new).Traceable := by
  unfold replaceMember
  split <;> infer_instance

instance (d name new : Value) : (d.replaceNamed name new).Traceable := by
  unfold replaceNamed
  split
  · infer_instance
  · exact .read (fun t id => by rw [hash_forget]) fun t => inferInstance

instance (v : Value) : v.items.Traceable := by
  unfold items
  split <;> infer_instance

instance (v : Value) : v.asName.Traceable := by
  unfold asName
  split <;> infer_instance

instance (v : Value) : v.isDirectWord.Traceable := by
  unfold isDirectWord
  split <;> infer_instance

instance (v : Value) : v.asArity.Traceable := by
  unfold asArity
  split <;> infer_instance

instance (v : Value) (m : Member) : (v.requireMember m).Traceable := by
  unfold requireMember
  split <;> infer_instance

end Value

section

variable (call : Caller) [call.Traceable]

/-! ### Descriptors and trees -/

instance (s : Slot) (d : Value) : (s.follow call d).Traceable := by
  unfold Slot.follow
  cases s.kind <;> infer_instance

instance (s : Slot) (d f : Value) : (s.map call d f).Traceable := by
  unfold Slot.map
  cases s.kind <;> infer_instance

instance (d f : Value) : (fmap call d f).Traceable := by
  unfold fmap
  split <;> infer_instance

instance (d : Value) : (erase call d).Traceable := by
  unfold erase
  split <;> infer_instance

instance (family : ClassRef) (d : Value) : (locate call family d).Traceable := by
  unfold locate
  split <;> infer_instance

omit [call.Traceable] in
instance (family : ClassRef) : (deriveLocator family).Traceable := by
  have constructors : ∀ t : ClassTable,
      (match t.constructorsOf family.id with
        | [] => Act.fail (.derivation ⟨family.name, .noConstructors⟩)
        | ks => do
          ks.forM fun k => discard (Act.slotOf (t.ref k))
          pure (.locator family) : Act Value).Traceable := fun t => by
    split <;> infer_instance
  have read := Traceable.read (fun t id => by
    simp only [ClassTable.constructorsOf_forget, ClassTable.ref_forget]) constructors
  unfold deriveLocator
  infer_instance

instance (p : Payload) : (p.force call).Traceable := by
  cases p <;> unfold Payload.force <;> infer_instance

instance (p : Payload) : (p.resolve call).Traceable := by
  unfold Payload.resolve
  infer_instance

instance (v : Value) : (forcePayload call v).Traceable := by
  unfold forcePayload
  split <;> infer_instance

omit [call.Traceable] in
instance (a : Act Value) [a.Traceable] : (guarded a).Traceable := by
  unfold guarded
  infer_instance

instance (t : Tree) (f : Value) : (t.map call f).Traceable := by
  unfold Tree.map
  split
  · refine .andThen fun r => ?_
    split <;> infer_instance
  all_goals infer_instance

instance (t : Tree) (f : Value) : (t.bind call f).Traceable := by
  unfold Tree.bind
  split
  · refine .andThen fun r => ?_
    split <;> infer_instance
  all_goals infer_instance

instance (t : Tree) (u : Value) : (t.ap call u).Traceable := by
  unfold Tree.ap
  split
  · infer_instance
  · refine .andThen fun f => .andThen fun v => ?_
    split <;> infer_instance
  · refine .andThen fun f => ?_
    split <;> infer_instance
  all_goals infer_instance

instance (d : Value) : (Tree.lift call d).Traceable := by
  unfold Tree.lift
  infer_instance

instance (d : Value) : (PlainTree.lift call d).Traceable := by
  unfold PlainTree.lift
  infer_instance

instance (v : Value) : (PlainTree.embed call v).Traceable := by
  unfold PlainTree.embed
  split <;> infer_instance

instance (stepper : Value) (trace : List Value) (node : Value) :
    (Analysis.walk call stepper trace node).Traceable := by
  unfold Analysis.walk
  split
  · infer_instance
  · refine .andThen fun r => ?_
    split <;> infer_instance
  · refine .andThen fun e => .andThen fun r => ?_
    split <;> infer_instance
  · infer_instance

instance (stepper tree : Value) : (Analysis.analyze call stepper tree).Traceable := by
  unfold Analysis.analyze
  infer_instance

/-! ### Builders -/

instance (p : Payload) (f : Value) : (Builder.next call p f).Traceable := by
  unfold Builder.next
  refine .andThen fun r => ?_
  split
  · infer_instance
  · refine .andThen fun s => ?_
    split <;> infer_instance

instance (queue : List Value) (node : Value) : (Builder.materialize call queue node).Traceable := by
  unfold Builder.materialize
  split
  · infer_instance
  · split
    · refine .andThen fun b => ?_
      split <;> infer_instance
    all_goals infer_instance

instance (b : Builder) : (b.build call).Traceable := by
  unfold Builder.build
  infer_instance

instance (b : Builder) (other : Value) : (b.choose call other).Traceable := by
  unfold Builder.choose
  refine .andThen fun t => ?_
  split <;> infer_instance

/-! ### Members -/

namespace Value

instance (name kind arity : Value) (m : Member) (args : List Value) :
    (invokeSlot call name kind arity m args).Traceable := by
  unfold invokeSlot
  split <;> infer_instance

instance (t : Tree) (m : Member) (args : List Value) : (invokeTree call t m args).Traceable := by
  unfold invokeTree
  split <;> infer_instance

instance (b : Builder) (m : Member) (args : List Value) :
    (invokeBuilder call b m args).Traceable := by
  unfold invokeBuilder
  split <;> infer_instance

instance (v f : Value) : (flatMapItems call v f).Traceable := by
  unfold flatMapItems
  infer_instance

instance (m : Member) (args : List Value) : (invokeListTarget call m args).Traceable := by
  unfold invokeListTarget
  split <;> infer_instance

instance (m : Member) (args : List Value) : (invokeTreeTarget call m args).Traceable := by
  unfold invokeTreeTarget
  split <;> infer_instance

instance (v : Value) (m : Member) (args : List Value) : (v.invoke call m args).Traceable := by
  unfold invoke
  split
  case h_5 => split <;> infer_instance
  all_goals infer_instance

end Value

/-! ### Eliminations -/

namespace Tree

instance (algebra node : Value) : (iterate call algebra node).Traceable := by
  unfold iterate
  split <;> infer_instance

instance (target : Value) (p : Payload) : (leafIn call target p).Traceable := by
  unfold leafIn
  refine .andThen fun r => ?_
  split <;> infer_instance

instance (algebra target node : Value) : (iterateIn call algebra target node).Traceable := by
  unfold iterateIn
  split <;> infer_instance

instance (algebra target d : Value) : (postponeSlots call algebra target d).Traceable := by
  unfold postponeSlots
  split
  · split
    · refine .andThen fun s => ?_
      split <;> infer_instance
    · infer_instance
  · infer_instance

instance (algebra target node : Value) : (iterateLater call algebra target node).Traceable := by
  unfold iterateLater
  split <;> infer_instance

instance (transform target node : Value) : (fold call transform target node).Traceable := by
  unfold fold
  split <;> infer_instance

instance (transform node : Value) : (hoist call transform node).Traceable := by
  unfold hoist
  split <;> infer_instance

end Tree

instance (k : Frame) (v : Value) : (k.run call v).Traceable := by
  unfold Frame.run
  cases k <;> infer_instance

/-! ### The library -/

namespace Library

/-- An operation that may be missing is traceable if it is there. -/
def OptionTraceable (a : Option (Act Value)) : Prop := ∀ act, a = some act → act.Traceable

omit [call.Traceable] in
theorem OptionTraceable.none : OptionTraceable none := fun _ h => by cases h

omit [call.Traceable] in
theorem OptionTraceable.some {a : Act Value} [a.Traceable] : OptionTraceable (some a) :=
  fun _ h => Option.some.inj h ▸ inferInstance

omit [call.Traceable] in
theorem OptionTraceable.or {a b : Option (Act Value)} (ha : OptionTraceable a)
    (hb : OptionTraceable b) : OptionTraceable (a.or b) := by
  cases a with
  | none => exact hb
  | some act => exact ha

omit [call.Traceable] in
instance (v w : Value) : (prepend v w).Traceable := by
  fun_induction prepend v w <;> infer_instance

instance (v w : Value) : (either call v w).Traceable := by
  unfold either
  split <;> infer_instance

omit [call.Traceable] in
instance (v : Value) : (slotOf v).Traceable := by
  unfold slotOf
  split <;> infer_instance

omit [call.Traceable] in
instance (v : Value) : (locatorOf v).Traceable := by
  unfold locatorOf
  split <;> infer_instance

omit [call.Traceable] in
instance (v : Value) : (registerValue v).Traceable := by
  unfold registerValue
  split <;> infer_instance

omit [call.Traceable] in
instance (v : Value) : (register v).Traceable := by
  unfold register
  split <;> infer_instance

omit [call.Traceable] in
theorem traceable_constructor (name : String) (args : List Value) :
    OptionTraceable (constructor? name args) := by
  unfold constructor?
  split
  all_goals first | exact .some | exact .none

theorem traceable_onTrees (name : String) (args : List Value) :
    OptionTraceable (onTrees? call name args) := by
  unfold onTrees?
  split
  case h_12 => split <;> first | exact .some | exact .none
  all_goals first | exact .some | exact .none

theorem traceable_onEffects (name : String) (args : List Value) :
    OptionTraceable (onEffects? call name args) := by
  unfold onEffects?
  split
  all_goals first | exact .some | exact .none

theorem traceable_eliminations (name : String) (args : List Value) :
    OptionTraceable (eliminations? call name args) := by
  unfold eliminations? Tree.retract
  split
  all_goals first | exact .some | exact .none

theorem traceable_onBuilders (name : String) (args : List Value) :
    OptionTraceable (onBuilders? call name args) := by
  unfold onBuilders?
  split
  all_goals first | exact .some | exact .none

instance (name : String) (args : List Value) : (run call name args).Traceable := by
  have known := (traceable_constructor name args).or <| (traceable_onTrees call name args).or <|
    (traceable_onEffects call name args).or <| (traceable_eliminations call name args).or <|
      traceable_onBuilders call name args
  unfold run
  split
  · next act found => exact known act found
  · infer_instance

end Library

end

/-! ### Plain values -/

namespace Value

instance (v : Value) : v.truth.Traceable := by
  unfold truth
  split <;> infer_instance

instance (base : Nat) (s : String) : (readInteger base s).Traceable := by
  unfold readInteger
  split <;> infer_instance

instance (v : Value) : v.asBase.Traceable := by
  unfold asBase
  dsimp only
  split <;> infer_instance

instance (args : List Value) : (toInteger args).Traceable := by
  unfold toInteger
  split
  case h_6 =>
    refine .andThen fun b => ?_
    split <;> infer_instance
  all_goals infer_instance

instance (v : Value) : v.requireCoding.Traceable := by
  unfold requireCoding
  split <;> infer_instance

instance (args : List Value) : (toText args).Traceable := by
  have shown : ∀ r : Option String, (match r with
      | some s => pure (str s)
      | none => Act.fail .misuse : Act Value).Traceable := fun r => by
    split <;> infer_instance
  unfold toText
  split <;> infer_instance

instance (name : String) (args : List Value) : (convert name args).Traceable := by
  unfold convert
  split <;> infer_instance

end Value

namespace Operator

instance (items : List Value) (v : Value) : (containsItem items v).Traceable := by
  induction items with
  | nil => unfold containsItem; infer_instance
  | cons x xs ih => unfold containsItem; infer_instance

instance (used : Bool) (pieces : List Directive.Piece) : (fillUnknown used pieces).Traceable := by
  fun_induction fillUnknown used pieces
  case case7 d ps unused writes ih =>
    refine .read (fun t id => by rw [Value.write_forget]) fun t => .andThen fun text => ?_
    split <;> infer_instance
  all_goals infer_instance

instance (name : String) (args : List Value) : (run name args).Traceable := by
  have refused : (Act.wrong (.operator name) : Act Value).Traceable := inferInstance
  have answered : ∀ a : Answer, (match a with
      | some (.ok v) => pure v
      | some (.error f) => Act.fail f
      | none => Act.wrong (.operator name) : Act Value).Traceable := fun a => by
    split <;> infer_instance
  have shown : ∀ r : Option String, (match r with
      | some s => pure (.str s)
      | none => Act.wrong (.operator name) : Act Value).Traceable := fun r => by
    split <;> infer_instance
  unfold run
  dsimp only
  split
  case h_3 =>
    split
    case h_3 => split <;> infer_instance
    all_goals infer_instance
  case h_4 => split <;> infer_instance
  all_goals infer_instance

end Operator

/-! ### Evaluation -/

namespace Value

instance (v : Value) (name : String) : (v.belongsTo name).Traceable := by
  have named : ∀ t : ClassTable, (match t.named? name with
      | some c => return v.isA c.id
      | none => Act.wrong (.cls name) : Act Bool).Traceable := fun t => by
    split <;> infer_instance
  have read := Traceable.read (fun t id => by rw [ClassTable.named?_forget]) named
  unfold belongsTo
  split
  · split <;> infer_instance
  · split <;> infer_instance
  · infer_instance

instance (name : String) : (ofClassName name).Traceable := by
  have named : ∀ t : ClassTable, (match t.named? name with
      | some c => return cls c
      | none => Act.wrong (.cls name) : Act Value).Traceable := fun t => by
    split <;> infer_instance
  have read := Traceable.read (fun t id => by rw [ClassTable.named?_forget]) named
  unfold ofClassName
  infer_instance

instance (c : Value) (args : List (String × Value)) : (c.construct args).Traceable := by
  unfold construct
  split <;> infer_instance

instance (v : Value) (name : String) : (v.field name).Traceable := by
  have shown : ∀ c : ClassRef, (do
      if ((← Act.classes).fields? c.id).any fun fs => fs.any fun f => f.name = name then
        v.lookup name
      else Act.wrong (.field name) : Act Value).Traceable := fun c =>
    .read (fun t id => by rw [ClassTable.fields?_forget]) fun t => inferInstance
  unfold field
  split
  case h_2 => exact shown _
  all_goals infer_instance

instance (v : Value) : v.turns.Traceable := by
  unfold turns
  split <;> infer_instance

end Value

instance (env : Env) (name : String) : (env.find name).Traceable := by
  unfold Env.find
  split <;> infer_instance

instance (env : Env) (v : Value) (fields : List (String × String)) :
    (env.bindFields v fields).Traceable := by
  induction fields generalizing env with
  | nil => unfold Env.bindFields; infer_instance
  | cons f fields ih => unfold Env.bindFields; infer_instance

instance (turn : Nat → Value → Act Value) [∀ i v, (turn i v).Traceable] (index : Nat) (acc : Value)
    (n : Nat) : (repeated turn index acc n).Traceable := by
  induction n generalizing index acc with
  | zero => unfold repeated; infer_instance
  | succ n ih => unfold repeated; infer_instance

mutual

theorem Expr.traceable_eval (call : Caller) [call.Traceable] (env : Env) (e : Expr) :
    (e.eval call env).Traceable := by
  cases e with
  | call fn args =>
    have := Expr.traceable_eval call env fn
    have := Expr.traceable_evalAll call env args
    unfold Expr.eval
    infer_instance
  | cond test yes no =>
    have := Expr.traceable_eval call env test
    have := Expr.traceable_eval call env yes
    have := Expr.traceable_eval call env no
    unfold Expr.eval
    infer_instance
  | bind name value body =>
    have := Expr.traceable_eval call env value
    have := fun v => Expr.traceable_eval call ((name, v) :: env) body
    unfold Expr.eval
    infer_instance
  | list items | tuple items =>
    have := Expr.traceable_evalAll call env items
    unfold Expr.eval
    infer_instance
  | log entry body =>
    have := Expr.traceable_eval call env entry
    have := Expr.traceable_eval call env body
    unfold Expr.eval
    infer_instance
  | attempt body handler =>
    have := Expr.traceable_eval call env body
    have := Expr.traceable_eval call env handler
    unfold Expr.eval
    refine @Traceable.tryCatch _ _ _ _ fun s => ?_
    split <;> infer_instance
  | loop turns start acc index body =>
    have := Expr.traceable_eval call env turns
    have := Expr.traceable_eval call env start
    have := fun (i : Nat) v => Expr.traceable_eval call ((index, .int i) :: (acc, v) :: env) body
    unfold Expr.eval
    infer_instance
  | make className args =>
    have := Expr.traceable_evalNamed call env args
    unfold Expr.eval
    infer_instance
  | cases subject branches otherwise =>
    have := Expr.traceable_eval call env subject
    have := fun v => Expr.traceable_evalCases call env v branches
    have := Expr.traceable_evalOption call env otherwise
    unfold Expr.eval
    refine .andThen fun v => .andThen fun r => ?_
    split <;> infer_instance
  | field subject name =>
    have := Expr.traceable_eval call env subject
    unfold Expr.eval
    infer_instance
  | target members =>
    have := Expr.traceable_evalNamed call env members
    unfold Expr.eval
    infer_instance
  | operator name args | library name args =>
    have := Expr.traceable_evalAll call env args
    unfold Expr.eval
    infer_instance
  | _ =>
    unfold Expr.eval
    infer_instance

theorem Expr.traceable_evalAll (call : Caller) [call.Traceable] (env : Env) (es : List Expr) :
    (Expr.evalAll call env es).Traceable := by
  cases es with
  | nil => exact .pure []
  | cons e es =>
    have := Expr.traceable_eval call env e
    have := Expr.traceable_evalAll call env es
    unfold Expr.evalAll
    infer_instance

theorem Expr.traceable_evalNamed (call : Caller) [call.Traceable] (env : Env)
    (es : List (String × Expr)) : (Expr.evalNamed call env es).Traceable := by
  match es with
  | [] => exact .pure []
  | (name, e) :: es =>
    have := Expr.traceable_eval call env e
    have := Expr.traceable_evalNamed call env es
    unfold Expr.evalNamed
    infer_instance

theorem Expr.traceable_evalCases (call : Caller) [call.Traceable] (env : Env) (v : Value)
    (branches : List ((String × List (String × String)) × Expr)) :
    (Expr.evalCases call env v branches).Traceable := by
  match branches with
  | [] => exact .pure none
  | ((className, fields), body) :: rest =>
    have := fun env' => Expr.traceable_eval call env' body
    have := Expr.traceable_evalCases call env v rest
    unfold Expr.evalCases
    infer_instance

theorem Expr.traceable_evalOption (call : Caller) [call.Traceable] (env : Env) (e : Option Expr) :
    (Expr.evalOption call env e).Traceable := by
  cases e with
  | none => exact .pure _
  | some e => exact Expr.traceable_eval call env e

end

/-- **One call is traceable** if the calls inside it are. -/
instance (call : Caller) [call.Traceable] (f : Value) (args : List Value) :
    (f.apply call args).Traceable := by
  have := fun env body => Expr.traceable_eval call env body
  unfold Value.apply
  split <;> infer_instance

namespace Machine

instance (n : Nat) : (call n).Traceable := by
  induction n with
  | zero => exact ⟨fun _ _ => .tooDeep⟩
  | succ n ih =>
    refine ⟨fun f args => ?_⟩
    rw [call_succ]
    infer_instance

/-- **Every call is traceable**, whatever it calls in turn. -/
instance traceable_limit : limit.Traceable :=
  ⟨fun f args => ⟨.limit (tends_limit f args) fun _ => Traceable.made⟩⟩

end Machine

end EffectTrees
