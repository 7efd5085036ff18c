import EffectTrees.Proofs.Analysis.Rewriting
import EffectTrees.Proofs.Builder.Refinement
import EffectTrees.Proofs.Elimination.Outermost

/-!
# Operations stacked on a function slot

Operations on a tree are stacked: functions are mapped over it and bound to it, it is applied to
another tree, descriptors are rewritten, and builders bind to it and are built (`Layer`). At the end
of a path of direct slots there is a function slot with a function `g` (`Leads`). This is what
becomes of it:

* While the stack is built nothing is called but the rewritings, and these with descriptors of the
  path only. So whatever `g` and the callbacks do, even if calls of them never end, building the
  stack does the same and comes to the same tree (`Leads.runAll`). All that is used of the meaning
  of calls is that an operation goes on into a slot (`Caller.Resumes`).
* In that tree the same path leads to a function that calls `g` with the arguments it is given, once
  and before all else, and then does to what `g` gives what is stacked, in the order in which it is
  stacked (`call_behindAll`).

What functions of the program do is left open here (`Caller.Lawful`): they may write to the log,
count how often they are called, or register classes.
-/

namespace EffectTrees

/-! ### Layers -/

/-- An operation on a tree, as a layer of a stack of them. -/
inductive Layer where
  | map (f : Value)
  | bind (f : Value)
  | ap (u : Value)
  | hoist (transform : Value)
  /-- Binds functions to a builder of the tree, one after the other, and builds it. -/
  | build (fs : List Value)

namespace Layer

/-- Performs the operation on a tree. -/
def run (call : Caller) (t : Value) : Layer → Act Value
  | map f => t.invoke call .map [f]
  | bind f => t.invoke call .bind [f]
  | ap u => t.invoke call .ap [u]
  | hoist transform => Tree.hoist call transform t
  | build fs => (fs.foldl Builder.bind (.of t)).build call

/-- Performs operations one after the other. -/
def runAll (call : Caller) (layers : List Layer) (t : Value) : Act Value :=
  layers.foldlM (run call) t

/-- What remains to be done with the content of a slot. A builder without binds does nothing. -/
def frame? : Layer → Option Frame
  | map f => some (.map f)
  | bind f => some (.bind f)
  | ap u => some (.ap u)
  | hoist transform => some (.hoist transform)
  | build [] => none
  | build (f :: fs) => some (.materialize (f :: fs))

/-- What becomes of the function of a function slot. -/
def behind (g : Value) (layer : Layer) : Value :=
  match layer.frame? with
  | some k => .after (.frame k) g
  | none => g

/-- What becomes of the function of a function slot under several operations. -/
def behindAll (layers : List Layer) (g : Value) : Value := layers.foldl behind g

variable {call call' : Caller} {layer : Layer} {k : Frame}

theorem runAll_cons (layer : Layer) (layers : List Layer) (t : Value) :
    runAll call (layer :: layers) t = layer.run call t >>= runAll call layers := by
  unfold runAll
  rw [List.foldlM_cons]

theorem run_of_none (h : layer.frame? = none) (t : Value) : layer.run call t = pure t := by
  match layer, h with
  | .build [], _ => rfl

theorem run_of_some (h : layer.frame? = some k) (t : Value) : layer.run call t = k.run call t := by
  match layer, h with
  | .map f, rfl => rfl
  | .bind f, rfl => rfl
  | .ap u, rfl => rfl
  | .hoist transform, rfl => rfl
  | .build (f :: fs), rfl => exact Builder.build_foldl_bind call (f :: fs) t

/-! ### Calls of the function in the slot -/

/-- **A call of the function calls `g` first**, with the same arguments, and then performs what is
stacked on what `g` gives. -/
theorem call_behindAll (lawful : call.Lawful) (layers : List Layer) (g : Value)
    (args : List Value) :
    call (behindAll layers g) args = call g args >>= runAll call layers := by
  induction layers generalizing g with
  | nil => exact (bind_pure _).symm
  | cons layer layers ih =>
    have first : call (behind g layer) args = call g args >>= layer.run call := by
      unfold behind
      cases h : layer.frame? with
      | none =>
        simp only [run_of_none h]
        exact (bind_pure _).symm
      | some k =>
        dsimp only
        rw [Value.after, lawful.after]
        refine bind_congr fun v => ?_
        rw [lawful.frame, run_of_some h]
    calc call (behindAll (layer :: layers) g) args
        = call (behind g layer) args >>= runAll call layers := ih (behind g layer)
      _ = call g args >>= runAll call (layer :: layers) := by
        rw [first, bind_assoc]
        exact bind_congr fun t => (runAll_cons layer layers t).symm

end Layer

/-! ### Paths to a function slot -/

/-- **A path** through so many direct slots to a function slot of the arity `m`, with `g` in it. The
effects on the path are of the vocabulary `E`. -/
inductive Leads (T : ClassTable) (E : Value → Prop) (m : Nat) : Nat → Value → Value → Prop where
  | here {d g : Value} (has : E d) (contains : Contains T (.function m) g d) :
      Leads T E m 0 g (.tree (.suspended d))
  | direct {n : Nat} {d x g : Value} (has : E d) (contains : Contains T .direct x d)
      (rest : Leads T E m n g x) : Leads T E m (n + 1) g (.tree (.suspended d))

/-- An operation that goes on into a slot does there what it does. -/
def Caller.Resumes (call : Caller) : Prop :=
  ∀ k d, call (.frame k) [.tree (.suspended d)] = k.run call (.tree (.suspended d))

theorem Caller.Lawful.resumes {call : Caller} (lawful : call.Lawful) : call.Resumes :=
  fun k _ => lawful.frame k _

variable {T : ClassTable} {E E' : Value → Prop} {m n : Nat} {d d' e g t x y : Value} {k : Frame}
  {call call' : Caller} {α β : Type}

/-- A path leads away from a suspended tree. -/
theorem Leads.exists_suspended (h : Leads T E m n g t) : ∃ d, t = .tree (.suspended d) := by
  cases h with
  | here => exact ⟨_, rfl⟩
  | direct => exact ⟨_, rfl⟩

/-! ### Two meanings of calls side by side -/

namespace Act

/-- Both computations come to the value, and to the same world. -/
def YieldsBoth (T : ClassTable) (a b : Act α) (v : α) : Prop :=
  ∀ w, w.classes = T →
    ∃ w', a.runIn w = some (.ok v, w') ∧ b.runIn w = some (.ok v, w') ∧ w'.classes = T

theorem Yields.both {a : Act α} {v : α} (h : a.Yields T v) : YieldsBoth T a a v := fun w hw =>
  (h w hw).imp fun _ ⟨run, hw'⟩ => ⟨run, run, hw'⟩

theorem YieldsBoth.bind {a b : Act α} {f f' : α → Act β} {v : α} {u : β}
    (h : YieldsBoth T a b v) (rest : YieldsBoth T (f v) (f' v) u) :
    YieldsBoth T (a >>= f) (b >>= f') u := by
  intro w hw
  obtain ⟨w₁, ha, hb, hw₁⟩ := h w hw
  obtain ⟨w₂, hf, hf', hw₂⟩ := rest w₁ hw₁
  exact ⟨w₂, by rw [runIn_bind, ha]; exact hf, by rw [runIn_bind, hb]; exact hf', hw₂⟩

end Act

open Act (YieldsBoth)

/-! ### One effect of the path -/

/-- To map over a direct slot is to put there what the function makes of the content. -/
theorem Contains.fmap_direct (h : Contains T .direct x d) (f y : Value) :
    ∃ e, Kindred T d e ∧ Contains T .direct y e ∧ ∀ call call' : Caller,
      YieldsBoth T (call' f [x]) (call f [x]) y →
        YieldsBoth T (fmap call' d f) (fmap call d f) e := by
  obtain @⟨c, own, s, fill, slotted, kind, holds⟩ := h
  obtain ⟨kindred, contains⟩ := slotted.kindred_fill holds y
  refine ⟨_, kindred, kind ▸ contains, fun call call' content => ?_⟩
  unfold fmap Slot.map
  dsimp only
  rw [if_pos slotted.effect, if_pos slotted.effect]
  refine (yields_slotOf slotted.slot).both.bind ((yields_lookup holds).both.bind ?_)
  rw [kind]
  exact content.bind (slotted.yields_replaceMember y).both

/-- **A function slot is not called.** Its function is composed, whatever it does. -/
theorem Contains.fmap_function (h : Contains T (.function m) g d) (f : Value) :
    ∃ e, Kindred T d e ∧ Contains T (.function m) (.after f g) e ∧ ∀ call call' : Caller,
      YieldsBoth T (fmap call' d f) (fmap call d f) e := by
  obtain @⟨c, own, s, fill, slotted, kind, holds⟩ := h
  obtain ⟨kindred, contains⟩ := slotted.kindred_fill holds (.after f g)
  refine ⟨_, kindred, kind ▸ contains, fun call call' => ?_⟩
  unfold fmap Slot.map
  dsimp only
  rw [if_pos slotted.effect, if_pos slotted.effect]
  refine (yields_slotOf slotted.slot).both.bind ((yields_lookup holds).both.bind ?_)
  rw [kind]
  exact (slotted.yields_replaceMember _).both

/-! ### One layer -/

namespace Layer

/-- What a layer makes of a descriptor before it goes on into the slot. -/
def rewrite (call : Caller) (d : Value) : Layer → Act Value
  | hoist transform => call transform [d]
  | _ => pure d

theorem run_suspended {layer : Layer} (h : layer.frame? = some k) (d : Value) :
    k.run call (.tree (.suspended d)) =
      (do return .tree (.suspended (← fmap call (← layer.rewrite call d) (.frame k)))) := by
  match layer, h with
  | .map f, rfl => rfl
  | .bind f, rfl => rfl
  | .ap u, rfl => rfl
  | .hoist transform, rfl => rfl
  | .build (f :: fs), rfl => rfl

/-- **The layer keeps slots.** It turns effects of one vocabulary into effects of another one that
have the same kind of slot, with the same content. A layer that is no rewriting leaves effects as
they are, so this concerns rewritings alone. -/
def Keeps (call : Caller) (T : ClassTable) (E E' : Value → Prop) (layer : Layer) : Prop :=
  ∀ {kind : SlotKind} {d x : Value}, E d → Contains T kind x d →
    ∃ d', (layer.rewrite call d).Yields T d' ∧ E' d' ∧ Contains T kind x d'

/-- Another meaning of calls under which the layer rewrites effects in the same way. -/
def SameRewrites (call call' : Caller) (layer : Layer) : Prop :=
  ∀ d, layer.rewrite call' d = layer.rewrite call d

end Layer

variable {layer : Layer} {layers : List Layer}

/-- What remains to be done behind a path, under two meanings of calls. -/
theorem Leads.frame (h : Leads T E m n g t) (some : layer.frame? = some k)
    (resumes : call.Resumes) (keeps : layer.Keeps call T E E')
    (closed : ∀ d d', Kindred T d d' → E' d → E' d') :
    ∃ t', Leads T E' m n (.after (.frame k) g) t' ∧
      ∀ call' : Caller, call'.Resumes → layer.SameRewrites call call' →
        YieldsBoth T (k.run call' t) (k.run call t) t' := by
  induction h with
  | @here d g has contains =>
    obtain ⟨d', rewritten, has', contains'⟩ := keeps has contains
    obtain ⟨e, kindred, composed, mapped⟩ := contains'.fmap_function (.frame k)
    refine ⟨.tree (.suspended e), .here (closed _ _ kindred has') composed, ?_⟩
    intro call' _ same
    rw [Layer.run_suspended some, Layer.run_suspended some, same]
    exact rewritten.both.bind ((mapped call call').bind (Act.yields_pure _).both)
  | @direct n d x g has contains rest ih =>
    obtain ⟨d', rewritten, has', contains'⟩ := keeps has contains
    obtain ⟨y, leads, inside⟩ := ih
    obtain ⟨e, kindred, filled, mapped⟩ := contains'.fmap_direct (.frame k) y
    refine ⟨.tree (.suspended e), .direct (closed _ _ kindred has') filled leads, ?_⟩
    intro call' resumes' same
    -- The content is a suspended tree again, so the operation goes on into the slot.
    have content : YieldsBoth T (call' (.frame k) [x]) (call (.frame k) [x]) y := by
      obtain ⟨d, rfl⟩ := rest.exists_suspended
      rw [resumes', resumes]
      exact inside call' resumes' same
    rw [Layer.run_suspended some, Layer.run_suspended some, same]
    exact rewritten.both.bind ((mapped call call' content).bind (Act.yields_pure _).both)

/-- What rewrites no descriptors leaves the path as it is. -/
theorem Leads.stay (h : Leads T E m n g t) (none : layer.frame? = none)
    (keeps : layer.Keeps call T E E') : Leads T E' m n g t := by
  have kept : ∀ {kind d x}, E d → Contains T kind x d → E' d := by
    intro kind d x has contains
    obtain ⟨d', rewritten, has', -⟩ := keeps has contains
    match layer, none with
    | .build [], _ =>
      obtain rfl := (Act.yields_pure d).unique rewritten
      exact has'
  induction h with
  | here has contains => exact .here (kept has contains) contains
  | direct has contains _ ih => exact .direct (kept has contains) contains ih

/-- **One layer on a path.** -/
theorem Leads.run (h : Leads T E m n g t) (resumes : call.Resumes)
    (keeps : layer.Keeps call T E E') (closed : ∀ d d', Kindred T d d' → E' d → E' d') :
    ∃ t', Leads T E' m n (layer.behind g) t' ∧
      ∀ call' : Caller, call'.Resumes → layer.SameRewrites call call' →
        YieldsBoth T (layer.run call' t) (layer.run call t) t' := by
  unfold Layer.behind
  cases has : layer.frame? with
  | none =>
    refine ⟨t, h.stay has keeps, fun call' _ _ => ?_⟩
    rw [Layer.run_of_none has, Layer.run_of_none has]
    exact (Act.yields_pure t).both
  | some k =>
    obtain ⟨t', leads, both⟩ := h.frame has resumes keeps closed
    refine ⟨t', leads, fun call' resumes' same => ?_⟩
    rw [Layer.run_of_some has, Layer.run_of_some has]
    exact both call' resumes' same

/-! ### The whole stack -/

/-- **A stack of layers that keep slots**, from a vocabulary on. What a layer makes of effects is
told by their class and their payload. -/
inductive Stackable (call : Caller) (T : ClassTable) : (Value → Prop) → List Layer → Prop where
  | nil (E : Value → Prop) : Stackable call T E []
  | cons {E E' : Value → Prop} {layer : Layer} {layers : List Layer}
      (keeps : layer.Keeps call T E E') (closed : ∀ d d', Kindred T d d' → E' d → E' d')
      (rest : Stackable call T E' layers) : Stackable call T E (layer :: layers)

/-- **A stack on a path.** The path leads to the function of the slot with the stack behind it. -/
theorem Leads.runAll (h : Leads T E m n g t) (resumes : call.Resumes)
    (stackable : Stackable call T E layers) :
    ∃ E' t', Leads T E' m n (Layer.behindAll layers g) t' ∧
      ∀ call' : Caller, call'.Resumes → (∀ layer ∈ layers, layer.SameRewrites call call') →
        YieldsBoth T (Layer.runAll call' layers t) (Layer.runAll call layers t) t' := by
  induction stackable generalizing g t with
  | nil E => exact ⟨E, t, h, fun _ _ _ => (Act.yields_pure t).both⟩
  | cons keeps closed _ ih =>
    obtain ⟨u, leads, first⟩ := h.run resumes keeps closed
    obtain ⟨E', t', leads', rest⟩ := ih leads
    refine ⟨E', t', leads', fun call' resumes' same => ?_⟩
    obtain ⟨here, there⟩ := List.forall_mem_cons.mp same
    rw [Layer.runAll_cons, Layer.runAll_cons]
    exact (first call' resumes' here).bind (rest call' resumes' there)

/-- **Function slots stay lazy and are called once.** A path of direct slots leads to a function
slot with `g` in it, and operations are stacked on the tree. The stack is built in the same way
whatever anything but the rewritings does, so neither `g` nor a callback has a part in it. The same
path then leads to a function that calls `g` with the very arguments that it is called with, and
performs the operations on what `g` gives, in order. If `g` ends with a signal, that is all. -/
theorem stack_on_function_slot (lawful : call.Lawful) (leads : Leads T E m n g t)
    (stackable : Stackable call T E layers) :
    ∃ E' g' t', Leads T E' m n g' t' ∧
      (∀ call' : Caller, call'.Resumes → (∀ layer ∈ layers, layer.SameRewrites call call') →
        YieldsBoth T (Layer.runAll call' layers t) (Layer.runAll call layers t) t') ∧
      ∀ args, call g' args = call g args >>= Layer.runAll call layers ∧
        ∀ s w w', (call g args).runIn w = some (.error s, w') →
          (call g' args).runIn w = some (.error s, w') := by
  obtain ⟨E', t', leads', built⟩ := leads.runAll lawful.resumes stackable
  refine ⟨E', _, t', leads', built, fun args => ?_⟩
  have called := Layer.call_behindAll lawful layers g args
  refine ⟨called, fun s w w' ends => ?_⟩
  rw [called, Act.runIn_bind, ends]

/-! ### A stack on a dialogue -/

namespace Dialogue

/-- All kinds of operations, on a dialogue that gets louder. -/
def stacked : List Layer :=
  [.map (.frame .identity), .bind echo, .ap (ask echo), .hoist loud, .build [echo, echo]]

theorem leads_say_ask : Leads table Spoken 1 1 echo (say (.str "hello") (ask echo)) :=
  .direct (.say rfl (holds_say _ _)) (.slot (slotted_say _ _) rfl (holds_say _ _))
    (.here (.ask (holds_ask _)) (.slot (slotted_ask _) rfl (holds_ask _)))

theorem stackable_stacked : Stackable Machine.limit table Spoken stacked := by
  have spoken : ∀ d d', Kindred table d d' → Spoken d → Spoken d' := fun _ _ kindred has =>
    keepsSlots_loud.kindred has kindred
  refine .cons (fun has contains => ⟨_, Act.yields_pure _, has, contains⟩) spoken ?_
  refine .cons (fun has contains => ⟨_, Act.yields_pure _, has, contains⟩) spoken ?_
  refine .cons (fun has contains => ⟨_, Act.yields_pure _, has, contains⟩) spoken ?_
  have last : Stackable Machine.limit table (fun _ => True) [.build [echo, echo]] :=
    .cons (fun _ contains => ⟨_, Act.yields_pure _, trivial, contains⟩) (fun _ _ _ => id)
      (.nil fun _ => True)
  refine .cons (fun has contains => ?_) (fun _ _ _ => id) last
  obtain ⟨d', rewritten, contains'⟩ := keepsSlots_loud.rewrites has contains
  exact ⟨d', rewritten, trivial, contains'⟩

end Dialogue

open Dialogue in
theorem stack_on_function_slot_dialogue :
    Machine.limit.Lawful ∧ Leads table Spoken 1 1 echo (say (.str "hello") (ask echo)) ∧
      Stackable Machine.limit table Spoken stacked ∧
      ∃ E' g' t', Leads table E' 1 1 g' t' ∧
        (∀ call' : Caller, call'.Resumes →
          (∀ layer ∈ stacked, layer.SameRewrites Machine.limit call') →
            YieldsBoth table (Layer.runAll call' stacked (say (.str "hello") (ask echo)))
              (Layer.runAll Machine.limit stacked (say (.str "hello") (ask echo))) t') ∧
        ∀ args, Machine.limit g' args =
            Machine.limit echo args >>= Layer.runAll Machine.limit stacked ∧
          ∀ s w w', (Machine.limit echo args).runIn w = some (.error s, w') →
            (Machine.limit g' args).runIn w = some (.error s, w') :=
  ⟨Machine.lawful_limit, leads_say_ask, stackable_stacked,
    stack_on_function_slot Machine.lawful_limit leads_say_ask stackable_stacked⟩

end EffectTrees
