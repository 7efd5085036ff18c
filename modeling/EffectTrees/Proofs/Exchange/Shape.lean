import EffectTrees.Proofs.Lists
import EffectTrees.Value.Text

/-!
# Values with functions exchanged

A program cannot see what a function is made of; it can call it, and little else. So two values that
differ only in the functions inside them are the same to a program as long as the functions do the
same when they are called. This module says what it is for values to differ in that way only, and the
modules after it that programs cannot tell such values apart.

* `Shape W C v v'` — the values are built alike, with parts related by `C` and functions that are
  built alike or related by `W`. A closure is built alike if it is of the same code, and the code
  must not register classes (`Expr.registers`): what a program does depends on the classes, and
  these are to stay what they are.
* `Exchange` — which functions are exchanged for which others, in terms of a relation of what they
  hold.
* `Exchanged W v v'` — the values are built alike all the way down, but for the exchange.
* `Quiet v` — nothing is exchanged, and no code in the value registers a class.
-/

namespace EffectTrees

/-! ### Code that registers classes -/

mutual

/-- The expression has a part that registers a class. -/
def Expr.registers : Expr → Bool
  | .scalar _ | .var _ | .raise _ _ | .cls _ | .malformed => false
  | .lambda _ body => body.registers
  | .call fn args => fn.registers || Expr.registersAny args
  | .cond test yes no => test.registers || yes.registers || no.registers
  | .bind _ value body => value.registers || body.registers
  | .list items | .tuple items => Expr.registersAny items
  | .log entry body => entry.registers || body.registers
  | .attempt body handler => body.registers || handler.registers
  | .loop turns start _ _ body => turns.registers || start.registers || body.registers
  | .make _ args | .target args => Expr.registersNamed args
  | .cases subject branches otherwise =>
    subject.registers || Expr.registersCases branches || Expr.registersOption otherwise
  | .field subject _ => subject.registers
  | .operator _ args => Expr.registersAny args
  | .library name args => name = "effect" || Expr.registersAny args

/-- One of the expressions registers a class. -/
def Expr.registersAny : List Expr → Bool
  | [] => false
  | e :: es => e.registers || Expr.registersAny es

/-- One of the named expressions registers a class. -/
def Expr.registersNamed : List (String × Expr) → Bool
  | [] => false
  | (_, e) :: es => e.registers || Expr.registersNamed es

/-- The body of one of the cases registers a class. -/
def Expr.registersCases : List ((String × List (String × String)) × Expr) → Bool
  | [] => false
  | (_, body) :: rest => body.registers || Expr.registersCases rest

/-- There is an expression and it registers a class. -/
def Expr.registersOption : Option Expr → Bool
  | none => false
  | some e => e.registers

end

/-! ### Values that are built alike -/

/-- The same name, and values that are related as the name demands. -/
def NamedBy (P : String → Value → Value → Prop) (a b : String × Value) : Prop :=
  b.1 = a.1 ∧ P a.1 a.2 b.2

/-- The same name, and related values. -/
abbrev Named (C : Value → Value → Prop) : String × Value → String × Value → Prop :=
  NamedBy fun _ => C

section Shape

variable (W : Function → Function → Prop) (C : Value → Value → Prop)

/-- Payloads that are built alike. -/
inductive Payload.Shape : Payload → Payload → Prop where
  | resolved {v v' : Value} (value : C v v') : Shape (.resolved v) (.resolved v')
  | deferred {f f' : Value} (thunk : C f f') : Shape (.deferred f) (.deferred f')

/-- Trees that are built alike. -/
inductive Tree.Shape : Tree → Tree → Prop where
  | done {p p' : Payload} (payload : p.Shape C p') : Shape (.done p) (.done p')
  | suspended {d d' : Value} (descriptor : C d d') : Shape (.suspended d) (.suspended d')
  | failed : Shape .failed .failed

/-- Plain trees that are built alike. -/
inductive PlainTree.Shape : PlainTree → PlainTree → Prop where
  | pure {v v' : Value} (value : C v v') : Shape (.pure v) (.pure v')
  | free {d d' : Value} (descriptor : C d d') : Shape (.free d) (.free d')

/-- Builders that are built alike. -/
inductive Builder.Shape : Builder → Builder → Prop where
  | mk {t t' : Value} {fs fs' : List Value} (tree : C t t') (pending : List.Forall₂ C fs fs') :
      Shape (.mk t fs) (.mk t' fs')

/-- Targets that are built alike. -/
inductive Target.Shape : Target → Target → Prop where
  | list : Shape .list .list
  | tree : Shape .tree .tree
  | custom {ms ms' : List (String × Value)} (members : List.Forall₂ (Named C) ms ms') :
      Shape (.custom ms) (.custom ms')

/-- Frames that are built alike. -/
inductive Frame.Shape : Frame → Frame → Prop where
  | identity : Shape .identity .identity
  | unit : Shape .unit .unit
  | always {v v' : Value} (other : C v v') : Shape (.always v) (.always v')
  | pure : Shape .pure .pure
  | plainPure : Shape .plainPure .plainPure
  | map {f f' : Value} (function : C f f') : Shape (.map f) (.map f')
  | bind {f f' : Value} (function : C f f') : Shape (.bind f) (.bind f')
  | ap {u u' : Value} (argument : C u u') : Shape (.ap u) (.ap u')
  | finish {f f' : Value} (function : C f f') : Shape (.finish f) (.finish f')
  | iterate {a a' : Value} (algebra : C a a') : Shape (.iterate a) (.iterate a')
  | iterateIn {a a' t t' : Value} (algebra : C a a') (target : C t t') :
      Shape (.iterateIn a t) (.iterateIn a' t')
  | iterateLater {a a' t t' : Value} (algebra : C a a') (target : C t t') :
      Shape (.iterateLater a t) (.iterateLater a' t')
  | postpone {a a' t t' : Value} (algebra : C a a') (target : C t t') :
      Shape (.postpone a t) (.postpone a' t')
  | fold {f f' t t' : Value} (transform : C f f') (target : C t t') :
      Shape (.fold f t) (.fold f' t')
  | hoist {f f' : Value} (transform : C f f') : Shape (.hoist f) (.hoist f')
  | embed : Shape .embed .embed
  | analyze {s s' : Value} {tr tr' : List Value} (stepper : C s s')
      (trace : List.Forall₂ C tr tr') : Shape (.analyze s tr) (.analyze s' tr')
  | materialize {fs fs' : List Value} (queue : List.Forall₂ C fs fs') :
      Shape (.materialize fs) (.materialize fs')
  | choose {b b' : Builder} {u u' : Value} (left : b.Shape C b') (other : C u u') :
      Shape (.choose b u) (.choose b' u')

/-- Functions that are built alike, or related by `W`. The function that registers a class is like no
other, not even itself. -/
inductive Function.Shape : Function → Function → Prop where
  | closure {params : List String} {body : Expr} {env env' : List (String × Value)}
      (quiet : body.registers = false) (scope : List.Forall₂ (Named C) env env') :
      Shape (.closure params body env) (.closure params body env')
  | betray : Shape .betray .betray
  | frame {k k' : Frame} (frame : k.Shape C k') : Shape (.frame k) (.frame k')
  | delayed {k k' : Frame} {v v' : Value} (frame : k.Shape C k') (content : C v v') :
      Shape (.delayed k v) (.delayed k' v')
  | after {f f' g g' : Value} (next : C f f') (inner : C g g') :
      Shape (.after f g) (.after f' g')
  | swap {f f' : Function} (swap : W f f') : Shape f f'

/-- The values are built alike, with parts related by `C` and functions that may also be related by
`W`. -/
inductive Shape : Value → Value → Prop where
  | scalar (s : Scalar) : Shape (.scalar s) (.scalar s)
  | list {vs vs' : List Value} (items : List.Forall₂ C vs vs') : Shape (.list vs) (.list vs')
  | tuple {vs vs' : List Value} (items : List.Forall₂ C vs vs') : Shape (.tuple vs) (.tuple vs')
  | poison : Shape .poison .poison
  | aborted : Shape .aborted .aborted
  | payload {p p' : Payload} (payload : p.Shape C p') : Shape (.payload p) (.payload p')
  | tree {t t' : Tree} (tree : t.Shape C t') : Shape (.tree t) (.tree t')
  | plain {t t' : PlainTree} (plain : t.Shape C t') : Shape (.plain t) (.plain t')
  | descriptor (c : ClassRef) {own own' : List (String × Value)}
      (fields : List.Forall₂ (Named C) own own') : Shape (.descriptor c own) (.descriptor c own')
  | function {f f' : Function} (function : f.Shape W C f') : Shape (.function f) (.function f')
  | builder {b b' : Builder} (builder : b.Shape C b') : Shape (.builder b) (.builder b')
  | analysis {r r' : Option Value} {tr tr' : List Value} (result : Option.Rel C r r')
      (trace : List.Forall₂ C tr tr') : Shape (.analysis r tr) (.analysis r' tr')
  | slot {n n' k k' a a' : Value} (name : C n n') (kind : C k k') (arity : C a a') :
      Shape (.slot n k a) (.slot n' k' a')
  | locator (c : ClassRef) : Shape (.locator c) (.locator c)
  | cls (c : ClassRef) : Shape (.cls c) (.cls c)
  | builtinClass (name : String) : Shape (.builtinClass name) (.builtinClass name)
  | target {t t' : Target} (target : t.Shape C t') : Shape (.target t) (.target t')
  | snoc {i i' l l' : Value} (init : C i i') (last : C l l') : Shape (.snoc i l) (.snoc i' l')
  | cons {x x' l l' : Value} (head : C x x') (tail : C l l') : Shape (.cons x l) (.cons x' l')

end Shape

/-! ### More parts related -/

section mono

variable {W W' : Function → Function → Prop} {C D : Value → Value → Prop}

theorem NamedBy.imp {P Q : String → Value → Value → Prop} (h : ∀ n v v', P n v v' → Q n v v')
    {a b : String × Value} (hab : NamedBy P a b) : NamedBy Q a b := ⟨hab.1, h _ _ _ hab.2⟩

variable (h : ∀ v v', C v v' → D v v')
include h

theorem Payload.Shape.mono {p p' : Payload} (hp : p.Shape C p') : p.Shape D p' := by
  cases hp with
  | resolved value => exact .resolved (h _ _ value)
  | deferred thunk => exact .deferred (h _ _ thunk)

theorem Tree.Shape.mono {t t' : Tree} (ht : t.Shape C t') : t.Shape D t' := by
  cases ht with
  | done payload => exact .done (payload.mono h)
  | suspended descriptor => exact .suspended (h _ _ descriptor)
  | failed => exact .failed

theorem PlainTree.Shape.mono {t t' : PlainTree} (ht : t.Shape C t') : t.Shape D t' := by
  cases ht with
  | pure value => exact .pure (h _ _ value)
  | free descriptor => exact .free (h _ _ descriptor)

theorem Builder.Shape.mono {b b' : Builder} (hb : b.Shape C b') : b.Shape D b' := by
  cases hb with
  | mk tree pending => exact .mk (h _ _ tree) (pending.imp h)

theorem Target.Shape.mono {t t' : Target} (ht : t.Shape C t') : t.Shape D t' := by
  cases ht with
  | list => exact .list
  | tree => exact .tree
  | custom members => exact .custom (members.imp fun _ _ => NamedBy.imp fun _ => h)

theorem Frame.Shape.mono {k k' : Frame} (hk : k.Shape C k') : k.Shape D k' := by
  cases hk with
  | identity => exact .identity
  | unit => exact .unit
  | always other => exact .always (h _ _ other)
  | pure => exact .pure
  | plainPure => exact .plainPure
  | map function => exact .map (h _ _ function)
  | bind function => exact .bind (h _ _ function)
  | ap argument => exact .ap (h _ _ argument)
  | finish function => exact .finish (h _ _ function)
  | iterate algebra => exact .iterate (h _ _ algebra)
  | iterateIn algebra target => exact .iterateIn (h _ _ algebra) (h _ _ target)
  | iterateLater algebra target => exact .iterateLater (h _ _ algebra) (h _ _ target)
  | postpone algebra target => exact .postpone (h _ _ algebra) (h _ _ target)
  | fold transform target => exact .fold (h _ _ transform) (h _ _ target)
  | hoist transform => exact .hoist (h _ _ transform)
  | embed => exact .embed
  | analyze stepper trace => exact .analyze (h _ _ stepper) (trace.imp h)
  | materialize queue => exact .materialize (queue.imp h)
  | choose left other => exact .choose (left.mono h) (h _ _ other)

theorem Function.Shape.mono (hW : ∀ f f', W f f' → W' f f') {f f' : Function}
    (hf : f.Shape W C f') : f.Shape W' D f' := by
  cases hf with
  | closure quiet scope => exact .closure quiet (scope.imp fun _ _ => NamedBy.imp fun _ => h)
  | betray => exact .betray
  | frame frame => exact .frame (frame.mono h)
  | delayed frame content => exact .delayed (frame.mono h) (h _ _ content)
  | after next inner => exact .after (h _ _ next) (h _ _ inner)
  | swap swap => exact .swap (hW _ _ swap)

theorem Shape.mono (hW : ∀ f f', W f f' → W' f f') {v v' : Value} (hv : Shape W C v v') :
    Shape W' D v v' := by
  cases hv with
  | scalar s => exact .scalar s
  | list items => exact .list (items.imp h)
  | tuple items => exact .tuple (items.imp h)
  | poison => exact .poison
  | aborted => exact .aborted
  | payload payload => exact .payload (payload.mono h)
  | tree tree => exact .tree (tree.mono h)
  | plain plain => exact .plain (plain.mono h)
  | descriptor c fields => exact .descriptor c (fields.imp fun _ _ => NamedBy.imp fun _ => h)
  | function function => exact .function (function.mono h hW)
  | builder builder => exact .builder (builder.mono h)
  | analysis result trace => exact .analysis (result.imp h) (trace.imp h)
  | slot name kind arity => exact .slot (h _ _ name) (h _ _ kind) (h _ _ arity)
  | locator c => exact .locator c
  | cls c => exact .cls c
  | builtinClass name => exact .builtinClass name
  | target target => exact .target (target.mono h)
  | snoc init last => exact .snoc (h _ _ init) (h _ _ last)
  | cons head tail => exact .cons (h _ _ head) (h _ _ tail)

end mono

/-! ### Seen from the other side -/

section flip

variable {W W' : Function → Function → Prop} {C D : Value → Value → Prop}

variable (h : ∀ v v', C v v' → D v' v)
include h

theorem forall₂_flip {vs vs' : List Value} (hv : List.Forall₂ C vs vs') : List.Forall₂ D vs' vs :=
  (hv.imp h).flip

theorem named_flip {own own' : List (String × Value)} (ho : List.Forall₂ (Named C) own own') :
    List.Forall₂ (Named D) own' own :=
  (ho.imp fun _ _ hab => (⟨hab.1.symm, hab.1 ▸ h _ _ hab.2⟩ : Named D _ _)).flip

theorem Payload.Shape.flip {p p' : Payload} (hp : p.Shape C p') : p'.Shape D p := by
  cases hp with
  | resolved value => exact .resolved (h _ _ value)
  | deferred thunk => exact .deferred (h _ _ thunk)

theorem Tree.Shape.flip {t t' : Tree} (ht : t.Shape C t') : t'.Shape D t := by
  cases ht with
  | done payload => exact .done (payload.flip h)
  | suspended descriptor => exact .suspended (h _ _ descriptor)
  | failed => exact .failed

theorem PlainTree.Shape.flip {t t' : PlainTree} (ht : t.Shape C t') : t'.Shape D t := by
  cases ht with
  | pure value => exact .pure (h _ _ value)
  | free descriptor => exact .free (h _ _ descriptor)

theorem Builder.Shape.flip {b b' : Builder} (hb : b.Shape C b') : b'.Shape D b := by
  cases hb with
  | mk tree pending => exact .mk (h _ _ tree) (forall₂_flip h pending)

theorem Target.Shape.flip {t t' : Target} (ht : t.Shape C t') : t'.Shape D t := by
  cases ht with
  | list => exact .list
  | tree => exact .tree
  | custom members => exact .custom (named_flip h members)

theorem Frame.Shape.flip {k k' : Frame} (hk : k.Shape C k') : k'.Shape D k := by
  cases hk with
  | identity => exact .identity
  | unit => exact .unit
  | always other => exact .always (h _ _ other)
  | pure => exact .pure
  | plainPure => exact .plainPure
  | map function => exact .map (h _ _ function)
  | bind function => exact .bind (h _ _ function)
  | ap argument => exact .ap (h _ _ argument)
  | finish function => exact .finish (h _ _ function)
  | iterate algebra => exact .iterate (h _ _ algebra)
  | iterateIn algebra target => exact .iterateIn (h _ _ algebra) (h _ _ target)
  | iterateLater algebra target => exact .iterateLater (h _ _ algebra) (h _ _ target)
  | postpone algebra target => exact .postpone (h _ _ algebra) (h _ _ target)
  | fold transform target => exact .fold (h _ _ transform) (h _ _ target)
  | hoist transform => exact .hoist (h _ _ transform)
  | embed => exact .embed
  | analyze stepper trace => exact .analyze (h _ _ stepper) (forall₂_flip h trace)
  | materialize queue => exact .materialize (forall₂_flip h queue)
  | choose left other => exact .choose (left.flip h) (h _ _ other)

theorem Function.Shape.flip (hW : ∀ f f', W f f' → W' f' f) {f f' : Function}
    (hf : f.Shape W C f') : f'.Shape W' D f := by
  cases hf with
  | closure quiet scope => exact .closure quiet (named_flip h scope)
  | betray => exact .betray
  | frame frame => exact .frame (frame.flip h)
  | delayed frame content => exact .delayed (frame.flip h) (h _ _ content)
  | after next inner => exact .after (h _ _ next) (h _ _ inner)
  | swap swap => exact .swap (hW _ _ swap)

theorem Shape.flip (hW : ∀ f f', W f f' → W' f' f) {v v' : Value} (hv : Shape W C v v') :
    Shape W' D v' v := by
  cases hv with
  | scalar s => exact .scalar s
  | list items => exact .list (forall₂_flip h items)
  | tuple items => exact .tuple (forall₂_flip h items)
  | poison => exact .poison
  | aborted => exact .aborted
  | payload payload => exact .payload (payload.flip h)
  | tree tree => exact .tree (tree.flip h)
  | plain plain => exact .plain (plain.flip h)
  | descriptor c fields => exact .descriptor c (named_flip h fields)
  | function function => exact .function (function.flip h hW)
  | builder builder => exact .builder (builder.flip h)
  | analysis result trace =>
    refine .analysis ?_ (forall₂_flip h trace)
    cases result with
    | some related => exact .some (h _ _ related)
    | none => exact .none
  | slot name kind arity => exact .slot (h _ _ name) (h _ _ kind) (h _ _ arity)
  | locator c => exact .locator c
  | cls c => exact .cls c
  | builtinClass name => exact .builtinClass name
  | target target => exact .target (target.flip h)
  | snoc init last => exact .snoc (h _ _ init) (h _ _ last)
  | cons head tail => exact .cons (h _ _ head) (h _ _ tail)

end flip

/-! ### Exchange -/

/-- **The values differ in their functions only**, by what `W` exchanges in view of how the parts of
functions are related. -/
inductive Exchanged (W : (Value → Value → Prop) → Function → Function → Prop) :
    Value → Value → Prop where
  | node {C : Value → Value → Prop} {v v' : Value} (sub : ∀ v v', C v v' → Exchanged W v v')
      (shape : Shape (W C) C v v') : Exchanged W v v'

/-- Which functions are exchanged for which others, if it is known of the values in them how these
are related. A program may ask for the type of a function and compare it with others, so functions
that are exchanged have types of the same name, and the function that aborts, the only one that is
equal to anything, stays in its place. -/
structure Exchange where
  Swaps : (Value → Value → Prop) → Function → Function → Prop
  mono {C D : Value → Value → Prop} (h : ∀ v v', C v v' → D v v') {f f' : Function} :
    Swaps C f f' → Swaps D f f'
  typeName {C : Value → Value → Prop} {f f' : Function} :
    Swaps C f f' → (Value.function f).typeName = (Value.function f').typeName
  left_ne {C : Value → Value → Prop} {f f' : Function} : Swaps C f f' → f ≠ .betray
  right_ne {C : Value → Value → Prop} {f f' : Function} : Swaps C f f' → f' ≠ .betray

namespace Exchange

/-- The values differ in functions that are exchanged only. -/
abbrev Rel (X : Exchange) : Value → Value → Prop := Exchanged X.Swaps

variable {X : Exchange} {v v' : Value}

theorem Rel.shape (h : X.Rel v v') : Shape (X.Swaps X.Rel) X.Rel v v' := by
  cases h with
  | node sub shape => exact shape.mono sub fun _ _ => X.mono sub

theorem Rel.of_shape (h : Shape (X.Swaps X.Rel) X.Rel v v') : X.Rel v v' := .node (fun _ _ => id) h

/-- What is exchanged one way is exchanged the other way by the converse. -/
theorem Rel.flip {X' : Exchange}
    (converse : ∀ C f f', X.Swaps C f f' → X'.Swaps (fun y x => C x y) f' f) (h : X.Rel v v') :
    X'.Rel v' v := by
  induction h with
  | node sub shape ih => exact .node (fun y x => ih x y) (shape.flip (fun _ _ => id) (converse _))

/-- Nothing is exchanged. -/
def nothing : Exchange where
  Swaps _ _ _ := False
  mono _ := id
  typeName := False.elim
  left_ne := False.elim
  right_ne := False.elim

end Exchange

/-! ### Quiet values -/

/-- **No code in the value registers a class.** -/
def Quiet (v : Value) : Prop := Exchange.nothing.Rel v v

/-! Values with nothing exchanged are equal, shape by shape. -/

theorem eq_of_forall₂ {α : Type} {xs ys : List α} (h : List.Forall₂ Eq xs ys) : xs = ys := by
  rwa [List.forall₂_eq_eq_eq] at h

theorem eq_of_named {own own' : List (String × Value)} (h : List.Forall₂ (Named Eq) own own') :
    own = own' := by
  have same : List.Forall₂ Eq own own' := h.imp fun a b hab => Prod.ext hab.1.symm hab.2
  rwa [List.forall₂_eq_eq_eq] at same

theorem Payload.Shape.eq {p p' : Payload} (h : p.Shape Eq p') : p = p' := by
  cases h with
  | resolved value => rw [value]
  | deferred thunk => rw [thunk]

theorem Tree.Shape.eq {t t' : Tree} (h : t.Shape Eq t') : t = t' := by
  cases h with
  | done payload => rw [payload.eq]
  | suspended descriptor => rw [descriptor]
  | failed => rfl

theorem PlainTree.Shape.eq {t t' : PlainTree} (h : t.Shape Eq t') : t = t' := by
  cases h with
  | pure value => rw [value]
  | free descriptor => rw [descriptor]

theorem Builder.Shape.eq {b b' : Builder} (h : b.Shape Eq b') : b = b' := by
  cases h with
  | mk tree pending => rw [tree, eq_of_forall₂ pending]

theorem Target.Shape.eq {t t' : Target} (h : t.Shape Eq t') : t = t' := by
  cases h with
  | list | tree => rfl
  | custom members => rw [eq_of_named members]

theorem Frame.Shape.eq {k k' : Frame} (h : k.Shape Eq k') : k = k' := by
  cases h with
  | identity | unit | pure | plainPure | embed => rfl
  | always f | map f | bind f | ap f | finish f | iterate f | hoist f => rw [f]
  | iterateIn f t | iterateLater f t | postpone f t | fold f t => rw [f, t]
  | analyze stepper trace => rw [stepper, eq_of_forall₂ trace]
  | materialize queue => rw [eq_of_forall₂ queue]
  | choose left other => rw [left.eq, other]

theorem Function.Shape.eq {W : Function → Function → Prop} (hW : ∀ f f', W f f' → f = f')
    {f f' : Function} (h : f.Shape W Eq f') : f = f' := by
  cases h with
  | closure quiet scope => rw [eq_of_named scope]
  | betray => rfl
  | frame frame => rw [frame.eq]
  | delayed frame content => rw [frame.eq, content]
  | after next inner => rw [next, inner]
  | swap swap => exact hW _ _ swap

theorem Shape.eq {W : Function → Function → Prop} (hW : ∀ f f', W f f' → f = f') {v v' : Value}
    (h : Shape W Eq v v') : v = v' := by
  cases h with
  | scalar | poison | aborted | locator | cls | builtinClass => rfl
  | list items | tuple items => rw [eq_of_forall₂ items]
  | payload payload => rw [payload.eq]
  | tree tree => rw [tree.eq]
  | plain plain => rw [plain.eq]
  | descriptor c fields => rw [eq_of_named fields]
  | function function => rw [function.eq hW]
  | builder builder => rw [builder.eq]
  | analysis result trace =>
    rw [eq_of_forall₂ trace]
    cases result with
    | some same => rw [same]
    | none => rfl
  | slot name kind arity => rw [name, kind, arity]
  | target target => rw [target.eq]
  | snoc a b | cons a b => rw [a, b]

/-- If functions are exchanged for themselves only the values are the same. -/
theorem Exchange.Rel.eq {X : Exchange}
    (same : ∀ {C : Value → Value → Prop} {f f' : Function}, X.Swaps C f f' → f = f')
    {v v' : Value} (h : X.Rel v v') : v = v' := by
  induction h with
  | node sub shape ih => exact (shape.mono ih fun _ _ => id).eq fun _ _ => same

/-- If nothing is exchanged the values are the same. -/
theorem Exchange.eq_of_nothing {v v' : Value} (h : Exchange.nothing.Rel v v') : v = v' :=
  Rel.eq False.elim h

/-- A quiet value is the same to a program as itself, whatever is exchanged. -/
theorem Quiet.rel {v : Value} (h : Quiet v) (X : Exchange) : X.Rel v v := by
  have rel : ∀ {v v'}, Exchange.nothing.Rel v v' → X.Rel v v' := by
    intro v v' h
    induction h with
    | node sub shape ih => exact .node ih (shape.mono (fun _ _ => id) fun _ _ => False.elim)
  exact rel h

end EffectTrees
