import EffectTrees.Expr.Eval
import EffectTrees.Proofs.Exchange.Shape

/-!
# What is told of a value without a call

Most of what a program asks of a value it finds out without calling anything: of which type the
value is, how it is written, whether it can be hashed and whether it equals another one. None of it
depends on the functions inside the value, so values that differ in their functions only give the
same answers (`Exchange.Rel.write_eq`, `Exchange.Rel.hash_eq`, `Exchange.Rel.equal?_eq`). What is
taken out of such values, or displayed of them, differs in functions only too.
-/

namespace EffectTrees

/-- Both succeed, with related values, or both fail in the same way. -/
inductive Ends {ε α β : Type} (Q : α → β → Prop) : Except ε α → Except ε β → Prop where
  | ok {x : α} {y : β} (values : Q x y) : Ends Q (.ok x) (.ok y)
  | error (s : ε) : Ends Q (.error s) (.error s)

namespace Ends

variable {ε α β γ δ : Type} {Q : α → β → Prop} {P : γ → δ → Prop}

theorem refl (r : Except ε α) : Ends Eq r r := by
  cases r with
  | ok x => exact .ok rfl
  | error s => exact .error s

theorem imp {Q' : α → β → Prop} (h : ∀ x y, Q x y → Q' x y) {r : Except ε α} {r' : Except ε β}
    (hr : Ends Q r r') : Ends Q' r r' := by
  cases hr with
  | ok values => exact .ok (h _ _ values)
  | error s => exact .error s

/-- One outcome is the other one, seen from the other side. -/
theorem flip {r : Except ε α} {r' : Except ε β} (h : Ends Q r r') :
    Ends (fun y x => Q x y) r' r := by
  cases h with
  | ok values => exact .ok values
  | error s => exact .error s

theorem bind {x : Except ε α} {y : Except ε β} {f : α → Except ε γ} {g : β → Except ε δ}
    (h : Ends Q x y) (hf : ∀ a b, Q a b → Ends P (f a) (g b)) : Ends P (x >>= f) (y >>= g) := by
  cases h with
  | ok values => exact hf _ _ values
  | error s => exact .error s

theorem mapM {f : α → Except ε γ} {g : β → Except ε δ} {xs : List α} {ys : List β}
    (h : List.Forall₂ Q xs ys) (hf : ∀ a b, Q a b → Ends P (f a) (g b)) :
    Ends (List.Forall₂ P) (xs.mapM f) (ys.mapM g) := by
  induction h with
  | nil => exact .ok .nil
  | cons hxy _ ih =>
    rw [List.mapM_cons, List.mapM_cons]
    exact (hf _ _ hxy).bind fun _ _ head => ih.bind fun _ _ rest => .ok (.cons head rest)

end Ends

/-! ### Named values -/

section Named

variable {α β : Type} {Q : α → β → Prop}

/-- What is found under a name in lists that have the same names in the same order. -/
theorem find?_rel {l : List (String × α)} {r : List (String × β)}
    (h : List.Forall₂ (fun a b => b.1 = a.1 ∧ Q a.2 b.2) l r) (name : String) :
    Option.Rel Q ((l.find? fun a => a.1 = name).map Prod.snd)
      ((r.find? fun a => a.1 = name).map Prod.snd) := by
  rw [← lookup_eq_find?, ← lookup_eq_find?]
  exact lookup_rel h name

theorem Value.fieldAt?_rel {P : String → Value → Value → Prop} {own own' : List (String × Value)}
    (h : List.Forall₂ (NamedBy P) own own') (name : String) :
    Option.Rel (P name) (Value.fieldAt? own name) (Value.fieldAt? own' name) := by
  induction h with
  | nil => exact .none
  | @cons a b own own' head _ ih =>
    obtain ⟨same, related⟩ := head
    rw [Value.fieldAt?_cons, Value.fieldAt?_cons, same]
    by_cases found : a.1 = name
    · subst found
      simpa only [if_true] using Option.Rel.some related
    · simpa only [if_neg found] using ih

/-- The member of an instance, if it is the class that has it, is the same for all instances. -/
theorem ClassTable.memberOf?_rel (T : ClassTable) (id : Nat) {l : List (String × α)}
    {r : List (String × β)} (h : List.Forall₂ (fun a b => b.1 = a.1 ∧ Q a.2 b.2) l r)
    {f : Scalar → α} {g : Scalar → β} (hfg : ∀ s, Q (f s) (g s)) (name : String) :
    Option.Rel Q (T.memberOf? id l f name) (T.memberOf? id r g name) := by
  unfold ClassTable.memberOf?
  rcases (find?_rel h name).both with ⟨hx, hx'⟩ | ⟨x, x', hx, hx', related⟩
  · rw [hx, hx', Option.none_or, Option.none_or]
    cases T.valueAt? id name with
    | none => exact .none
    | some s => exact .some (hfg s)
  · rw [hx, hx', Option.some_or, Option.some_or]
    exact .some related

/-- Lists of the same names are asked the same questions about names. -/
theorem any_named_eq {P : String → Value → Value → Prop} {own own' : List (String × Value)}
    (h : List.Forall₂ (NamedBy P) own own') (p : String → Bool) :
    (own.any fun a => p a.1) = own'.any fun a => p a.1 := by
  induction h with
  | nil => rfl
  | cons head _ ih => simp only [List.any_cons, head.1, ih]

end Named

namespace Exchange

variable {X : Exchange} {v v' w w' : Value}

/-! ### The type of a value, and its members -/

theorem Rel.typeName_eq (h : X.Rel v v') : v.typeName = v'.typeName := by
  cases h.shape with
  | payload p => cases p <;> rfl
  | tree t => cases t <;> rfl
  | plain t => cases t <;> rfl
  | function f =>
    cases f with
    | swap swap => exact X.typeName swap
    | _ => rfl
  | target t => cases t <;> rfl
  | _ => rfl

theorem Rel.isPoison_eq (h : X.Rel v v') : v.isPoison = v'.isPoison := by
  cases h.shape <;> rfl

theorem Rel.isA_eq (h : X.Rel v v') (id : Nat) : v.isA id = v'.isA id := by
  cases h.shape <;> rfl

theorem Rel.scalar (s : Scalar) : X.Rel (.scalar s) (.scalar s) := .of_shape (.scalar s)

theorem Rel.poison : X.Rel .poison .poison := .of_shape .poison

theorem Rel.list {vs vs' : List Value} (h : List.Forall₂ X.Rel vs vs') :
    X.Rel (.list vs) (.list vs') := .of_shape (.list h)

theorem Rel.tuple {vs vs' : List Value} (h : List.Forall₂ X.Rel vs vs') :
    X.Rel (.tuple vs) (.tuple vs') := .of_shape (.tuple h)

theorem Rel.pure (h : X.Rel v v') : X.Rel (.tree (Tree.pure v)) (.tree (Tree.pure v')) :=
  .of_shape (.tree (.done (.resolved h)))

theorem Rel.failed : X.Rel (.tree .failed) (.tree .failed) := .of_shape (.tree .failed)

theorem Rel.suspended (h : X.Rel v v') :
    X.Rel (.tree (.suspended v)) (.tree (.suspended v')) :=
  .of_shape (.tree (.suspended h))

theorem Rel.frame {k k' : Frame} (h : k.Shape X.Rel k') : X.Rel (.frame k) (.frame k') :=
  .of_shape (.function (.frame h))

theorem Rel.after (h : X.Rel v v') (h' : X.Rel w w') :
    X.Rel (.function (.after v w)) (.function (.after v' w')) :=
  .of_shape (.function (.after h h'))

theorem Rel.swap {f f' : Function} (h : X.Swaps X.Rel f f') :
    X.Rel (.function f) (.function f') :=
  .of_shape (.function (.swap h))

theorem rel_ofResult {r r' : Option Value} (h : Option.Rel X.Rel r r') :
    X.Rel (.ofResult r) (.ofResult r') := by
  cases h with
  | some related => exact .of_shape (.payload (.resolved related))
  | none => exact .scalar .null

theorem rel_getD {r r' : Option Value} (h : Option.Rel X.Rel r r') (hv : X.Rel v v') :
    X.Rel (r.getD v) (r'.getD v') := by
  cases h with
  | some related => exact related
  | none => exact hv

theorem rel_ofDone (h : X.Rel v v') : X.Rel (.tree (.ofDone v)) (.tree (.ofDone v')) := by
  cases h.shape with
  | payload p => exact .of_shape (.tree (.done p))
  | _ => exact h.pure

theorem Rel.member?_rel (h : X.Rel v v') (name : String) :
    Option.Rel X.Rel (v.member? name) (v'.member? name) := by
  -- A value of each kind has members of certain names, and no others.
  cases h.shape with
  | payload p =>
    cases p with
    | resolved value =>
      by_cases same : name = "value"
      · subst same
        exact .some value
      · simp [Value.member?, same]
    | deferred thunk =>
      by_cases same : name = "thunk"
      · subst same
        exact .some thunk
      · simp [Value.member?, same]
  | tree t =>
    cases t with
    | done payload =>
      by_cases same : name = "value"
      · subst same
        exact .some (.of_shape (.payload payload))
      · simp [Value.member?, same]
    | suspended descriptor =>
      by_cases same : name = "descriptor"
      · subst same
        exact .some descriptor
      · simp [Value.member?, same]
    | failed => simp [Value.member?]
  | plain t =>
    cases t with
    | pure value =>
      by_cases same : name = "value"
      · subst same
        exact .some value
      · simp [Value.member?, same]
    | free descriptor =>
      by_cases same : name = "descriptor"
      · subst same
        exact .some descriptor
      · simp [Value.member?, same]
  | descriptor c fields => simpa only [Value.member?] using Value.fieldAt?_rel fields name
  | slot n k a =>
    by_cases isName : name = "name"
    · subst isName
      exact .some n
    by_cases isKind : name = "kind"
    · subst isKind
      exact .some k
    by_cases isArity : name = "arity"
    · subst isArity
      exact .some a
    simp [Value.member?, isName, isKind, isArity]
  | analysis result trace =>
    by_cases isResult : name = "result"
    · subst isResult
      exact .some (rel_ofResult result)
    by_cases isTrace : name = "trace"
    · subst isTrace
      exact .some (.list trace)
    by_cases isComplete : name = "complete"
    · subst isComplete
      cases result <;> exact .some (.scalar _)
    by_cases isValue : name = "value"
    · subst isValue
      exact .some (rel_getD result (.scalar .null))
    simp [Value.member?, isResult, isTrace, isComplete, isValue]
  | locator c =>
    by_cases same : name = "effect_type"
    · subst same
      exact .some (.of_shape (.cls c))
    · simp [Value.member?, same]
  | snoc init last =>
    by_cases isInit : name = "init"
    · subst isInit
      exact .some init
    by_cases isLast : name = "last"
    · subst isLast
      exact .some last
    simp [Value.member?, isInit, isLast]
  | cons head tail =>
    by_cases isHead : name = "head"
    · subst isHead
      exact .some head
    by_cases isTail : name = "tail"
    · subst isTail
      exact .some tail
    simp [Value.member?, isHead, isTail]
  | _ => simp [Value.member?]

/-! ### The written form, and hashing -/

section Text

variable {T : ClassTable} {C : Value → Value → Prop}

theorem writeAll_eq {b : Bool} (hC : ∀ v v', C v v' → v.write T b = v'.write T b)
    {vs vs' : List Value} (h : List.Forall₂ C vs vs') :
    Value.writeAll T b vs = Value.writeAll T b vs' := by
  induction h with
  | nil => rfl
  | cons head _ ih => simp only [Value.writeAll, hC _ _ head, ih]

theorem writeFields_eq {b : Bool} (hC : ∀ v v', C v v' → v.write T b = v'.write T b)
    {own own' : List (String × Value)} (h : List.Forall₂ (Named C) own own') :
    Value.writeFields T b own = Value.writeFields T b own' := by
  induction h with
  | nil => rfl
  | cons head _ ih => simp only [Value.writeFields, hC _ _ head.2, head.1, ih]

theorem writePayload_eq {b : Bool} (hC : ∀ v v', C v v' → v.write T b = v'.write T b)
    {p p' : Payload} (h : p.Shape C p') : p.write T b = p'.write T b := by
  cases h with
  | resolved related | deferred related => simp only [Payload.write, hC _ _ related]

theorem Rel.write_eq (h : X.Rel v v') (b : Bool) : v.write T b = v'.write T b := by
  induction h with
  | node sub shape ih =>
    cases shape with
    | list items | tuple items => simp only [Value.write, writeAll_eq ih items]
    | payload p => simp only [Value.write, writePayload_eq ih p]
    | tree t =>
      cases t with
      | done p => simp only [Value.write, Tree.write, writePayload_eq ih p]
      | suspended d => simp only [Value.write, Tree.write, ih _ _ d]
      | failed => rfl
    | plain t =>
      cases t with
      | pure related | free related => simp only [Value.write, PlainTree.write, ih _ _ related]
    | descriptor c fields => simp only [Value.write, writeFields_eq ih fields]
    | builder b =>
      cases b with
      | mk tree pending => simp only [Value.write, Builder.write, ih _ _ tree]
    | analysis result trace =>
      cases result with
      | some related => simp only [Value.write, Value.writeResult, ih _ _ related, writeAll_eq ih trace]
      | none => simp only [Value.write, writeAll_eq ih trace]
    | slot n k a => simp only [Value.write, ih _ _ n, ih _ _ k, ih _ _ a]
    | target t => cases t <;> rfl
    | snoc x l | cons x l => simp only [Value.write, ih _ _ x, ih _ _ l]
    | _ => rfl

theorem hashAll_eq (hC : ∀ v v', C v v' → v.hash T = v'.hash T) {vs vs' : List Value}
    (h : List.Forall₂ C vs vs') : Value.hashAll T vs = Value.hashAll T vs' := by
  induction h with
  | nil => rfl
  | cons head _ ih => simp only [Value.hashAll, hC _ _ head, ih]

theorem hashFields_eq (hC : ∀ v v', C v v' → v.hash T = v'.hash T)
    {own own' : List (String × Value)} (h : List.Forall₂ (Named C) own own') :
    Value.hashFields T own = Value.hashFields T own' := by
  induction h with
  | nil => rfl
  | cons head _ ih => simp only [Value.hashFields, hC _ _ head.2, head.1, ih]

theorem hashPayload_eq (hC : ∀ v v', C v v' → v.hash T = v'.hash T) {p p' : Payload}
    (h : p.Shape C p') : p.hash T = p'.hash T := by
  cases h with
  | resolved related | deferred related => simp only [Payload.hash, hC _ _ related]

theorem Rel.hash_eq (h : X.Rel v v') : v.hash T = v'.hash T := by
  induction h with
  | node sub shape ih =>
    cases shape with
    | tuple items => simp only [Value.hash, hashAll_eq ih items]
    | payload p => simp only [Value.hash, hashPayload_eq ih p]
    | tree t =>
      cases t with
      | done p => simp only [Value.hash, Tree.hash, hashPayload_eq ih p]
      | suspended d => simp only [Value.hash, Tree.hash, ih _ _ d]
      | failed => rfl
    | plain t =>
      cases t with
      | pure related | free related => simp only [Value.hash, PlainTree.hash, ih _ _ related]
    | descriptor c fields => simp only [Value.hash, hashFields_eq ih fields]
    | analysis result trace =>
      cases result with
      | some related => simp only [Value.hash, Value.hashResult, ih _ _ related]
      | none => rfl
    | slot n k a => simp only [Value.hash, ih _ _ n, ih _ _ k, ih _ _ a]
    | snoc x l | cons x l => simp only [Value.hash, ih _ _ x, ih _ _ l]
    | _ => rfl

/-! ### What is displayed -/

section Display

variable {D : Value → Value → Prop}

theorem displayAll_ends (hC : ∀ v v', C v v' → Ends D (v.display T) (v'.display T))
    {vs vs' : List Value} (h : List.Forall₂ C vs vs') :
    Ends (List.Forall₂ D) (Value.displayAll T vs) (Value.displayAll T vs') := by
  induction h with
  | nil => exact .ok .nil
  | cons head _ ih =>
    exact (hC _ _ head).bind fun _ _ first => ih.bind fun _ _ rest => .ok (.cons first rest)

theorem displayFields_rel (hC : ∀ v v', C v v' → Ends D (v.display T) (v'.display T))
    {own own' : List (String × Value)} (h : List.Forall₂ (Named C) own own') :
    List.Forall₂ (fun a b => b.1 = a.1 ∧ Ends D a.2 b.2) (Value.displayFields T own)
      (Value.displayFields T own') := by
  induction h with
  | nil => exact .nil
  | cons head _ ih => exact .cons ⟨head.1, hC _ _ head.2⟩ ih

theorem displayPayload_ends (hC : ∀ v v', C v v' → Ends D (v.display T) (v'.display T))
    (hD : ∀ v v', C v v' → D v v') {p p' : Payload} (h : p.Shape C p') :
    Ends (fun q q' => q.Shape D q') (p.display T) (p'.display T) := by
  cases h with
  | resolved related => exact (hC _ _ related).bind fun _ _ shown => .ok (.resolved shown)
  | deferred related => exact .ok (.deferred (hD _ _ related))

theorem displayTree_ends (hC : ∀ v v', C v v' → Ends D (v.display T) (v'.display T))
    (hD : ∀ v v', C v v' → D v v') {t t' : Tree} (h : t.Shape C t') :
    Ends (fun u u' => u.Shape D u') (t.display T) (t'.display T) := by
  cases h with
  | done p => exact (displayPayload_ends hC hD p).bind fun _ _ shown => .ok (.done shown)
  | suspended d => exact (hC _ _ d).bind fun _ _ shown => .ok (.suspended shown)
  | failed => exact .ok .failed

theorem displayPlain_ends (hC : ∀ v v', C v v' → Ends D (v.display T) (v'.display T))
    {t t' : PlainTree} (h : t.Shape C t') :
    Ends (fun u u' => u.Shape D u') (t.display T) (t'.display T) := by
  cases h with
  | pure x => exact (hC _ _ x).bind fun _ _ shown => .ok (.pure shown)
  | free d => exact (hC _ _ d).bind fun _ _ shown => .ok (.free shown)

theorem displayBuilder_ends (hC : ∀ v v', C v v' → Ends D (v.display T) (v'.display T))
    (hD : ∀ v v', C v v' → D v v') {b b' : Builder} (h : b.Shape C b') :
    Ends (fun u u' => u.Shape D u') (b.display T) (b'.display T) := by
  cases h with
  | mk tree pending => exact (hC _ _ tree).bind fun _ _ shown => .ok (.mk shown (pending.imp hD))

theorem displayResult_ends (hC : ∀ v v', C v v' → Ends D (v.display T) (v'.display T))
    {r r' : Option Value} (h : Option.Rel C r r') :
    Ends (Option.Rel D) (Value.displayResult T r) (Value.displayResult T r') := by
  cases h with
  | some related => exact (hC _ _ related).bind fun _ _ shown => .ok (.some shown)
  | none => exact .ok .none

theorem displayMember_ends {c : ClassRef}
    (hC : ∀ v v', C v v' → Ends X.Rel (v.display T) (v'.display T))
    {own own' : List (String × Value)} (h : List.Forall₂ (Named C) own own') (f : Field) :
    Ends (Named X.Rel)
      (match T.memberOf? c.id (Value.displayFields T own) (fun s => return .scalar s) f.name with
        | some v => return (f.name, ← v)
        | none => throw .missingMember : Displayed (String × Value))
      (match T.memberOf? c.id (Value.displayFields T own') (fun s => return .scalar s) f.name with
        | some v => return (f.name, ← v)
        | none => throw .missingMember : Displayed (String × Value)) := by
  have found := T.memberOf?_rel c.id (displayFields_rel hC h)
    (f := fun s => return .scalar s) (g := fun s => return .scalar s)
    (fun s => .ok (.scalar s)) f.name
  rcases found.both with ⟨hx, hx'⟩ | ⟨x, x', hx, hx', shown⟩
  · rw [hx, hx']
    exact .error _
  · rw [hx, hx']
    exact shown.bind fun _ _ shown => .ok ⟨rfl, shown⟩

/-- **Values that differ in functions are displayed alike**, or neither is displayed. -/
theorem Rel.display_ends (h : X.Rel v v') : Ends X.Rel (v.display T) (v'.display T) := by
  induction h with
  | node sub shape ih =>
    cases shape with
    | scalar s => exact .ok (.scalar s)
    | list items => exact (displayAll_ends ih items).bind fun _ _ shown => .ok (.list shown)
    | tuple items => exact (displayAll_ends ih items).bind fun _ _ shown => .ok (.tuple shown)
    | poison => exact .ok .poison
    | aborted => exact .ok (.of_shape .aborted)
    | payload p =>
      exact (displayPayload_ends ih sub p).bind fun _ _ shown => .ok (.of_shape (.payload shown))
    | tree t =>
      exact (displayTree_ends ih sub t).bind fun _ _ shown => .ok (.of_shape (.tree shown))
    | plain t =>
      exact (displayPlain_ends ih t).bind fun _ _ shown => .ok (.of_shape (.plain shown))
    | descriptor c fields =>
      -- The class says which fields are shown, and the instances what is shown in them.
      exact (Ends.mapM (List.forall₂_same.mpr fun _ _ => rfl) fun f _ same =>
        same ▸ displayMember_ends ih fields f).bind fun _ _ shown =>
          .ok (.of_shape (.descriptor c shown))
    | function f => exact .ok (.of_shape (.function (f.mono sub fun _ _ => X.mono sub)))
    | builder b =>
      exact (displayBuilder_ends ih sub b).bind fun _ _ shown => .ok (.of_shape (.builder shown))
    | analysis result trace =>
      exact (displayResult_ends ih result).bind fun _ _ result =>
        (displayAll_ends ih trace).bind fun _ _ trace => .ok (.of_shape (.analysis result trace))
    | slot n k a =>
      exact (ih _ _ n).bind fun _ _ n => (ih _ _ k).bind fun _ _ k => (ih _ _ a).bind fun _ _ a =>
        .ok (.of_shape (.slot n k a))
    | locator c => exact .ok (.of_shape (.locator c))
    | cls c => exact .ok (.of_shape (.cls c))
    | builtinClass name => exact .ok (.of_shape (.builtinClass name))
    | target t => exact .ok (.of_shape (.target (t.mono sub)))
    | snoc x l =>
      exact (ih _ _ x).bind fun _ _ x => (ih _ _ l).bind fun _ _ l => .ok (.of_shape (.snoc x l))
    | cons x l =>
      exact (ih _ _ x).bind fun _ _ x => (ih _ _ l).bind fun _ _ l => .ok (.of_shape (.cons x l))

end Display

/-! ### Equality -/

/-- What two comparisons come to on related values. -/
abbrev Comparable (X : Exchange) (test test' : Value → Verdict) : Prop :=
  ∀ w w', X.Rel w w' → test w = test' w'

theorem andThen_congr {a b : Verdict} {f g : Unit → Verdict} (h : a = b) (hf : f () = g ()) :
    a.andThen f = b.andThen g := by
  have same : f = g := funext fun _ => hf
  rw [h, same]

theorem ofTests_eq {tests tests' : List (Value → Verdict)} {vs vs' : List Value}
    (ht : List.Forall₂ X.Comparable tests tests') (hv : List.Forall₂ X.Rel vs vs') :
    Verdict.ofTests tests vs = Verdict.ofTests tests' vs' := by
  induction ht generalizing vs vs' with
  | nil => cases hv <;> rfl
  | cons test _ ih =>
    cases hv with
    | nil => rfl
    | cons head rest => exact andThen_congr (test _ _ head) (ih rest)

theorem withList_eq {n : Nat} {f f' : List Value → Verdict}
    (hf : ∀ vs vs', List.Forall₂ X.Rel vs vs' → f vs = f' vs') (hw : X.Rel w w') :
    Verdict.withList n f w = Verdict.withList n f' w' := by
  cases hw.shape with
  | list items => simp only [Verdict.withList, items.length_eq, hf _ _ items]
  | _ => rfl

theorem withTuple_eq {f f' : List Value → Verdict}
    (hf : ∀ vs vs', List.Forall₂ X.Rel vs vs' → f vs = f' vs') (hw : X.Rel w w') :
    Verdict.withTuple f w = Verdict.withTuple f' w' := by
  cases hw.shape with
  | tuple items => exact hf _ _ items
  | analysis result trace => exact hf _ _ (.cons (rel_ofResult result) (.cons (.list trace) .nil))
  | _ => rfl

theorem equalAll?_eq (hC : ∀ v v', C v v' → X.Comparable (v.equal? T) (v'.equal? T))
    {vs vs' ws ws' : List Value} (hv : List.Forall₂ C vs vs') (hw : List.Forall₂ X.Rel ws ws') :
    Value.equalAll? T vs ws = Value.equalAll? T vs' ws' := by
  induction hv generalizing ws ws' with
  | nil => cases hw <;> rfl
  | cons head _ ih =>
    cases hw with
    | nil => rfl
    | cons first rest => exact andThen_congr (hC _ _ head _ _ first) (ih rest)

theorem fieldTests_rel (hC : ∀ v v', C v v' → X.Comparable (v.equal? T) (v'.equal? T))
    {own own' : List (String × Value)} (h : List.Forall₂ (Named C) own own') :
    List.Forall₂ (fun a b => b.1 = a.1 ∧ X.Comparable a.2 b.2) (Value.fieldTests T own)
      (Value.fieldTests T own') := by
  induction h with
  | nil => exact .nil
  | cons head _ ih => exact .cons ⟨head.1, hC _ _ head.2⟩ ih

theorem equalPayload_eq (hC : ∀ v v', C v v' → X.Comparable (v.equal? T) (v'.equal? T))
    {p p' q q' : Payload} (hp : p.Shape C p') (hq : q.Shape X.Rel q') :
    p.equal? T q = p'.equal? T q' := by
  cases hp with
  | resolved x =>
    cases hq with
    | resolved y => exact hC _ _ x _ _ y
    | deferred _ => rfl
  | deferred f =>
    cases hq with
    | resolved _ => rfl
    | deferred g => exact hC _ _ f _ _ g

theorem equalTree_eq (hC : ∀ v v', C v v' → X.Comparable (v.equal? T) (v'.equal? T))
    {t t' u u' : Tree} (ht : t.Shape C t') (hu : u.Shape X.Rel u') :
    t.equal? T u = t'.equal? T u' := by
  cases ht with
  | done p =>
    cases hu with
    | done q => exact equalPayload_eq hC p q
    | suspended _ => rfl
    | failed => rfl
  | suspended d =>
    cases hu with
    | done _ => rfl
    | suspended e => exact hC _ _ d _ _ e
    | failed => rfl
  | failed => cases hu <;> rfl

theorem equalPlain_eq (hC : ∀ v v', C v v' → X.Comparable (v.equal? T) (v'.equal? T))
    {t t' u u' : PlainTree} (ht : t.Shape C t') (hu : u.Shape X.Rel u') :
    t.equal? T u = t'.equal? T u' := by
  cases ht with
  | pure x =>
    cases hu with
    | pure y => exact hC _ _ x _ _ y
    | free _ => rfl
  | free d =>
    cases hu with
    | pure _ => rfl
    | free e => exact hC _ _ d _ _ e

theorem members_ends {α β : Type} {Q : α → β → Prop} {find : String → Option α}
    {find' : String → Option β} (h : ∀ name, Option.Rel Q (find name) (find' name))
    (names : List String) :
    Ends (List.Forall₂ Q) (Verdict.members find names) (Verdict.members find' names) := by
  refine Ends.mapM (List.forall₂_same.mpr fun _ _ => rfl) fun name _ same => ?_
  subst same
  rcases (h name).both with ⟨hx, hx'⟩ | ⟨x, x', hx, hx', related⟩
  · rw [hx, hx']
    exact .error _
  · rw [hx, hx']
    exact .ok related

theorem equalFields_eq {c : ClassRef}
    (hC : ∀ v v', C v v' → X.Comparable (v.equal? T) (v'.equal? T))
    {own own' fields fields' : List (String × Value)} (h : List.Forall₂ (Named C) own own')
    (hf : List.Forall₂ (Named X.Rel) fields fields') (names : List String) :
    (do
      let tests ← Verdict.members
        (T.memberOf? c.id (Value.fieldTests T own) Scalar.equalValue) names
      Verdict.ofTests tests (← Verdict.members (T.memberOf? c.id fields .scalar) names)) =
    (do
      let tests ← Verdict.members
        (T.memberOf? c.id (Value.fieldTests T own') Scalar.equalValue) names
      Verdict.ofTests tests (← Verdict.members (T.memberOf? c.id fields' .scalar) names)) := by
  have scalars : ∀ s : Scalar, X.Comparable s.equalValue s.equalValue := by
    intro s w w' hw
    cases hw.shape <;> rfl
  have tests := members_ends (T.memberOf?_rel c.id (fieldTests_rel hC h) scalars) names
  have values := members_ends (T.memberOf?_rel c.id (Q := X.Rel) hf Rel.scalar) names
  revert tests values
  generalize Verdict.members _ names = a
  generalize Verdict.members _ names = b
  generalize Verdict.members _ names = a'
  generalize Verdict.members _ names = b'
  intro tests values
  cases tests with
  | error s => rfl
  | ok tests =>
    cases values with
    | error s => rfl
    | ok values => exact ofTests_eq tests values

theorem equal?_list (vs : List Value) (w : Value) :
    (Value.list vs).equal? T w = Verdict.withList vs.length (Value.equalAll? T vs) w := by
  cases w <;> rfl

theorem equal?_tuple (vs : List Value) (w : Value) :
    (Value.tuple vs).equal? T w = Verdict.withTuple (Value.equalAll? T vs) w := by
  cases w <;> rfl

theorem equal?_analysis (r : Option Value) (tr : List Value) (w : Value) :
    (Value.analysis r tr).equal? T w =
      Verdict.withTuple (Verdict.ofTests [Value.equalResult? T r,
        Verdict.withList tr.length (Value.equalAll? T tr)]) w := by
  cases w <;> rfl

theorem equal?_function {f : Function} (other : f ≠ .betray) (w : Value) :
    (Value.function f).equal? T w = if w.isPoison then .error .abort else .ok false := by
  cases w with
  | function g =>
    cases f with
    | betray => exact absurd rfl other
    | _ => cases g <;> rfl
  | _ => cases f <;> rfl

theorem equal?_betray {g : Function} (other : g ≠ .betray) :
    (Value.function .betray).equal? T (.function g) = .ok false := by
  cases g with
  | betray => exact absurd rfl other
  | _ => rfl

theorem equalResult?_some (hC : ∀ v v', C v v' → X.Comparable (v.equal? T) (v'.equal? T))
    (h : C v v') (hw : X.Rel w w') :
    Value.equalResult? T (some v) w = Value.equalResult? T (some v') w' := by
  cases hw.shape with
  | payload p =>
    cases p with
    | resolved x => exact hC _ _ h _ _ x
    | deferred _ => rfl
  | _ => rfl

/-- **Values that differ in functions are equal to the same values**, up to functions. -/
theorem Rel.equal?_eq (h : X.Rel v v') : X.Comparable (v.equal? T) (v'.equal? T) := by
  induction h with
  | node sub shape ih =>
    intro w w' hw
    cases shape with
    | scalar s => cases hw.shape <;> rfl
    | list items =>
      rw [equal?_list, equal?_list, items.length_eq]
      exact withList_eq (fun _ _ => equalAll?_eq ih items) hw
    | tuple items =>
      rw [equal?_tuple, equal?_tuple]
      exact withTuple_eq (fun _ _ => equalAll?_eq ih items) hw
    | poison => cases hw.shape <;> rfl
    | aborted => cases hw.shape <;> rfl
    | payload p =>
      cases hw.shape with
      | payload q => exact equalPayload_eq ih p q
      | _ => rfl
    | tree t =>
      cases hw.shape with
      | tree u => exact equalTree_eq ih t u
      | _ => rfl
    | plain t =>
      cases hw.shape with
      | plain u => exact equalPlain_eq ih t u
      | _ => rfl
    | descriptor c fields =>
      cases hw.shape with
      | descriptor d fields' =>
        by_cases same : c.id = d.id
        · simp only [Value.equal?, if_pos same]
          cases T.compared? c.id with
          | none => rfl
          | some names => exact equalFields_eq ih fields fields' names
        · simp only [Value.equal?, if_neg same]
      | _ => rfl
    | function f =>
      -- Only the function that aborts is equal to anything, and it is not exchanged.
      have apart : ∀ {f f' : Function}, f ≠ .betray → f' ≠ .betray →
          (Value.function f).equal? T w = (Value.function f').equal? T w' := fun hf hf' => by
        rw [equal?_function hf, equal?_function hf', hw.isPoison_eq]
      cases f with
      | betray =>
        cases hw.shape with
        | function g =>
          cases g with
          | swap swap =>
            rw [equal?_betray (X.left_ne swap), equal?_betray (X.right_ne swap)]
          | _ => rfl
        | _ => rfl
      | swap swap => exact apart (X.left_ne swap) (X.right_ne swap)
      | _ => exact apart (by simp) (by simp)
    | builder b => cases hw.shape <;> rfl
    | analysis result trace =>
      rw [equal?_analysis, equal?_analysis, trace.length_eq]
      refine withTuple_eq (fun _ _ => ofTests_eq (.cons ?_ (.cons ?_ .nil))) hw
      · intro x x' hx
        cases result with
        | some related => exact equalResult?_some ih related hx
        | none => cases hx.shape <;> rfl
      · exact fun _ _ => withList_eq fun _ _ => equalAll?_eq ih trace
    | slot n k a =>
      cases hw.shape with
      | slot n' k' a' =>
        exact andThen_congr (ih _ _ n _ _ n')
          (andThen_congr (ih _ _ k _ _ k') (ih _ _ a _ _ a'))
      | _ => rfl
    | locator c => cases hw.shape <;> rfl
    | cls c => cases hw.shape <;> rfl
    | builtinClass name => cases hw.shape <;> rfl
    | target t =>
      cases hw.shape with
      | target u => cases t <;> cases u <;> rfl
      | _ => cases t <;> rfl
    | snoc x l =>
      cases hw.shape with
      | snoc x' l' => exact andThen_congr (ih _ _ x _ _ x') (ih _ _ l _ _ l')
      | _ => rfl
    | cons x l =>
      cases hw.shape with
      | cons x' l' => exact andThen_congr (ih _ _ x _ _ x') (ih _ _ l _ _ l')
      | _ => rfl

end Text

end Exchange

end EffectTrees
