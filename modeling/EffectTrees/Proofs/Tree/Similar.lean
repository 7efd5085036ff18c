import EffectTrees.Proofs.Tree.Graft

/-!
# Trees that are alike up to their payloads

A finished tree can be written in several ways: its content may be there or still to be computed, and
if nothing comes of the computation, the tree is as good as a failed one. Two trees are *similar* if
they are built alike and differ in this respect only (`Similar`):

* finished trees have payloads that come to the same value,
* a failed tree, or a finished one of whose payload nothing comes, is similar to any other such tree
  (`Hopeless`),
* descriptors are of the same class and agree on the fields that are no slot
  (`SamePayload`); items of lists and contents of direct slots are similar; function slots give
  similar trees, or both abort or give the unknown argument.

No tree is similar to itself by definition alone, since its payloads might not come to anything; for
sound trees this is a result.

What becomes of a descriptor when the contents of its slots are worked on is the relation `Renews`.
It has the refills, where a copy is made, and also a descriptor that is left alone.
-/

namespace EffectTrees

open Machine (limit)

variable {T : ClassTable}

/-! ### Similar trees -/

/-- Nothing comes of the tree. -/
inductive Hopeless (T : ClassTable) : Value → Prop where
  | failed : Hopeless T (.tree .failed)
  | done {p : Payload} (nothing : (p.resolve limit).Yields T none) : Hopeless T (.tree (.done p))

/-- Two instances of a class agree on the fields that are given, but for the slot. -/
def SamePayload (T : ClassTable) (c : ClassRef) (s : Slot) (own own' : List (String × Value)) :
    Prop :=
  ∀ fields, T.fields? c.id = some fields → ∀ f ∈ fields, f.isGiven → f.name ≠ s.name →
    T.memberOf? c.id own .scalar f.name = T.memberOf? c.id own' .scalar f.name

theorem SamePayload.symm {c : ClassRef} {s : Slot} {own own' : List (String × Value)}
    (h : SamePayload T c s own own') : SamePayload T c s own' own :=
  fun fields listed f mem given other => (h fields listed f mem given other).symm

theorem SamePayload.trans {c : ClassRef} {s : Slot} {own own' own'' : List (String × Value)}
    (h : SamePayload T c s own own') (h' : SamePayload T c s own' own'') :
    SamePayload T c s own own'' :=
  fun fields listed f mem given other =>
    (h fields listed f mem given other).trans (h' fields listed f mem given other)

/-- The second descriptor is of the class of the first one, with the same payload; contents at hand
are related by `C`, and the functions of function slots by `B`. -/
inductive Renews (T : ClassTable) (C : Value → Value → Prop) (B : Nat → Value → Value → Prop) :
    Value → Value → Prop where
  | list {items items' : List Value} (each : List.Forall₂ C items items') :
      Renews T C B (.list items) (.list items')
  | direct {c : ClassRef} {own own' : List (String × Value)} {s : Slot} {x y : Value}
      (effect : c.isEffect) (slot : T.slotOf c.id = .ok s) (kind : s.kind = .direct)
      (payload : SamePayload T c s own own') (holds : SlotHolds T c own s x)
      (holds' : SlotHolds T c own' s y) (content : C x y) :
      Renews T C B (.descriptor c own) (.descriptor c own')
  | function {c : ClassRef} {own own' : List (String × Value)} {s : Slot} {n : Nat} {g g' : Value}
      (effect : c.isEffect) (slot : T.slotOf c.id = .ok s) (kind : s.kind = .function n)
      (payload : SamePayload T c s own own') (holds : SlotHolds T c own s g)
      (holds' : SlotHolds T c own' s g') (behind : B n g g') :
      Renews T C B (.descriptor c own) (.descriptor c own')

/-- Two functions of `n` arguments give related values on all arguments, or both abort or give the
unknown argument. They may both fail only for a number of arguments that they do not take. -/
def AlikeBehind (T : ClassTable) (R : Value → Value → Prop) (n : Nat) (g g' : Value) : Prop :=
  ∀ args, Alike T (args.length ≠ n) R (limit g args) (limit g' args)

/-- Two trees are similar at their roots, and what follows is related. -/
inductive Similar.Step (T : ClassTable) (R : Value → Value → Prop) : Value → Value → Prop where
  | hopeless {t u : Value} (left : Hopeless T t) (right : Hopeless T u) : Step T R t u
  | done {p q : Payload} {v : Value} (left : (p.resolve limit).Yields T (some v))
      (right : (q.resolve limit).Yields T (some v)) : Step T R (.tree (.done p)) (.tree (.done q))
  | suspended {d d' : Value} (renews : Renews T R (AlikeBehind T R) d d') :
      Step T R (.tree (.suspended d)) (.tree (.suspended d'))

/-- **Similar trees.** -/
def Similar (T : ClassTable) (t u : Value) : Prop :=
  ∃ R, (∀ t u, R t u → Similar.Step T R t u) ∧ R t u

theorem Alike.mono {mayFail : Prop} {R S : Value → Value → Prop} (hRS : ∀ t u, R t u → S t u)
    {a b : Act Value} (h : Alike T mayFail R a b) : Alike T mayFail S a b := by
  cases h with
  | values left right known known' related => exact .values left right known known' (hRS _ _ related)
  | nothing left right => exact .nothing left right
  | lost may left right => exact .lost may left right

/-! ### Renewed descriptors -/

namespace Renews

variable {C D R : Value → Value → Prop} {B E : Nat → Value → Value → Prop} {d d' d'' : Value}

theorem mono (h : Renews T C B d d') (hC : ∀ x y, AtHand T d x → C x y → D x y)
    (hB : ∀ n g g', Behind T d n g → B n g g' → E n g g') : Renews T D E d d' := by
  cases h with
  | @list items items' each =>
    have both : List.Forall₂ (fun x y => x ∈ items ∧ C x y) items items' :=
      (List.forall₂_and_left _ _).mpr ⟨fun _ mem => mem, each⟩
    exact .list (both.imp fun x y hxy => hC x y (.item hxy.1) hxy.2)
  | direct effect slot kind payload holds holds' content =>
    exact .direct effect slot kind payload holds holds'
      (hC _ _ (.content effect slot kind holds) content)
  | function effect slot kind payload holds holds' behind =>
    exact .function effect slot kind payload holds holds'
      (hB _ _ _ (.slot effect slot kind holds) behind)

/-- A descriptor whose slots can be filled renews itself. -/
theorem refl (h : Fillable T d) : Renews T Eq (fun _ => Eq) d d := by
  cases h with
  | list items => exact .list (List.forall₂_same.mpr fun _ _ => rfl)
  | @effect c own s fill x slotted holds =>
    cases kind : s.kind with
    | direct =>
      exact .direct slotted.effect slotted.slot kind (fun _ _ _ _ _ _ => rfl) holds holds rfl
    | function n =>
      exact .function slotted.effect slotted.slot kind (fun _ _ _ _ _ _ => rfl) holds holds rfl

/-- What is put into the slot of a descriptor leaves its payload alone. -/
theorem of_refills {F : Value → Value} (h : Refills T C F d d') :
    Renews T C (fun _ g g' => g' = F g) d d' := by
  have payload : ∀ {c own s fill} (_ : Slotted T c own s fill) (x : Value),
      SamePayload T c s own (fill x) := by
    intro c own s fill slotted x fields listed f mem given other
    exact (Instance.memberOf?_copy_given (slotted.fills x) listed mem given other).symm
  cases h with
  | list each => exact .list each
  | direct slotted kind holds content =>
    exact .direct slotted.effect slotted.slot kind (payload slotted _) holds (slotted.holds_fill _)
      content
  | function slotted kind holds =>
    exact .function slotted.effect slotted.slot kind (payload slotted _) holds
      (slotted.holds_fill _) rfl

/-- Two descriptors that renew the same one renew each other. -/
theorem fork (h : Renews T C B d d') (h' : Renews T D E d d'')
    {P : Nat → Value → Value → Prop} (content : ∀ x y z, AtHand T d x → C x y → D x z → R y z)
    (behind : ∀ n g g' g'', Behind T d n g → B n g g' → E n g g'' → P n g' g'') :
    Renews T R P d' d'' := by
  -- A descriptor has one slot of one kind, so both are renewed in the same place.
  cases h with
  | list each =>
    cases h' with
    | list each' => exact .list (each.fork each' fun x y z mem => content x y z (.item mem))
  | direct effect slot kind payload holds heldLeft hxy =>
    cases h' with
    | direct _ slot' _ payload' holds' heldRight hxz =>
      obtain rfl := slotOf_unique slot slot'
      obtain rfl := holds.unique holds'
      exact .direct effect slot kind (payload.symm.trans payload') heldLeft heldRight
        (content _ _ _ (.content effect slot kind holds) hxy hxz)
    | function _ slot' kind' => exact (slotOf_exclusive slot kind slot' kind').elim
  | function effect slot kind payload holds heldLeft hg =>
    cases h' with
    | direct _ slot' kind' => exact (slotOf_exclusive slot' kind' slot kind).elim
    | function _ slot' kind' payload' holds' heldRight hg' =>
      obtain rfl := slotOf_unique slot slot'
      obtain rfl := holds.unique holds'
      obtain rfl := SlotKind.function.inj (kind.symm.trans kind')
      exact .function effect slot kind (payload.symm.trans payload') heldLeft heldRight
        (behind _ _ _ _ (.slot effect slot kind holds) hg hg')

/-- A descriptor that renews a renewed one renews the first. -/
theorem comp (h : Renews T C B d d') (h' : Renews T D E d' d'') :
    Renews T (Relation.Comp C D) (fun n => Relation.Comp (B n) (E n)) d d'' := by
  cases h with
  | list each =>
    cases h' with
    | list each' => exact .list (each.comp each')
  | direct effect slot kind payload holds held hxy =>
    cases h' with
    | direct _ slot' _ payload' held' holds' hyz =>
      obtain rfl := slotOf_unique slot slot'
      obtain rfl := held.unique held'
      exact .direct effect slot kind (payload.trans payload') holds holds' ⟨_, hxy, hyz⟩
    | function _ slot' kind' => exact (slotOf_exclusive slot kind slot' kind').elim
  | function effect slot kind payload holds held hg =>
    cases h' with
    | direct _ slot' kind' => exact (slotOf_exclusive slot' kind' slot kind).elim
    | function _ slot' kind' payload' held' holds' hg' =>
      obtain rfl := slotOf_unique slot slot'
      obtain rfl := held.unique held'
      obtain rfl := SlotKind.function.inj (kind.symm.trans kind')
      exact .function effect slot kind (payload.trans payload') holds holds' ⟨_, hg, hg'⟩

/-- What is at hand in the second descriptor comes from what is at hand in the first. -/
theorem atHand_right (h : Renews T C B d d') {y : Value} (hy : AtHand T d' y) :
    ∃ x, AtHand T d x ∧ C x y := by
  cases h with
  | list each =>
    cases hy with
    | item mem =>
      obtain ⟨x, hx, hxy⟩ := each.exists_left mem
      exact ⟨x, .item hx, hxy⟩
  | direct effect slot kind payload holds held content =>
    cases hy with
    | content effect' slot' direct held' =>
      obtain rfl := slotOf_unique slot slot'
      obtain rfl := held.unique held'
      exact ⟨_, .content effect slot kind holds, content⟩
  | function effect slot kind payload holds held behind =>
    cases hy with
    | content effect' slot' direct held' =>
      exact (slotOf_exclusive slot' direct slot kind).elim

/-- What renews a descriptor is renewed by it, the other way round. -/
theorem swap (renews : Renews T C B d d') :
    Renews T (fun y x => C x y) (fun n k' k => B n k k') d' d := by
  cases renews with
  | list each => exact .list each.flip
  | direct effect slot kind payload holds holds' content =>
    exact .direct effect slot kind payload.symm holds' holds content
  | function effect slot kind payload holds holds' behind =>
    exact .function effect slot kind payload.symm holds' holds behind

theorem atHand_left (renews : Renews T C B d d') {x : Value} (hx : AtHand T d x) : ∃ y, AtHand T d' y ∧ C x y :=
  renews.swap.atHand_right hx

theorem behind_right (renews : Renews T C B d d') {n : Nat} {k' : Value}
    (hk : Behind T d' n k') :
    ∃ k, Behind T d n k ∧ B n k k' := by
  cases hk with
  | slot effect slot kind holds' =>
    cases renews with
    | direct _ slot' kind' _ _ _ =>
      exact (slotOf_exclusive slot' kind' slot kind).elim
    | function _ slot' kind' _ before after behind =>
      obtain rfl := slotOf_unique slot slot'
      obtain rfl := after.unique holds'
      obtain rfl := SlotKind.function.inj (kind.symm.trans kind')
      exact ⟨_, .slot effect slot kind before, behind⟩

end Renews

namespace Similar

variable {R S : Value → Value → Prop} {t u : Value}

theorem Step.mono (hRS : ∀ t u, R t u → S t u) (h : Step T R t u) : Step T S t u := by
  cases h with
  | hopeless left right => exact .hopeless left right
  | done left right => exact .done left right
  | suspended renews =>
    exact .suspended (renews.mono (fun x y _ hxy => hRS x y hxy) fun n g g' _ alike args =>
      (alike args).mono hRS)

theorem step (h : Similar T t u) : Step T (Similar T) t u := by
  obtain ⟨R, closed, related⟩ := h
  exact (closed t u related).mono fun x y hxy => ⟨R, closed, hxy⟩

theorem of_step (h : Step T (Similar T) t u) : Similar T t u :=
  ⟨Step T (Similar T), fun _ _ h => h.mono fun _ _ similar => similar.step, h⟩

end Similar

end EffectTrees
