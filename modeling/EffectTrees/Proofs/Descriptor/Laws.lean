import EffectTrees.Proofs.Descriptor.Making
import EffectTrees.Proofs.Value.Twin

/-!
# Slots are lenses, and mapping over them is a functor

For an instance of a record of an effect, what the slot holds can be read and changed, and nothing
else depends on it. The laws are those of a lens for direct slots, and those of a functor for both
kinds of slots (`LawfulSlot`); they hold for lists too, whose items are slots each (`LawfulList`). The
class may have any fields, with the slot among those that are given in any position, but it has to
make its instances from these (`ClassTable.Constructs`). A class that is made a record twice may not,
and then the laws fail (`Torn`).

The laws are equations of runs: what is mapped may log, abort, fail, or go on without an end. It may
even register classes, unless it is called to be mapped and the class is one that this could change
(`ClassTable.Harmless`). Only where the functions of function slots are composed, and over lists,
where one function is called for all items before the other is, equality is too much to ask: there
the functions in the slots agree on all arguments, and the items are compared.

Everything follows from what the operations come to at a single descriptor (`runIn_fmap_direct`,
`runIn_fmap_function`, `runIn_follow`, `runIn_erase`), and from the laws of an update of what the
descriptor holds.
-/

namespace EffectTrees

open Act (SameOutcome)
open ClassTable (Copyable givenNames)
open Instance (withMember)
open Machine (limit)

/-! ### Functions -/

/-- The function gives its argument back. -/
def IsIdentity (e : Value) : Prop := ∀ v, limit e [v] = pure v

/-- The function passes its argument to `f`, and the result to `g`. -/
def IsComposite (h f g : Value) : Prop :=
  ∀ v, limit h [v] = (do limit g [← limit f [v]])

/-- What comes of the function is a matter of its argument, at these classes. -/
def IsFunction (T : ClassTable) (f : Value) : Prop := ∀ v, ∃ o, (limit f [v]).Settles T o

/-- A function that gives its argument back. -/
def identity : Value := .function (.closure ["x"] (.var "x") [])

theorem isIdentity_identity : IsIdentity identity := fun v =>
  Machine.limit_closure ["x"] (.var "x") [] [v]

theorem isComposite_after (f g : Value) : IsComposite (.after g f) f g := fun v =>
  Machine.limit_after g f [v]

/-- What passes on from one harmless function to another does no harm either. -/
theorem ClassTable.Unharmed.composite {T : ClassTable} {c : ClassRef} {f g h : Value}
    (hf : T.Unharmed c f) (hg : T.Unharmed c g) (composite : IsComposite h f g) : T.Unharmed c h := by
  rcases hf with lasting | hf
  · exact .inl lasting
  rcases hg with lasting | hg
  · exact .inl lasting
  refine .inr fun v w r w' run => ?_
  rw [composite v, Act.runIn_bind] at run
  match first : (limit f [v]).runIn w with
  | none => simp [first] at run
  | some (.error s, w₁) =>
    obtain ⟨-, rfl⟩ : _ ∧ w₁ = w' := by simpa [first] using run
    exact hf v w _ w₁ first
  | some (.ok u, w₁) =>
    rw [first] at run
    obtain ⟨es, history, spared⟩ := hf v w _ w₁ first
    obtain ⟨es', history', spared'⟩ := hg u w₁ r w' run
    refine ⟨es ++ es', history.append history', fun e mem => ?_⟩
    exact (List.mem_append.mp mem).elim (spared e) (spared' e)

/-! ### The laws -/

/-- **The function may be mapped** over the slot without harm to the class. It is called for direct
slots only. -/
def ClassTable.Harmless (T : ClassTable) (c : ClassRef) (s : Slot) (f : Value) : Prop :=
  s.kind = .direct → T.Unharmed c f

/-- The class makes an instance that holds this, from some arguments. -/
def ClassTable.Makes (T : ClassTable) (c : ClassRef) (own : List (String × Value)) : Prop :=
  ∃ args w w', w.classes = T ∧ (Instance.make c args).runIn w = some (.ok (.descriptor c own), w')

/-- **The same descriptors**, but that the functions in function slots need to agree on all arguments
only. -/
inductive SameDescriptor (c : ClassRef) (s : Slot) : Value → Value → Prop where
  | refl (d : Value) : SameDescriptor c s d d
  | function {own : List (String × Value)} {n : Nat} {g g' : Value} (kind : s.kind = .function n)
      (agree : ∀ args, limit g args = limit g' args) :
      SameDescriptor c s (.descriptor c (withMember own s.name g))
        (.descriptor c (withMember own s.name g'))

/-- An instance of the class with the same members under all other names. -/
def SameElsewhere (c : ClassRef) (own : List (String × Value)) (name : String) (d : Value) : Prop :=
  ∃ own', d = .descriptor c own' ∧ ∀ (t : ClassTable) (n : String), n ≠ name →
    t.memberOf? c.id own' .scalar n = t.memberOf? c.id own .scalar n

/-- **The laws of a slot**, for a descriptor of the class. -/
structure LawfulSlot (T : ClassTable) (c : ClassRef) (s : Slot) (own : List (String × Value)) :
    Prop where
  identity : ∀ e, IsIdentity e → ∃ d, (fmap limit (.descriptor c own) e).Yields T d ∧
    SameDescriptor c s d (.descriptor c own)
  composition : ∀ f g h, T.Harmless c s f → T.Harmless c s g → IsComposite h f g →
    ∀ w, w.classes = T → Option.Rel (SameOutcome (SameDescriptor c s))
      ((fmap limit (.descriptor c own) f >>= fun d => fmap limit d g).runIn w)
      ((fmap limit (.descriptor c own) h).runIn w)
  follow_fmap : ∀ f, T.Harmless c s f → ∀ w, w.classes = T →
    (fmap limit (.descriptor c own) f >>= s.follow limit).runIn w =
      (Act.slotOf c >>= fun s => s.follow limit (.descriptor c own) >>= fun x => limit f [x]).runIn w
  follow_aborts : ∀ f w w', w.classes = T →
    (Act.slotOf c >>= fun s => s.follow limit (.descriptor c own)).runIn w =
      some (.error .abort, w') →
    (fmap limit (.descriptor c own) f >>= s.follow limit).runIn w = some (.error .abort, w')
  /-- A function slot is mapped over without a call. -/
  fmap_function : s.kind ≠ .direct → ∀ f, ∃ d, (fmap limit (.descriptor c own) f).Yields T d
  follow_replace : s.kind = .direct → ∀ k w, w.classes = T →
    ((Value.descriptor c own).replaceMember s.name k >>= s.follow limit).runIn w = some (.ok k, w)
  replace_follow : s.kind = .direct → ∀ w, w.classes = T →
    (s.follow limit (.descriptor c own) >>= (Value.descriptor c own).replaceMember s.name).runIn w =
      some (.ok (.descriptor c own), w)
  replace_replace : s.kind = .direct → ∀ k k' w, w.classes = T →
    ((Value.descriptor c own).replaceMember s.name k >>= fun d => d.replaceMember s.name k').runIn w =
      ((Value.descriptor c own).replaceMember s.name k').runIn w
  erasure : ∃ e, (erase limit (.descriptor c own)).Yields T e ∧ (erase limit e).Yields T e ∧
    SameElsewhere c own s.name e ∧
    ∀ f, T.Harmless c s f → ∀ w, w.classes = T →
      (fmap limit (.descriptor c own) f >>= erase limit).runIn w =
        (fmap limit (.descriptor c own) f >>= fun _ => pure e).runIn w
  elsewhere_fmap : ∀ f, T.Harmless c s f → ∀ w d w', w.classes = T →
    (fmap limit (.descriptor c own) f).runIn w = some (.ok d, w') → SameElsewhere c own s.name d
  elsewhere_replace : ∀ k, ∃ d, ((Value.descriptor c own).replaceMember s.name k).Yields T d ∧
    SameElsewhere c own s.name d

/-- **The laws of a list**, each item of which is a slot. -/
structure LawfulList (T : ClassTable) (items : List Value) : Prop where
  identity : ∀ e, IsIdentity e → fmap limit (.list items) e = pure (.list items)
  composition : ∀ f g h, IsFunction T f → IsFunction T g → IsComposite h f g → ∀ d,
    (fmap limit (.list items) f >>= fun d' => fmap limit d' g).Yields T d ↔
      (fmap limit (.list items) h).Yields T d
  total : ∀ f, (∀ x ∈ items, ∃ y, (limit f [x]).Yields T y) →
    ∃ d, (fmap limit (.list items) f).Yields T d
  erasure : ∃ e, erase limit (.list items) = pure e ∧ erase limit e = pure e ∧
    ∀ f w, (fmap limit (.list items) f >>= erase limit).runIn w =
      (fmap limit (.list items) f >>= fun _ => pure e).runIn w

/-! ### Runs -/

namespace Act

variable {α β : Type} {w : World}

theorem runIn_bind_congr {a : Act α} {f g : α → Act β}
    (h : ∀ x w', a.runIn w = some (.ok x, w') → (f x).runIn w' = (g x).runIn w') :
    (a >>= f).runIn w = (a >>= g).runIn w := by
  rw [runIn_bind, runIn_bind]
  rcases run : a.runIn w with _ | ⟨_ | x, w'⟩
  · rfl
  · rfl
  · exact h x w' run

theorem runIn_bind_left {a b : Act α} (h : a.runIn w = b.runIn w) (f : α → Act β) :
    (a >>= f).runIn w = (b >>= f).runIn w := by
  rw [runIn_bind, runIn_bind, h]

end Act

/-! ### A descriptor in a world where its class is in good order -/

/-- **The descriptor is in order** in a world that came about from the classes `T`: its class is, and
it holds a value for each field that is given, the slot among them. -/
structure InOrder (T : ClassTable) (c : ClassRef) (s : Slot) (fields : List Field)
    (own : List (String × Value)) (w : World) : Prop where
  effect : c.isEffect
  upholds : w.Upholds T c s fields
  complete : own.map Prod.fst = givenNames fields
  mem : s.name ∈ givenNames fields

namespace InOrder

variable {T : ClassTable} {c : ClassRef} {s : Slot} {fields : List Field}
  {own : List (String × Value)} {w w' : World} {f g h x y : Value}

/-- With another content of its slot it is in order too. -/
theorem changed (h : InOrder T c s fields own w) (x : Value) :
    InOrder T c s fields (withMember own s.name x) w :=
  { h with complete := by rw [Instance.map_fst_withMember, h.complete] }

theorem distinct (h : InOrder T c s fields own w) : (own.map Prod.fst).Nodup := by
  rw [h.complete]
  exact h.upholds.operable.copyable.distinct.sublist (List.filter_sublist.map Field.name)

theorem exists_content (h : InOrder T c s fields own w) :
    ∃ x, Value.fieldAt? own s.name = some x :=
  Instance.exists_holds (by rw [h.complete]; exact h.mem)

theorem holds_withMember (h : InOrder T c s fields own w) (x : Value) :
    Value.fieldAt? (withMember own s.name x) s.name = some x :=
  Instance.fieldAt?_withMember_self (by rw [h.complete]; exact h.mem)

/-- After a call of a harmless function it is in order still. -/
theorem call (h : InOrder T c s fields own w) (unharmed : T.Unharmed c f) {v : Value}
    {r : Except Signal Value} (run : (limit f [v]).runIn w = some (r, w')) :
    InOrder T c s fields own w' :=
  { h with upholds := h.upholds.call unharmed run }

/-- **Asking the class for its slot** finds the slot. So computations that start in this way do the
same if they go on in the same way with the slot, where the class has been asked. -/
theorem runIn_asking_congr (h : InOrder T c s fields own w) {α : Type} {k k' : Slot → Act α}
    (goOn : ∀ w₁, InOrder T c s fields own w₁ → w₁.asked c.id = true →
      (k s).runIn w₁ = (k' s).runIn w₁) :
    (Act.slotOf c >>= k).runIn w = (Act.slotOf c >>= k').runIn w := by
  refine Act.runIn_bind_congr fun s' w₁ asks => ?_
  rw [runIn_slotOf, h.upholds.operable.slot] at asks
  obtain ⟨found, rfl⟩ := Prod.mk.inj (Option.some.inj asks)
  obtain rfl := Except.ok.inj found
  have upholds := h.upholds
  exact goOn _ { h with upholds := ⟨upholds.operable, upholds.lineage, upholds.lasting⟩ }
    (by simp [Consultations.add_apply])

/-- Once it has been asked, asking changes nothing. -/
theorem runIn_slotOf_bind (h : InOrder T c s fields own w) (asked : w.asked c.id = true) {α : Type}
    (k : Slot → Act α) : (Act.slotOf c >>= k).runIn w = (k s).runIn w := by
  rw [Act.runIn_bind, runIn_slotOf_asked h.upholds.operable.slot asked]

/-! ### What the operations come to -/

theorem runIn_replace (h : InOrder T c s fields own w) (x : Value) :
    ((Value.descriptor c own).replaceMember s.name x).runIn w =
      some (.ok (.descriptor c (withMember own s.name x)), w) := by
  rw [replaceMember_descriptor, Instance.runIn_replace,
    h.upholds.operable.copyable.replaced_eq h.complete h.mem]

theorem runIn_lookup (holds : Value.fieldAt? own s.name = some x) (w : World) :
    ((Value.descriptor c own).lookup s.name).runIn w = some (.ok x, w) := by
  rw [EffectTrees.runIn_lookup, Instance.memberOf?_of_holds w.classes c.id holds]

/-- A direct slot is followed to its content, and the function of a function slot is called with the
unknown argument. -/
theorem runIn_follow (holds : Value.fieldAt? own s.name = some x) (w : World) :
    (s.follow limit (.descriptor c own)).runIn w =
      (match s.kind with
        | .direct => pure x
        | .function n => limit x (List.replicate n .poison) : Act Value).runIn w := by
  cases kind : s.kind <;> simp only [Slot.follow, Act.runIn_bind, runIn_lookup holds, kind]

theorem runIn_fmap_direct (h : InOrder T c s fields own w)
    (holds : Value.fieldAt? own s.name = some x) (direct : s.kind = .direct)
    (unharmed : T.Unharmed c f) :
    (fmap limit (.descriptor c own) f).runIn w =
      (Act.slotOf c >>= fun _ => limit f [x] >>= fun y =>
        pure (.descriptor c (withMember own s.name y))).runIn w := by
  unfold fmap
  dsimp only
  rw [if_pos h.effect]
  refine h.runIn_asking_congr fun w₁ h₁ _ => ?_
  unfold Slot.map
  rw [Act.runIn_bind, runIn_lookup holds]
  dsimp only
  rw [direct]
  refine Act.runIn_bind_congr fun y w₂ called => ?_
  exact (h₁.call unharmed called).runIn_replace y

theorem runIn_fmap_function (h : InOrder T c s fields own w)
    (holds : Value.fieldAt? own s.name = some x) {n : Nat} (kind : s.kind = .function n)
    (f : Value) :
    (fmap limit (.descriptor c own) f).runIn w =
      (Act.slotOf c >>= fun _ =>
        pure (.descriptor c (withMember own s.name (.after f x))) : Act Value).runIn w := by
  unfold fmap
  dsimp only
  rw [if_pos h.effect]
  refine h.runIn_asking_congr fun w₁ h₁ _ => ?_
  unfold Slot.map
  rw [Act.runIn_bind, runIn_lookup holds]
  dsimp only
  rw [kind]
  exact h₁.runIn_replace _

theorem runIn_erase (h : InOrder T c s fields own w) :
    (erase limit (.descriptor c own)).runIn w =
      (Act.slotOf c >>= fun _ =>
        pure (.descriptor c (withMember own s.name .unit)) : Act Value).runIn w := by
  unfold erase
  dsimp only
  rw [if_pos h.effect]
  refine h.runIn_asking_congr fun w₁ h₁ _ => ?_
  exact h₁.runIn_replace _

/-- Where the class is asked for its slot only, nothing else happens. -/
theorem runIn_slotOf_pure (h : InOrder T c s fields own w) (d : Value) :
    (Act.slotOf c >>= fun _ => pure d).runIn w =
      some (.ok d, { w with asked := w.asked.add c.id }) := by
  rw [Act.runIn_bind, runIn_slotOf, h.upholds.operable.slot]
  rfl

/-! ### Mapping -/

/-- A direct slot is mapped over twice by one call after the other. -/
theorem runIn_fmap_fmap_direct (h : InOrder T c s fields own w)
    (holds : Value.fieldAt? own s.name = some x) (direct : s.kind = .direct)
    (harmless : T.Unharmed c f) (harmless' : T.Unharmed c g) :
    (fmap limit (.descriptor c own) f >>= fun d => fmap limit d g).runIn w =
      (Act.slotOf c >>= fun _ => limit f [x] >>= fun y => limit g [y] >>= fun z =>
        pure (.descriptor c (withMember own s.name z))).runIn w := by
  calc (fmap limit (.descriptor c own) f >>= fun d => fmap limit d g).runIn w
      = (Act.slotOf c >>= fun _ => limit f [x] >>= fun y =>
          fmap limit (.descriptor c (withMember own s.name y)) g).runIn w := by
        rw [Act.runIn_bind_left (h.runIn_fmap_direct holds direct harmless)]
        simp only [bind_assoc, pure_bind]
    _ = _ := by
        refine h.runIn_asking_congr fun w₁ h₁ asked => Act.runIn_bind_congr fun y w₂ called => ?_
        obtain ⟨es, history⟩ := Act.Traceable.history called
        -- The class has been asked for its slot before the first call, and that is not forgotten.
        have h₂ := (h₁.call harmless called).changed y
        have still := World.asked_of_history history asked
        rw [h₂.runIn_fmap_direct (h₁.holds_withMember y) direct harmless',
          h₂.runIn_slotOf_bind still]
        simp only [Instance.withMember_withMember]

/-- A function slot is mapped over twice by composing twice. -/
theorem runIn_fmap_fmap_function (h : InOrder T c s fields own w)
    (holds : Value.fieldAt? own s.name = some x) {n : Nat} (kind : s.kind = .function n)
    (f g : Value) :
    (fmap limit (.descriptor c own) f >>= fun d => fmap limit d g).runIn w =
      (Act.slotOf c >>= fun _ => pure
        (.descriptor c (withMember own s.name (.after g (.after f x)))) :
          Act Value).runIn w := by
  rw [Act.runIn_bind_left (h.runIn_fmap_function holds kind f)]
  simp only [bind_assoc, pure_bind]
  refine h.runIn_asking_congr fun w₁ h₁ asked => ?_
  have h₂ := h₁.changed (.after f x)
  rw [h₂.runIn_fmap_function (h₁.holds_withMember _) kind, h₂.runIn_slotOf_bind asked,
    Instance.withMember_withMember]

theorem composition (h : InOrder T c s fields own w) {k : Value} (harmless : T.Harmless c s f)
    (harmless' : T.Harmless c s g) (composite : IsComposite k f g) :
    Option.Rel (SameOutcome (SameDescriptor c s))
      ((fmap limit (.descriptor c own) f >>= fun d => fmap limit d g).runIn w)
      ((fmap limit (.descriptor c own) k).runIn w) := by
  obtain ⟨x, holds⟩ := h.exists_content
  cases kind : s.kind with
  | direct =>
    have same : (fmap limit (.descriptor c own) f >>= fun d => fmap limit d g).runIn w =
        (fmap limit (.descriptor c own) k).runIn w := by
      have unharmed : T.Unharmed c k := (harmless kind).composite (harmless' kind) composite
      rw [h.runIn_fmap_fmap_direct holds kind (harmless kind) (harmless' kind),
        h.runIn_fmap_direct holds kind unharmed, composite x]
      simp only [bind_assoc]
    rw [same]
    exact Act.SameRun.refl (fun d => .refl d) _ w
  | function n =>
    -- The composed functions are told apart, but they do the same with all arguments.
    have agree : ∀ args, limit (.after g (.after f x)) args = limit (.after k x) args := by
      intro args
      simp only [Value.after, Machine.limit_after, bind_assoc]
      exact congrArg _ (funext fun v => (composite v).symm)
    rw [h.runIn_fmap_fmap_function holds kind, h.runIn_fmap_function holds kind,
      h.runIn_slotOf_pure, h.runIn_slotOf_pure]
    exact .some (.ok (.function kind agree) _)

/-! ### Following -/

theorem follow_fmap_function (h : InOrder T c s fields own w)
    (holds : Value.fieldAt? own s.name = some x) {n : Nat} (kind : s.kind = .function n)
    (f : Value) :
    (fmap limit (.descriptor c own) f >>= s.follow limit).runIn w =
      (Act.slotOf c >>= fun s => s.follow limit (.descriptor c own) >>= fun x =>
        limit f [x]).runIn w := by
  rw [Act.runIn_bind_left (h.runIn_fmap_function holds kind f)]
  simp only [bind_assoc, pure_bind]
  refine h.runIn_asking_congr fun w₁ _ _ => ?_
  rw [runIn_follow (h.holds_withMember _), Act.runIn_bind_left (runIn_follow holds w₁), kind]
  simp only [Value.after, Machine.limit_after]

theorem follow_fmap_direct (h : InOrder T c s fields own w)
    (holds : Value.fieldAt? own s.name = some x) (direct : s.kind = .direct)
    (harmless : T.Unharmed c f) :
    (fmap limit (.descriptor c own) f >>= s.follow limit).runIn w =
      (Act.slotOf c >>= fun s => s.follow limit (.descriptor c own) >>= fun x =>
        limit f [x]).runIn w := by
  -- What the function gives is put into the slot and found there.
  have found : ∀ y w₂, (s.follow limit (.descriptor c (withMember own s.name y))).runIn w₂ =
      (pure y : Act Value).runIn w₂ := fun y w₂ => by
    rw [runIn_follow (h.holds_withMember y), direct]
  rw [Act.runIn_bind_left (h.runIn_fmap_direct holds direct harmless)]
  simp only [bind_assoc, pure_bind]
  refine h.runIn_asking_congr fun w₁ _ _ => ?_
  rw [Act.runIn_bind_left (runIn_follow holds w₁), direct]
  dsimp only
  rw [pure_bind]
  have returned := Act.runIn_bind_congr (a := limit f [x]) (w := w₁) fun y w₂ _ => found y w₂
  rw [returned, bind_pure]

theorem follow_fmap (h : InOrder T c s fields own w) (harmless : T.Harmless c s f) :
    (fmap limit (.descriptor c own) f >>= s.follow limit).runIn w =
      (Act.slotOf c >>= fun s => s.follow limit (.descriptor c own) >>= fun x =>
        limit f [x]).runIn w := by
  obtain ⟨x, holds⟩ := h.exists_content
  cases kind : s.kind with
  | direct => exact h.follow_fmap_direct holds kind (harmless kind)
  | function n => exact h.follow_fmap_function holds kind f

/-- If the slot is followed to an abort, it is a function slot, and what is mapped is not called. -/
theorem follow_aborts (h : InOrder T c s fields own w) (f : Value)
    (aborts : (Act.slotOf c >>= fun s => s.follow limit (.descriptor c own)).runIn w =
      some (.error .abort, w')) :
    (fmap limit (.descriptor c own) f >>= s.follow limit).runIn w = some (.error .abort, w') := by
  obtain ⟨x, holds⟩ := h.exists_content
  cases kind : s.kind with
  | direct =>
    have found : (Act.slotOf c >>= fun s => s.follow limit (.descriptor c own)).runIn w =
        (Act.slotOf c >>= fun _ => pure x).runIn w := by
      refine h.runIn_asking_congr fun w₁ _ _ => ?_
      rw [runIn_follow holds, kind]
    rw [found, h.runIn_slotOf_pure] at aborts
    cases aborts
  | function n =>
    rw [h.follow_fmap_function holds kind, ← bind_assoc, Act.runIn_bind, aborts]

/-! ### Changing the content -/

theorem follow_replace (h : InOrder T c s fields own w) (direct : s.kind = .direct) (k : Value) :
    ((Value.descriptor c own).replaceMember s.name k >>= s.follow limit).runIn w =
      some (.ok k, w) := by
  rw [Act.runIn_bind, h.runIn_replace]
  dsimp only
  rw [runIn_follow (h.holds_withMember k), direct]
  rfl

theorem replace_follow (h : InOrder T c s fields own w) (direct : s.kind = .direct) :
    (s.follow limit (.descriptor c own) >>= (Value.descriptor c own).replaceMember s.name).runIn w =
      some (.ok (.descriptor c own), w) := by
  obtain ⟨x, holds⟩ := h.exists_content
  rw [Act.runIn_bind_left (runIn_follow holds w), direct]
  dsimp only
  rw [pure_bind, h.runIn_replace, Instance.withMember_self h.distinct holds]

theorem replace_replace (h : InOrder T c s fields own w) (k k' : Value) :
    ((Value.descriptor c own).replaceMember s.name k >>= fun d =>
        d.replaceMember s.name k').runIn w =
      ((Value.descriptor c own).replaceMember s.name k').runIn w := by
  rw [Act.runIn_bind, h.runIn_replace]
  dsimp only
  rw [(h.changed k).runIn_replace, h.runIn_replace, Instance.withMember_withMember]

/-! ### Erasing -/

/-- The content of the slot makes no difference to the erasure. -/
theorem runIn_erase_changed (h : InOrder T c s fields own w) (x : Value) :
    (erase limit (.descriptor c (withMember own s.name x))).runIn w =
      some (.ok (.descriptor c (withMember own s.name .unit)),
        { w with asked := w.asked.add c.id }) := by
  rw [(h.changed x).runIn_erase, Instance.withMember_withMember, h.runIn_slotOf_pure]

theorem erase_fmap (h : InOrder T c s fields own w) (harmless : T.Harmless c s f) :
    (fmap limit (.descriptor c own) f >>= erase limit).runIn w =
      (fmap limit (.descriptor c own) f >>= fun _ =>
        pure (.descriptor c (withMember own s.name .unit))).runIn w := by
  obtain ⟨x, holds⟩ := h.exists_content
  cases kind : s.kind with
  | direct =>
    rw [Act.runIn_bind_left (h.runIn_fmap_direct holds kind (harmless kind)),
      Act.runIn_bind_left (h.runIn_fmap_direct holds kind (harmless kind))]
    simp only [bind_assoc, pure_bind]
    refine h.runIn_asking_congr fun w₁ h₁ asked => Act.runIn_bind_congr fun y w₂ called => ?_
    obtain ⟨es, history⟩ := Act.Traceable.history called
    have noted : w₂.asked.add c.id = w₂.asked := if_pos (World.asked_of_history history asked)
    rw [(h₁.call (harmless kind) called).runIn_erase_changed y, noted]
    rfl
  | function n =>
    rw [Act.runIn_bind_left (h.runIn_fmap_function holds kind f),
      Act.runIn_bind_left (h.runIn_fmap_function holds kind f)]
    simp only [bind_assoc, pure_bind]
    refine h.runIn_asking_congr fun w₁ h₁ asked => ?_
    have noted : w₁.asked.add c.id = w₁.asked := if_pos asked
    rw [h₁.runIn_erase_changed, noted]
    rfl

/-! ### Everything else -/

theorem sameElsewhere (c : ClassRef) (own : List (String × Value)) (name : String) (x : Value) :
    SameElsewhere c own name (.descriptor c (withMember own name x)) :=
  ⟨_, rfl, fun t _ other => Instance.memberOf?_withMember_other t c.id other⟩

/-- What mapping over the descriptor gives is the descriptor with another content of its slot. -/
theorem exists_of_fmap (h : InOrder T c s fields own w) (harmless : T.Harmless c s f) {d : Value}
    (run : (fmap limit (.descriptor c own) f).runIn w = some (.ok d, w')) :
    ∃ y, d = .descriptor c (withMember own s.name y) := by
  obtain ⟨x, holds⟩ := h.exists_content
  cases kind : s.kind with
  | direct =>
    rw [h.runIn_fmap_direct holds kind (harmless kind)] at run
    obtain ⟨_, w₁, -, run⟩ := Act.exists_runs_of_bind run
    obtain ⟨y, w₂, -, run⟩ := Act.exists_runs_of_bind run
    obtain ⟨rfl, -⟩ : .descriptor c (withMember own s.name y) = d ∧ w₂ = w' := by simpa using run
    exact ⟨y, rfl⟩
  | function n =>
    rw [h.runIn_fmap_function holds kind, h.runIn_slotOf_pure] at run
    obtain ⟨rfl, -⟩ : .descriptor c (withMember own s.name (.after f x)) = d ∧ _ := by
      simpa using run
    exact ⟨_, rfl⟩

end InOrder

/-! ### Lists -/

section

variable {T : ClassTable} {items : List Value} {f g h : Value}

theorem fmap_items (items : List Value) (f : Value) :
    fmap limit (.list items) f = (do return .list (← items.mapM fun v => limit f [v])) := by
  unfold fmap
  rfl

theorem IsComposite.isFunction (composite : IsComposite h f g) (hf : IsFunction T f)
    (hg : IsFunction T g) : IsFunction T h := fun v => by
  obtain ⟨o, first⟩ := hf v
  rw [composite v]
  exact first.exists_bind fun u _ => hg u

/-- What mapping over a list gives is given item by item. -/
theorem yields_fmap_items_iff (hf : IsFunction T f) {d : Value} :
    (fmap limit (.list items) f).Yields T d ↔
      ∃ items', List.Forall₂ (fun v u => (limit f [v]).Yields T u) items items' ∧
        d = .list items' := by
  obtain ⟨o, settles⟩ := Act.exists_settles_mapM items fun v _ => hf v
  have listed : ∀ ys : List Value, ∃ o, (pure (.list ys) : Act Value).Settles T o :=
    fun ys => ⟨_, Act.settles_pure _⟩
  rw [fmap_items, Act.yields_bind_iff settles listed]
  refine exists_congr fun items' => ?_
  rw [Act.yields_mapM_iff fun v _ => hf v]
  refine and_congr_right fun _ => ⟨fun given => given.unique (Act.yields_pure _), ?_⟩
  rintro rfl
  exact Act.yields_pure _

theorem yields_fmap_fmap_items_iff (hf : IsFunction T f) (hg : IsFunction T g)
    (composite : IsComposite h f g) {d : Value} :
    (fmap limit (.list items) f >>= fun d' => fmap limit d' g).Yields T d ↔
      (fmap limit (.list items) h).Yields T d := by
  obtain ⟨o, settles⟩ := Act.exists_settles_mapM items fun v _ => hf v
  have settled : ∀ ys : List Value, ∃ o, (fmap limit (.list ys) g).Settles T o := fun ys => by
    obtain ⟨o, settles⟩ := Act.exists_settles_mapM ys fun v _ => hg v
    rw [fmap_items]
    exact settles.exists_bind fun zs _ => ⟨_, Act.settles_pure (Value.list zs)⟩
  -- For a single item, one function is called after the other on either side.
  have each : ∀ v u, (limit h [v]).Yields T u ↔
      Relation.Comp (fun v m => (limit f [v]).Yields T m) (fun m u => (limit g [m]).Yields T u)
        v u := fun v u => by
    obtain ⟨o, first⟩ := hf v
    rw [composite v, Act.yields_bind_iff first hg]
    rfl
  rw [yields_fmap_items_iff (composite.isFunction hf hg), fmap_items]
  simp only [bind_assoc, pure_bind, each]
  rw [Act.yields_bind_iff settles settled]
  simp only [Act.yields_mapM_iff fun v _ => hf v, yields_fmap_items_iff hg]
  constructor
  · rintro ⟨ys, firsts, zs, seconds, rfl⟩
    exact ⟨zs, firsts.comp seconds, rfl⟩
  · rintro ⟨zs, both, rfl⟩
    obtain ⟨ys, firsts, seconds⟩ := both.exists_middle
    exact ⟨ys, firsts, zs, seconds, rfl⟩

/-- A list is erased to as many units. -/
theorem erase_items (items : List Value) :
    erase limit (.list items) = pure (.list (items.map fun _ => .unit)) := by
  have units : (fun v => limit (.frame .unit) [v]) = fun _ => pure .unit :=
    funext fun v => Machine.limit_frame .unit v
  unfold erase
  dsimp only
  rw [fmap_items, units, List.mapM_pure, pure_bind]

theorem lawfulList (T : ClassTable) (items : List Value) : LawfulList T items where
  identity e identical := by
    have returned : (fun v => limit e [v]) = pure := funext identical
    rw [fmap_items, returned, List.mapM_pure, List.map_id', pure_bind]
  composition _ _ _ hf hg composite _ := yields_fmap_fmap_items_iff hf hg composite
  total f each := by
    obtain ⟨items', given⟩ := List.Forall₂.exists_of_forall each
    rw [fmap_items]
    exact ⟨_, (Act.Yields.mapM given fun _ _ yields => yields).bind (Act.yields_pure _)⟩
  erasure := by
    refine ⟨_, erase_items items, ?_, fun f w => ?_⟩
    · rw [erase_items, List.map_map]
      rfl
    · rw [fmap_items]
      simp only [bind_assoc, pure_bind]
      refine Act.runIn_bind_congr fun ys w' mapped => ?_
      have units : (ys.map fun _ => Value.unit) = items.map fun _ => .unit := by
        rw [List.map_const', List.map_const', Act.length_of_mapM mapped]
      rw [erase_items, units]

end

/-! ### All laws -/

section

variable {T : ClassTable} {c : ClassRef} {s : Slot} {own : List (String × Value)} {f g h : Value}

/-- The slot that derivation finds is a field that is given. -/
theorem ClassTable.Reachable.mem_givenNames (reachable : T.Reachable) {id : Nat}
    {fields : List Field} (listed : T.fields? id = some fields) {declared : Option String}
    (derives : T.deriveSlot id declared = .ok s) : s.name ∈ givenNames fields := by
  obtain ⟨v, typed, -, read, found⟩ := ClassTable.exists_of_deriveSlot derives
  have distinct := reachable.nodup_typedFields read
  obtain ⟨before, f, after, rfl, name, -, -⟩ := (Slot.ofFields_eq_ok_iff distinct).mp found
  have among : s.name ∈ (before ++ f :: after).map Prod.fst := by simp [name]
  rwa [ClassTable.map_fst_typedFields listed read] at among

/-- **An instance that a constructor makes is in order**, in every world with these classes. -/
theorem exists_inOrder (reachable : T.Reachable) (constructs : T.Constructs c s)
    (makes : T.Makes c own) : ∃ fields, ∀ w, w.classes = T → InOrder T c s fields own w := by
  obtain ⟨fields, made⟩ := constructs.makes
  obtain ⟨args, w₀, w₁, classes, run⟩ := makes
  obtain ⟨declared, derives⟩ := constructs.derived
  obtain ⟨copyable, complete⟩ :=
    Copyable.of_make made (reachable.nodup_fields made.listed) classes run
  -- Fields are listed for known classes only, and these are ancestors of themselves.
  have head : c.id ∈ T.lineage c.id := by
    obtain ⟨entries, found, -⟩ := Option.map_eq_some_iff.mp made.listed
    obtain ⟨k, mem, -⟩ := List.exists_of_findSome?_eq_some found
    have known : (T.info? c.id).isSome := by
      by_contra unknown
      rw [Option.not_isSome_iff_eq_none] at unknown
      simp [ClassTable.lineage, unknown] at mem
    obtain ⟨rest, lineage⟩ := reachable.exists_lineage known
    rw [lineage]
    exact List.mem_cons_self
  refine ⟨fields, ?_⟩
  rintro w rfl
  exact ⟨constructs.effect, ⟨⟨head, constructs.slot, constructs.derived, copyable⟩, rfl, id⟩,
    complete, reachable.mem_givenNames made.listed derives⟩

section

variable {fields : List Field} (inOrder : ∀ w, w.classes = T → InOrder T c s fields own w)
include inOrder

/-- What comes of asking the class for its slot only is given in every world with these classes. -/
theorem yields_of_asking {a : Act Value} {d : Value}
    (asking : ∀ w, w.classes = T → a.runIn w = (Act.slotOf c >>= fun _ => pure d).runIn w) :
    a.Yields T d := fun w classes =>
  ⟨_, (asking w classes).trans ((inOrder w classes).runIn_slotOf_pure d), classes⟩

/-- To map the identity gives the descriptor back. -/
theorem fmap_identity {e : Value} (identical : IsIdentity e) :
    ∃ d, (fmap limit (.descriptor c own) e).Yields T d ∧
      SameDescriptor c s d (.descriptor c own) := by
  have start := inOrder (.initial T) rfl
  obtain ⟨x, holds⟩ := start.exists_content
  have restored : withMember own s.name x = own := Instance.withMember_self start.distinct holds
  cases kind : s.kind with
  | direct =>
    have harmless : T.Unharmed c e := .inr fun v w r w' run => by
      rw [identical v] at run
      obtain ⟨-, rfl⟩ := Prod.mk.inj (Option.some.inj run)
      exact ⟨[], .nil _, fun e mem => by cases mem⟩
    refine ⟨.descriptor c own, yields_of_asking inOrder fun w classes => ?_, .refl _⟩
    rw [(inOrder w classes).runIn_fmap_direct holds kind harmless, identical x]
    simp only [pure_bind, restored]
  | function n =>
    have agree : ∀ args, limit (.after e x) args = limit x args := by
      intro args
      have returned : (fun v => limit e [v]) = pure := funext identical
      simp only [Value.after, Machine.limit_after, returned, bind_pure]
    have same : SameDescriptor c s (.descriptor c (withMember own s.name (.after e x)))
        (.descriptor c (withMember own s.name x)) := .function kind agree
    rw [restored] at same
    exact ⟨_, yields_of_asking inOrder fun w classes =>
      (inOrder w classes).runIn_fmap_function holds kind e, same⟩

theorem exists_yields_fmap_function (kind : s.kind ≠ .direct) (f : Value) :
    ∃ d, (fmap limit (.descriptor c own) f).Yields T d := by
  obtain ⟨x, holds⟩ := (inOrder (.initial T) rfl).exists_content
  cases function : s.kind with
  | direct => exact absurd function kind
  | function n =>
    exact ⟨_, yields_of_asking inOrder fun w classes =>
      (inOrder w classes).runIn_fmap_function holds function f⟩

/-- **The slot is lawful.** -/
theorem lawfulSlot : LawfulSlot T c s own where
  identity _ identical := fmap_identity inOrder identical
  composition _ _ _ hf hg composite w classes :=
    (inOrder w classes).composition hf hg composite
  follow_fmap _ hf w classes := (inOrder w classes).follow_fmap hf
  follow_aborts f w _ classes := (inOrder w classes).follow_aborts f
  fmap_function := exists_yields_fmap_function inOrder
  follow_replace direct k w classes := (inOrder w classes).follow_replace direct k
  replace_follow direct w classes := (inOrder w classes).replace_follow direct
  replace_replace _ k k' w classes := (inOrder w classes).replace_replace k k'
  erasure := by
    refine ⟨_, yields_of_asking inOrder fun w classes => (inOrder w classes).runIn_erase,
      fun w classes => ?_, InOrder.sameElsewhere c own s.name .unit,
      fun f hf w classes => (inOrder w classes).erase_fmap hf⟩
    exact ⟨_, (inOrder w classes).runIn_erase_changed .unit, classes⟩
  elsewhere_fmap f hf w d w' classes run := by
    obtain ⟨y, rfl⟩ := (inOrder w classes).exists_of_fmap hf run
    exact InOrder.sameElsewhere c own s.name y
  elsewhere_replace k := by
    refine ⟨_, fun w classes => ⟨w, (inOrder w classes).runIn_replace k, classes⟩, ?_⟩
    exact InOrder.sameElsewhere c own s.name k

end

/-- **Slots are lenses, and mapping over them is a functor.** This is said of every instance that a
constructor makes, with a slot of either kind, whichever fields it has besides, and of every list.

A constructor makes its instances from the fields that are given (`Constructs.makes`), as all classes
do that have been made a record once. A function that is called to be mapped does not register the
class or an ancestor, unless the class lasts (`Harmless`). Over lists, what comes of the functions is
a matter of their arguments (`IsFunction`). None of this can be left out, as is shown below. -/
theorem slots_lawful (reachable : T.Reachable) :
    (∀ c s own, T.Constructs c s → T.Makes c own → LawfulSlot T c s own) ∧
      ∀ items, LawfulList T items := by
  refine ⟨fun c s own constructs makes => ?_, lawfulList T⟩
  obtain ⟨fields, inOrder⟩ := exists_inOrder reachable constructs makes
  exact lawfulSlot inOrder

end

/-! ### The slots of a dialogue -/

open Dialogue

theorem constructs_say : table.Constructs sayClass ⟨"next", .direct⟩ :=
  ⟨rfl, rfl, ⟨none, by cbv⟩, _, ⟨rfl, rfl⟩⟩

theorem constructs_ask : table.Constructs askClass ⟨"answer", .function 1⟩ :=
  ⟨rfl, rfl, ⟨none, by cbv⟩, _, ⟨rfl, rfl⟩⟩

/-- The class is frozen, so it lasts. -/
theorem lasting_say : table.Lasting 1 := ⟨⟨⟨_, rfl⟩, rfl⟩, _, rfl, rfl⟩

/-- The laws hold for an effect that goes on at once, for one that goes on with the answer, and for a
list of both. They speak of all functions there, since none may do harm by being mapped; among these
are an identity and the composites of any two. -/
theorem slots_lawful_dialogue :
    LawfulSlot table sayClass ⟨"next", .direct⟩ [("message", .unit), ("next", .int 1)] ∧
      LawfulSlot table askClass ⟨"answer", .function 1⟩ [("answer", echo)] ∧
      LawfulList table [saying .unit (.int 1), asking echo] ∧
      (∀ f, table.Harmless sayClass ⟨"next", .direct⟩ f) ∧
      (IsIdentity identity ∧ ∀ f g, IsComposite (.after g f) f g) := by
  have laws := slots_lawful ClassTable.reachable_dialogue
  have said : table.Makes sayClass [("message", .unit), ("next", .int 1)] :=
    ⟨[("message", .unit), ("next", .int 1)], .initial table, .initial table, rfl, rfl⟩
  have asked : table.Makes askClass [("answer", echo)] :=
    ⟨[("answer", echo)], .initial table, .initial table, rfl, rfl⟩
  exact ⟨laws.1 _ _ _ constructs_say said, laws.1 _ _ _ constructs_ask asked, laws.2 _,
    fun _ _ => .inl lasting_say, isIdentity_identity, isComposite_after⟩

/-! ### Where the laws fail -/

namespace Torn

theorem reachable_declare (decls : List ClassDecl) : (declare decls).Reachable :=
  (ClassTable.Reachable.initial _).declareAll _

/-- `A` is no record yet. -/
def lone : ClassTable := declare [decl "A" ["Effect"] [("next", .name "K")] []]

/-- Gives its argument back, once `A` has been registered. -/
def registering : Value :=
  .function (.closure ["x"] (.bind "_" (.call (.var "register") [.cls "A"]) (.var "x"))
    [("register", .function .register)])

/-- Tells whether `A` has instances that hold the argument. -/
def trying : Value :=
  .function (.closure ["x"] (.attempt (.bind "_" (.make "A" [("next", .var "x")])
    (.scalar (.bool true))) (.scalar (.bool false))) [])

/-- A few calls within calls may be enough to see what mapping comes to. -/
theorem shown_fmap {d f : Value} {w : World} {n : Nat} {y : Except Signal Value × List Value}
    (h : ((fmap (Machine.call n) d f).runIn w).map shown = some y) :
    ((fmap limit d f).runIn w).map shown = some y := by
  obtain ⟨x, run, rfl⟩ := Option.map_eq_some_iff.mp h
  rw [(respects_fmap (R := Act.convergence) Machine.tends_limit _ _).runIn_limit run]
  rfl

theorem shown_fmap_fmap {d f g : Value} {w : World} {n : Nat}
    {y : Except Signal Value × List Value}
    (h : ((fmap (Machine.call n) d f >>= fun d => fmap (Machine.call n) d g).runIn w).map shown =
      some y) : ((fmap limit d f >>= fun d => fmap limit d g).runIn w).map shown = some y := by
  have tends := (respects_fmap (R := Act.convergence) Machine.tends_limit d f).bind fun d =>
    respects_fmap (R := Act.convergence) Machine.tends_limit d g
  obtain ⟨x, run, rfl⟩ := Option.map_eq_some_iff.mp h
  rw [tends.runIn_limit run]
  rfl

/-- `P` is a constructor as long as `A` is no record. -/
theorem constructs_mixed : mixed.Constructs (mixed.ref 3) ⟨"next", .direct⟩ where
  effect := by cbv
  slot := by cbv
  derived := ⟨none, by cbv⟩
  makes := ⟨[⟨"y", none, true, false⟩, ⟨"next", none, true, false⟩], ⟨by cbv, by cbv⟩⟩

theorem makes_mixed : mixed.Makes (mixed.ref 3) [("y", .int 5), ("next", .int 1)] :=
  ⟨[("y", .int 5), ("next", .int 1)], .initial mixed, .initial mixed, rfl, by cbv⟩

theorem makes_remade : remade.Makes (remade.ref 1) [("next", .int 1)] :=
  ⟨[("next", .int 1)], .initial remade, .initial remade, rfl, by cbv⟩

end Torn

open Torn in
/-- **What the laws ask of the class and of the functions cannot be left out.**

* A class that is made a record twice may not take what its fields say, and then its instances have no
  copies.
* A function that registers an ancestor may take a field away from the copy that is being made.
* Over a list, where one function is called for all items before the other is, functions that act on
  one another do so in another order. -/
theorem slots_lawful_torn :
    (remade.Reachable ∧ remade.slotOf 1 = .ok ⟨"next", .direct⟩ ∧
      remade.deriveSlot 1 (some "next") = .ok ⟨"next", .direct⟩ ∧
      remade.Makes (remade.ref 1) [("next", .int 1)] ∧
      ((fmap limit (.descriptor (remade.ref 1) [("next", .int 1)]) identity).runIn
        (.initial remade)).map shown = some (.error (.fault .misuse), [])) ∧
    (mixed.Reachable ∧ mixed.Constructs (mixed.ref 3) ⟨"next", .direct⟩ ∧
      mixed.Makes (mixed.ref 3) [("y", .int 5), ("next", .int 1)] ∧
      ((fmap limit (.descriptor (mixed.ref 3) [("y", .int 5), ("next", .int 1)]) registering).runIn
        (.initial mixed)).map shown = some (.ok (.descriptor (mixed.ref 3) [("next", .int 1)]), [])) ∧
    (((fmap limit (.list [.int 1, .int 2]) trying >>= fun d => fmap limit d registering).runIn
        (.initial lone)).map shown = some (.ok (.list [.bool false, .bool false]), []) ∧
      ((fmap limit (.list [.int 1, .int 2]) (.after registering trying)).runIn
        (.initial lone)).map shown = some (.ok (.list [.bool false, .bool true]), [])) := by
  have twice : ((fmap limit (.descriptor (remade.ref 1) [("next", .int 1)]) identity).runIn
      (.initial remade)).map shown = some (.error (.fault .misuse), []) := shown_fmap (n := 3) (by cbv)
  have torn : ((fmap limit (.descriptor (mixed.ref 3) [("y", .int 5), ("next", .int 1)])
      registering).runIn (.initial mixed)).map shown =
        some (.ok (.descriptor (mixed.ref 3) [("next", .int 1)]), []) := shown_fmap (n := 3) (by cbv)
  have apart : ((fmap limit (.list [.int 1, .int 2]) trying >>= fun d =>
      fmap limit d registering).runIn (.initial lone)).map shown =
        some (.ok (.list [.bool false, .bool false]), []) := shown_fmap_fmap (n := 3) (by cbv)
  have together : ((fmap limit (.list [.int 1, .int 2]) (.after registering trying)).runIn
      (.initial lone)).map shown = some (.ok (.list [.bool false, .bool true]), []) :=
    shown_fmap (n := 4) (by cbv)
  exact ⟨⟨reachable_declare _, by cbv, by cbv, makes_remade, twice⟩,
    ⟨reachable_declare _, constructs_mixed, makes_mixed, torn⟩, apart, together⟩

end EffectTrees
