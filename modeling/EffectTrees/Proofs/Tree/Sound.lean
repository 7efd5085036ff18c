import EffectTrees.Proofs.Descriptor.Slotted

/-!
# Sound trees, and trees that are the same

A tree is *sound* at given classes if its slots hold trees, at every depth and also behind function
slots, and if its callbacks are functions of their arguments (`Sound`): each payload settles, and so
does each function slot for all arguments, where it gives a sound tree or the unknown argument
unless it aborts or fails. With `total`, the callbacks return or abort, function slots at least for
the number of arguments that they take, and all descriptors can be filled.

Two trees are the *same* (`Same`) if they are built alike: the leaves are equal, descriptors are of
the same class with equal members besides the slot, the items of lists and the contents of direct
slots are the same, and function slots give the same trees or both abort (`Alike`). With `total`,
they may both fail only for a number of arguments that they do not take.

Trees go on behind function slots without an end, so both notions are greatest fixed points: a tree
is sound if some property of values that is its own justification holds of it, and two trees are the
same if some such relation holds between them. What is at hand in a tree is finite, and what
soundness says of that part is inductive (`Ready`, `Sound.ready`).
-/

namespace EffectTrees

open Machine (limit)

variable {T : ClassTable} {total : Prop}

/-! ### Sound trees -/

/-- The value is a tree whose slots hold values with the property, and whose callbacks settle. -/
inductive Sound.Step (T : ClassTable) (total : Prop) (P : Value → Prop) : Value → Prop where
  | failed : Step T total P (.tree .failed)
  | done {p : Payload} {o : Ending Value} (settles : (p.force limit).Settles T o)
      (ends : total → o.Answers) : Step T total P (.tree (.done p))
  | suspended {d : Value} (atHand : ∀ x, AtHand T d x → P x)
      (behind : ∀ n g, Behind T d n g → ∀ args, ∃ o, (limit g args).Settles T o ∧
        (total → args.length = n → o.Answers) ∧ ∀ v, o = some (.ok v) → v = .poison ∨ P v)
      (fillable : total → Fillable T d) : Step T total P (.tree (.suspended d))

/-- **Sound trees.** -/
def Sound (T : ClassTable) (total : Prop) (v : Value) : Prop :=
  ∃ P, (∀ v, P v → Sound.Step T total P v) ∧ P v

theorem Sound.Step.mono {P Q : Value → Prop} (hPQ : ∀ v, P v → Q v) {v : Value}
    (h : Sound.Step T total P v) : Sound.Step T total Q v := by
  cases h with
  | failed => exact .failed
  | done settles ends => exact .done settles ends
  | suspended atHand behind fillable =>
    refine .suspended (fun x hx => hPQ x (atHand x hx)) (fun n g hg args => ?_) fillable
    obtain ⟨o, settles, ends, values⟩ := behind n g hg args
    exact ⟨o, settles, ends, fun v hv => (values v hv).imp_right (hPQ v)⟩

theorem Sound.step {v : Value} (h : Sound T total v) : Sound.Step T total (Sound T total) v := by
  obtain ⟨P, closed, hv⟩ := h
  exact (closed v hv).mono fun u hu => ⟨P, closed, hu⟩

theorem Sound.of_step {v : Value} (h : Sound.Step T total (Sound T total) v) : Sound T total v :=
  ⟨Sound.Step T total (Sound T total), fun _ hu => hu.mono fun _ hx => hx.step, h⟩

/-- What a sound tree is made of at once is sound. -/
theorem Sound.atHand {d x : Value} (h : Sound T total (.tree (.suspended d))) (hx : AtHand T d x) :
    Sound T total x := by
  cases h.step with
  | suspended atHand _ _ => exact atHand x hx

theorem Sound.exists_tree {v : Value} (h : Sound T total v) : ∃ t, v = .tree t := by
  cases h.step with
  | failed => exact ⟨_, rfl⟩
  | done _ _ => exact ⟨_, rfl⟩
  | suspended _ _ _ => exact ⟨_, rfl⟩

theorem Sound.known {v : Value} (h : Sound T total v) : v.isPoison = false := by
  obtain ⟨t, rfl⟩ := h.exists_tree
  rfl

/-- A finished tree whose payload settles is sound. -/
theorem sound_done {p : Payload} {o : Ending Value} (settles : (p.force limit).Settles T o)
    (ends : total → o.Answers) : Sound T total (.tree (.done p)) :=
  .of_step (.done settles ends)

theorem sound_pure (v : Value) : Sound T total (.tree (Tree.pure v)) :=
  sound_done (Act.settles_pure v) fun _ => .inl ⟨v, rfl⟩

/-! ### What is at hand -/

/-- What is at hand in a descriptor is part of it, unless the descriptor has it from its class. -/
theorem AtHand.sizeOf_lt {d x : Value} (h : AtHand T d x) :
    sizeOf x < sizeOf d ∨ ∃ s, x = .scalar s := by
  cases h with
  | item mem =>
    refine .inl ?_
    have := List.sizeOf_lt_of_mem mem
    simp only [Value.list.sizeOf_spec]
    omega
  | @content c own s _ effect slot direct holds =>
    unfold SlotHolds ClassTable.memberOf? at holds
    -- An instance has the content of its slot itself, or else from its class.
    cases hf : (own.find? fun f => f.1 = s.name) with
    | none =>
      simp only [hf, Option.map_none, Option.none_or, Option.map_eq_some_iff] at holds
      obtain ⟨k, -, rfl⟩ := holds
      exact .inr ⟨k, rfl⟩
    | some f =>
      obtain rfl : f.2 = x := by simpa [hf] using holds
      refine .inl ?_
      have := List.sizeOf_lt_of_mem (List.mem_of_find?_eq_some hf)
      obtain ⟨k, v⟩ := f
      simp only [Prod.mk.sizeOf_spec] at this
      simp only [Value.descriptor.sizeOf_spec]
      omega

/-- The part of a tree that is at hand consists of trees whose payloads settle. -/
inductive Ready (T : ClassTable) (total : Prop) : Value → Prop where
  | failed : Ready T total (.tree .failed)
  | done {p : Payload} {o : Ending Value} (settles : (p.force limit).Settles T o)
      (ends : total → o.Answers) : Ready T total (.tree (.done p))
  | suspended {d : Value} (atHand : ∀ x, AtHand T d x → Ready T total x)
      (fillable : total → Fillable T d) : Ready T total (.tree (.suspended d))

theorem Ready.exists_tree {v : Value} (h : Ready T total v) : ∃ t, v = .tree t := by
  cases h with
  | failed => exact ⟨_, rfl⟩
  | done _ _ => exact ⟨_, rfl⟩
  | suspended _ _ => exact ⟨_, rfl⟩

theorem Ready.known {v : Value} (h : Ready T total v) : v.isPoison = false := by
  obtain ⟨t, rfl⟩ := h.exists_tree
  rfl

/-- A sound tree is ready. The induction is on the size of what is at hand. -/
theorem Sound.ready {v : Value} (h : Sound T total v) : Ready T total v := by
  induction hn : sizeOf v using Nat.strong_induction_on generalizing v with
  | _ n ih =>
    cases h.step with
    | failed => exact .failed
    | done settles ends => exact .done settles ends
    | @suspended d atHand behind fillable =>
      refine .suspended (fun x hx => ?_) fillable
      have sound := atHand x hx
      rcases hx.sizeOf_lt with smaller | ⟨s, rfl⟩
      · refine ih (sizeOf x) ?_ sound rfl
        rw [← hn]
        simp only [Value.tree.sizeOf_spec, Tree.suspended.sizeOf_spec]
        omega
      -- What a class gives its instances is a scalar, and that is no tree.
      · obtain ⟨t, ht⟩ := sound.exists_tree
        simp at ht

/-! ### The same trees -/

/-- Two computations give related values, or both abort or give the unknown argument. If they may
fail, both may be lost instead. -/
inductive Alike (T : ClassTable) (mayFail : Prop) (R : Value → Value → Prop) (a b : Act Value) :
    Prop where
  | values {v v' : Value} (left : a.Yields T v) (right : b.Yields T v')
      (known : v.isPoison = false) (known' : v'.isPoison = false) (related : R v v')
  | nothing (left : (probe a).Yields T none) (right : (probe b).Yields T none)
  | lost (may : mayFail) (left : a.Lost T) (right : b.Lost T)

/-- Two ways to go on are alike after what gives sound trees, if they are alike on each of those and
nothing comes of the unknown argument. -/
theorem Alike.of_sound {mayFail : Prop} {R : Value → Value → Prop} {a : Act Value}
    {o : Ending Value} {f g : Value → Act Value} (settles : a.Settles T o)
    (values : ∀ v, o = some (.ok v) → v = .poison ∨ Sound T total v)
    (may : ¬ (total ∧ o.Answers) → mayFail)
    (each : ∀ t, Sound T total t → Alike T (¬ total) R (f t) (g t))
    (left : (probe (f .poison)).Yields T none) (right : (probe (g .poison)).Yields T none) :
    Alike T mayFail R (a >>= f) (a >>= g) := by
  rcases settles.cases with ⟨t, rfl, known, yields⟩ | nothing | ⟨noAnswer, lost⟩
  · have ht : Sound T total t := (values t rfl).resolve_left fun h => by
      simp [h, Value.isPoison] at known
    cases each t ht with
    | values left right known known' related =>
      exact .values (yields.bind left) (yields.bind right) known known' related
    | nothing left right => exact .nothing (yields.probe_bind left) (yields.probe_bind right)
    | lost notTotal left right =>
      exact .lost (may fun h => notTotal h.1) (yields.bind_lost left) (yields.bind_lost right)
  · exact .nothing (Act.yields_probe_bind_none nothing left)
      (Act.yields_probe_bind_none nothing right)
  · exact .lost (may fun h => noAnswer h.2) (lost.bind _) (lost.bind _)

/-- Two trees have equal leaves, and the same descriptors but for related contents. -/
inductive Same.Step (T : ClassTable) (total : Prop) (R : Value → Value → Prop) :
    Value → Value → Prop where
  | refl (v : Value) : Step T total R v v
  | list {items items' : List Value} (each : List.Forall₂ R items items') :
      Step T total R (.tree (.suspended (.list items))) (.tree (.suspended (.list items')))
  | direct {c : ClassRef} {own own' : List (String × Value)} {s : Slot} {x x' : Value}
      (effect : c.isEffect) (slot : T.slotOf c.id = .ok s) (kind : s.kind = .direct)
      (others : ∀ n, n ≠ s.name → Value.fieldAt? own n = Value.fieldAt? own' n)
      (holds : SlotHolds T c own s x) (holds' : SlotHolds T c own' s x') (content : R x x') :
      Step T total R (.tree (.suspended (.descriptor c own)))
        (.tree (.suspended (.descriptor c own')))
  | function {c : ClassRef} {own own' : List (String × Value)} {s : Slot} {n : Nat} {g g' : Value}
      (effect : c.isEffect) (slot : T.slotOf c.id = .ok s) (kind : s.kind = .function n)
      (others : ∀ n, n ≠ s.name → Value.fieldAt? own n = Value.fieldAt? own' n)
      (holds : SlotHolds T c own s g) (holds' : SlotHolds T c own' s g')
      (contents : ∀ args,
        Alike T (total → args.length ≠ n) R (limit g args) (limit g' args)) :
      Step T total R (.tree (.suspended (.descriptor c own)))
        (.tree (.suspended (.descriptor c own')))

/-- **The same trees.** -/
def Same (T : ClassTable) (total : Prop) (t u : Value) : Prop :=
  ∃ R, (∀ t u, R t u → Same.Step T total R t u) ∧ R t u

theorem Same.refl (t : Value) : Same T total t t := ⟨Eq, fun _ _ h => h ▸ .refl _, rfl⟩

/-- Two refills of one descriptor are the same but for what they put into the slots. -/
theorem Same.Step.of_refills {C D R : Value → Value → Prop} {F G : Value → Value}
    {d d₁ d₂ : Value} (h : Refills T C F d d₁) (h' : Refills T D G d d₂)
    (content : ∀ x y z, AtHand T d x → C x y → D x z → R y z)
    (behind : ∀ n g, Behind T d n g → ∀ args,
      Alike T (total → args.length ≠ n) R (limit (F g) args) (limit (G g) args)) :
    Same.Step T total R (.tree (.suspended d₁)) (.tree (.suspended d₂)) := by
  -- A descriptor has one slot of one kind, so both refills are of the same shape.
  cases h with
  | list each =>
    cases h' with
    | list each' => exact .list (each.fork each' fun x y z hx => content x y z (.item hx))
  | @direct c own s fill x y slotted kind holds hxy =>
    cases h' with
    | @direct _ _ _ _ _ z slotted' kind' holds' hxz =>
      obtain ⟨rfl, rfl⟩ := slotted.unique slotted'
      obtain rfl := holds.unique holds'
      exact .direct slotted.effect slotted.slot kind (fun n hn => slotted.fieldAt?_fill y z hn)
        (slotted.holds_fill y) (slotted.holds_fill z)
        (content x y z (.content slotted.effect slotted.slot kind holds) hxy hxz)
    | function slotted' kind' holds' =>
      exact (slotOf_exclusive slotted.slot kind slotted'.slot kind').elim
  | @function c own s fill g n slotted kind holds =>
    cases h' with
    | direct slotted' kind' holds' hxz =>
      exact (slotOf_exclusive slotted'.slot kind' slotted.slot kind).elim
    | function slotted' kind' holds' =>
      obtain ⟨rfl, rfl⟩ := slotted.unique slotted'
      obtain rfl := holds.unique holds'
      exact .function slotted.effect slotted.slot kind (fun n hn => slotted.fieldAt?_fill _ _ hn)
        (slotted.holds_fill _) (slotted.holds_fill _)
        (behind n g (.slot slotted.effect slotted.slot kind holds))

/-! ### A sound dialogue -/

namespace Dialogue

theorem sound_say {m x : Value} (hx : Sound table total x) : Sound table total (say m x) := by
  refine .of_step (.suspended (fun y hy => ?_) (fun n g hg => absurd hg not_behind_saying) fun _ =>
    .effect (slotted_say m x) (holds_say m x))
  rw [eq_of_atHand_saying hy]
  exact hx

theorem sound_ask_echo : Sound table total (ask echo) := by
  refine .of_step (.suspended (fun y hy => absurd hy not_atHand_asking) (fun n g hg args => ?_)
    fun _ => .effect (slotted_ask echo) (holds_ask echo))
  obtain ⟨rfl, rfl⟩ := eq_of_behind_asking hg
  by_cases length : args.length = 1
  · obtain ⟨v, rfl⟩ := List.length_eq_one_iff.mp length
    refine ⟨_, (yields_echo v).settles, fun _ _ => .inl ⟨_, rfl⟩, fun u hu => .inr ?_⟩
    obtain rfl : say v (.tree (Tree.pure (.int 1))) = u := by simpa using hu
    exact sound_say (sound_pure _)
  · exact ⟨_, settles_echo length, fun _ h => absurd h length, fun u hu => by simp at hu⟩

end Dialogue

end EffectTrees
