import EffectTrees.Proofs.Tree.Pass

/-!
# The laws of binding

To bind is a monad, up to similarity of trees. The laws cannot hold literally: to bind `pure` computes
the payloads of finished trees, and to bind makes copies of descriptors. Similar trees are alike in all
that an interpreter can see of them.

* To bind `pure` leaves a tree as it is.
* To bind to a tree that is pure is to call the function.
* To bind two functions, one after the other, is to bind the function that binds the second one to
  what the first one gives.
* To map is to bind the function that finishes with the result.

The functions that are bound give sound trees or the unknown argument, or abort (`Arrow`). Functions
that occur on one side of a law only, such as the composite of two functions, are given by what they
come to (`Composes`, `Finishes`), so the laws hold for any way to write them.
-/

namespace EffectTrees

open Machine (limit)

variable {T : ClassTable} {e f g h k v u : Value} {p : Payload} {o : Ending Value}

/-! ### Functions that are bound -/

/-- The function answers for each argument: it gives a sound tree or the unknown argument, or aborts.
-/
def Arrow (T : ClassTable) (f : Value) : Prop :=
  ∀ v, ∃ o, (limit f [v]).Settles T o ∧ o.Answers ∧
    ∀ r, o = some (.ok r) → r = .poison ∨ Sound T True r

/-- The function finishes with its argument. -/
def IsPure (T : ClassTable) (e : Value) : Prop :=
  ∀ v, Act.EndsAs T (limit e [v]) (pure (.tree (Tree.pure v)))

/-- The function `k` binds `g` to what `f` gives. -/
def Composes (T : ClassTable) (f g k : Value) : Prop :=
  ∀ v, Act.EndsAs T (limit k [v]) (limit f [v] >>= fun u => u.invoke limit .bind [g])

/-- The function `k` finishes with what `h` gives. -/
def Finishes (T : ClassTable) (h k : Value) : Prop :=
  ∀ v, Act.EndsAs T (limit k [v]) (limit h [v] >>= fun u => pure (.tree (Tree.pure u)))

/-- Something comes of the function, a sound tree, or nothing does. -/
theorem Arrow.cases (hf : Arrow T f) (v : Value) :
    (∃ u, Sound T True u ∧ (limit f [v]).Yields T u) ∨ (probe (limit f [v])).Yields T none := by
  obtain ⟨o, settles, answers, values⟩ := hf v
  rcases settles.cases with ⟨u, rfl, known, yields⟩ | nothing | ⟨unanswered, -⟩
  · rcases values u rfl with rfl | sound
    · simp [Value.isPoison] at known
    · exact .inl ⟨u, sound, yields⟩
  · exact .inr nothing
  · exact absurd answers unanswered

/-- A payload that answers has a value, or nothing comes of it. -/
theorem Payload.cases (settles : (p.force limit).Settles T o) (answers : o.Answers) :
    (∃ v, v.isPoison = false ∧ (p.resolve limit).Yields T (some v)) ∨
      (p.resolve limit).Yields T none := by
  rcases settles.cases with ⟨v, -, known, yields⟩ | nothing | ⟨unanswered, -⟩
  · exact .inl ⟨v, known, yields.probe known⟩
  · exact .inr nothing
  · exact absurd answers unanswered

/-! ### Passes that bind -/

/-- To bind a function is a pass. -/
noncomputable def binding (T : ClassTable) (f : Value) : Pass T :=
  .ofFrame T (.bind f) (Frame.traverses_bind f) fun _ => rfl

/-- To map a function is a pass. -/
noncomputable def mapping (T : ClassTable) (h : Value) : Pass T :=
  .ofFrame T (.map h) (Frame.traverses_map h) fun _ => rfl

theorem binding_none (nothing : (p.resolve limit).Yields T none) :
    (binding T f).Gives (.tree (.done p)) (.tree .failed) :=
  nothing.bind (Act.yields_pure _)

theorem binding_some (value : (p.resolve limit).Yields T (some v))
    (leaf : (guarded (limit f [v])).Yields T u) : (binding T f).Gives (.tree (.done p)) u :=
  value.bind leaf

theorem mapping_none (nothing : (p.resolve limit).Yields T none) :
    (mapping T h).Gives (.tree (.done p)) (.tree .failed) :=
  nothing.bind (Act.yields_pure _)

theorem similar_failed : Similar T (.tree .failed) (.tree .failed) :=
  .of_step (.hopeless .failed .failed)

theorem resolve_pure (known : v.isPoison = false) :
    (Payload.resolve limit (.resolved v)).Yields T (some v) :=
  (Act.yields_pure v).probe known

/-! ### Agreement on finished trees -/

/-- To bind `pure` replaces a payload by its value. -/
theorem agree_pure (he : IsPure T e) : (binding T e).Agree (.stay T) := by
  intro p o settles answers
  rcases Payload.cases settles answers with ⟨v, known, value⟩ | nothing
  · have leaf : (guarded (limit e [v])).Yields T (.tree (Tree.pure v)) :=
      guarded_known ((he v).yields (Act.yields_pure _)) rfl
    exact ⟨_, _, binding_some value leaf, rfl, .of_step (.done (resolve_pure known) value)⟩
  · exact ⟨_, _, binding_none nothing, rfl, .of_step (.hopeless .failed (.done nothing))⟩

theorem agree_bind (hg : Arrow T g) : (binding T g).Agree (binding T g) := by
  intro p o settles answers
  rcases Payload.cases settles answers with ⟨v, -, value⟩ | nothing
  · rcases hg.cases v with ⟨u, sound, yields⟩ | nothing
    · have leaf := guarded_known yields sound.known
      exact ⟨_, _, binding_some value leaf, binding_some value leaf, sound.similar⟩
    · have leaf := guarded_none nothing
      exact ⟨_, _, binding_some value leaf, binding_some value leaf, similar_failed⟩
  · exact ⟨_, _, binding_none nothing, binding_none nothing, similar_failed⟩

/-- Binding two functions to a finished tree binds the second one to what the first one gives. -/
theorem agree_composite (hf : Arrow T f) (hg : Arrow T g) (hk : Composes T f g k) :
    ((binding T f).andThen (binding T g)).Agree (binding T k) := by
  intro p o settles answers
  rcases Payload.cases settles answers with ⟨v, -, value⟩ | nothing
  · rcases hf.cases v with ⟨u, sound, yields⟩ | nothing
    · obtain ⟨r, r', left, right, similar⟩ := Pass.exists_similar (agree_bind hg) sound
      obtain rfl := Pass.unique left right
      have first := binding_some value (guarded_known yields sound.known)
      have composite : (limit k [v]).Yields T r := (hk v).yields (yields.bind left)
      have known := (Pass.known_of_similar similar).1
      exact ⟨r, r, ⟨u, first, left⟩, binding_some value (guarded_known composite known), similar⟩
    · -- Nothing is bound to the unknown argument, so nothing comes of the composite either.
      have first := binding_some value (guarded_none nothing)
      have none : (probe (limit k [v])).Yields T none :=
        (hk v).yields_probe_none (Act.yields_probe_bind_none nothing Act.yields_probe_abort)
      exact ⟨_, _, ⟨_, first, (binding T g).failed⟩, binding_some value (guarded_none none),
        similar_failed⟩
  · exact ⟨_, _, ⟨_, binding_none nothing, (binding T g).failed⟩, binding_none nothing,
      similar_failed⟩

/-- To map and to bind the function that finishes agree, also if the result is the unknown argument:
then nothing comes of the finished tree. -/
theorem agree_map (hh : ∀ v, ∃ o, (limit h [v]).Settles T o ∧ o.Answers) (hk : Finishes T h k) :
    (mapping T h).Agree (binding T k) := by
  intro p o settles answers
  rcases Payload.cases settles answers with ⟨v, -, value⟩ | nothing
  · obtain ⟨o', settles', answers'⟩ := hh v
    rcases answers' with ⟨r, rfl⟩ | rfl
    · have yields := Act.settles_ok_iff.mp settles'
      have finished : (limit h [v] >>= fun u => pure (.tree (Tree.pure u)) : Act Value).Yields T
          (.tree (Tree.pure r)) := yields.bind (Act.yields_pure _)
      have mapped : (mapping T h).Gives (.tree (.done p)) (.tree (Tree.pure r)) :=
        value.bind (guarded_known finished rfl)
      have bound := binding_some value (guarded_known ((hk v).yields finished) rfl)
      refine ⟨_, _, mapped, bound, .of_step ?_⟩
      cases known : r.isPoison with
      | false => exact .done (resolve_pure known) (resolve_pure known)
      | true =>
        obtain rfl := Value.isPoison_iff.mp known
        exact .hopeless (.done Act.yields_probe_poison) (.done Act.yields_probe_poison)
    · have mapped : (mapping T h).Gives (.tree (.done p)) (.tree .failed) :=
        value.bind (guarded_none (settles'.probe_bind_abort _))
      have aborts : (probe (limit k [v])).Yields T none :=
        (hk v).yields_probe_none (settles'.probe_bind_abort _)
      exact ⟨_, _, mapped, binding_some value (guarded_none aborts), similar_failed⟩
  · exact ⟨_, _, mapping_none nothing, binding_none nothing, similar_failed⟩

/-! ### The laws -/

/-- **To bind is a monad**, up to similarity. All trees and functions are as they may be, but for
callbacks that fail or register classes, and for descriptors that cannot be copied: to bind makes
copies, so the slot of each descriptor can be filled (`Fillable`, which is part of `Sound`). -/
theorem bind_laws {t : Value} (ht : Sound T True t) (hf : Arrow T f) (hg : Arrow T g) :
    (∀ e, IsPure T e → ∃ r, (t.invoke limit .bind [e]).Yields T r ∧ Similar T r t) ∧
    (∀ x, x ≠ .poison →
      (∀ u, (limit f [x]).Yields T (.tree u) → ∃ r,
        ((Value.tree (Tree.pure x)).invoke limit .bind [f]).Yields T r ∧ Similar T r (.tree u)) ∧
      ((probe (limit f [x])).Yields T none →
        ((Value.tree (Tree.pure x)).invoke limit .bind [f]).Yields T (.tree .failed))) ∧
    (∀ k, Composes T f g k → ∃ r r',
      (t.invoke limit .bind [f] >>= fun u => u.invoke limit .bind [g]).Yields T r ∧
      (t.invoke limit .bind [k]).Yields T r' ∧ Similar T r r') ∧
    (∀ h k, (∀ v, ∃ o, (limit h [v]).Settles T o ∧ o.Answers) → Finishes T h k → ∃ r r',
      (t.invoke limit .map [h]).Yields T r ∧ (t.invoke limit .bind [k]).Yields T r' ∧
      Similar T r r') := by
  refine ⟨fun e he => ?_, fun x hx => ⟨fun u yields => ?_, fun nothing => ?_⟩, fun k hk => ?_,
    fun h k hh hk => ?_⟩
  · obtain ⟨r, _, left, rfl, similar⟩ := Pass.exists_similar (agree_pure he) ht
    exact ⟨r, left, similar⟩
  · have value := resolve_pure (T := T) (Value.isPoison_of_ne hx)
    -- What the function gives is sound, so it is similar to itself.
    rcases hf.cases x with ⟨u', sound, yields'⟩ | nothing
    · obtain rfl := yields.unique yields'
      exact ⟨_, binding_some value (guarded_known yields rfl), sound.similar⟩
    · exact absurd ((yields.probe rfl).unique nothing) (by simp)
  · exact binding_some (resolve_pure (Value.isPoison_of_ne hx)) (guarded_none nothing)
  · obtain ⟨r, r', left, right, similar⟩ := Pass.exists_similar (agree_composite hf hg hk) ht
    exact ⟨r, r', ((binding T f).andThen (binding T g)).yields left, right, similar⟩
  · exact Pass.exists_similar (agree_map hh hk) ht

/-! ### The laws for a dialogue -/

open Dialogue

theorem arrow_pure : Arrow T (.frame .pure) := by
  intro v
  refine ⟨_, ?_, .inl ⟨.tree (Tree.pure v), rfl⟩, fun r hr => .inr ?_⟩
  · rw [Machine.limit_frame]
    exact Act.settles_pure _
  · obtain rfl : .tree (Tree.pure v) = r := by simpa using hr
    exact sound_pure v

theorem isPure_pure : IsPure T (.frame .pure) := by
  intro v
  rw [Machine.limit_frame]
  exact .of_yields (Act.yields_pure _) (Act.yields_pure _)

theorem composes_after : Composes T f g (.after (.frame (.bind g)) f) := by
  intro v w _
  rw [Value.after, Machine.limit_after]
  simp only [Machine.limit_frame]
  rfl

theorem finishes_after : Finishes T h (.after (.frame .pure) h) := by
  intro v w _
  rw [Value.after, Machine.limit_after]
  simp only [Machine.limit_frame]
  rfl

/-- A statement before a question, with functions that finish. -/
theorem bind_laws_dialogue :
    Sound table True (say (.str "hello") (ask echo)) ∧ Arrow table (.frame .pure) ∧
      (∃ r, ((say (.str "hello") (ask echo)).invoke limit .bind [.frame .pure]).Yields table r ∧
        Similar table r (say (.str "hello") (ask echo))) ∧
      (∃ r r', ((say (.str "hello") (ask echo)).invoke limit .bind [.frame .pure] >>=
          fun u => u.invoke limit .bind [.frame .pure]).Yields table r ∧
        ((say (.str "hello") (ask echo)).invoke limit .bind
          [.after (.frame (.bind (.frame .pure))) (.frame .pure)]).Yields table r' ∧
        Similar table r r') ∧
      ∃ r r', ((say (.str "hello") (ask echo)).invoke limit .map [.frame .unit]).Yields table r ∧
        ((say (.str "hello") (ask echo)).invoke limit .bind
          [.after (.frame .pure) (.frame .unit)]).Yields table r' ∧ Similar table r r' := by
  have sound : Sound table True (say (.str "hello") (ask echo)) := sound_say sound_ask_echo
  have laws := bind_laws sound arrow_pure arrow_pure
  have units : ∀ v, ∃ o, (limit (.frame .unit) [v]).Settles table o ∧ o.Answers := by
    intro v
    rw [Machine.limit_frame]
    exact ⟨_, Act.settles_pure _, .inl ⟨_, rfl⟩⟩
  exact ⟨sound, arrow_pure, laws.1 _ isPure_pure, laws.2.2.1 _ composes_after,
    laws.2.2.2 _ _ units finishes_after⟩

end EffectTrees
