import EffectTrees.Proofs.Analysis.Walk

/-!
# Analysis is compositional

Binding a function to a tree works on every slot: along direct slots at once, and behind function
slots when they are called. The analysis of the result walks the tree itself first, records the same
effects there, and goes on from the value that it finds at the end (`Analysis.analyze_bind`).

One step of a walk is one step of the walk through the bound tree, `bind_step`: erasing a slot does
not see what has been put into it, and what follows is bound as well. So a walk to a value, and one
without a result, are walks through the bound tree (`Walks.bind_value`, `Walks.bind_none`).
-/

namespace EffectTrees

open Machine (limit)

namespace Analysis

variable {T : ClassTable} {total : Prop} {d e f : Value}

theorem yields_bind_suspended {d' : Value}
    (refills : Refills T (fun x y => (x.invoke limit .bind [f]).Yields T y)
      (.after (.frame (.bind f))) d d') :
    ((Value.tree (.suspended d)).invoke limit .bind [f]).Yields T (.tree (.suspended d')) := by
  refine (refills.yields_fmap fun x y hxy => ?_).bind (Act.yields_pure _)
  rw [Machine.limit_frame]
  exact hxy

theorem limit_after_bind (g : Value) (args : List Value) :
    limit (.after (.frame (.bind f)) g) args =
      limit g args >>= fun v => v.invoke limit .bind [f] := by
  rw [Value.after, Machine.limit_after]
  exact congrArg _ (funext fun v => Machine.limit_frame _ v)

/-- What a function slot of a sound tree comes to on the unknown argument. -/
theorem settles_behind {c : ClassRef} {own : List (String × Value)} {s : Slot} {n : Nat} {g : Value}
    (hd : Sound T total (.tree (.suspended (.descriptor c own)))) (effect : c.isEffect)
    (slot : T.slotOf c.id = .ok s) (kind : s.kind = .function n) (holds : SlotHolds T c own s g) :
    ∃ o, (limit g (List.replicate n .poison)).Settles T o ∧
      (limit anyLocator [.descriptor c own]).Settles T o := by
  cases hd.step with
  | suspended _ behind _ =>
    obtain ⟨o, settles, -, -⟩ :=
      behind n g (.slot effect slot kind holds) (List.replicate n .poison)
    exact ⟨o, settles, settles_locate_function effect slot kind holds settles⟩

/-- Where a step of a walk leads: along a direct slot to what it holds, and behind a function slot to
what the function gives for unknown arguments. -/
theorem step_cases {next : Value} (hd : Sound T total (.tree (.suspended d))) (erased : Erased T d e)
    (stepped : (limit anyLocator [d]).Yields T next) (known : next ≠ .poison) :
    ∃ c own s fill x, d = .descriptor c own ∧ e = .descriptor c (fill .unit) ∧
      Slotted T c own s fill ∧ SlotHolds T c own s x ∧
      ((s.kind = .direct ∧ x = next) ∨
        ∃ n, s.kind = .function n ∧ (limit x (List.replicate n .poison)).Yields T next) := by
  obtain ⟨c, own, s, x, rfl, effect, slot, holds⟩ :=
    exists_slot_of_locate (stepped.probe (Value.isPoison_of_ne known))
  obtain ⟨fill, slotted, rfl⟩ := erased.exists_slotted slot
  refine ⟨c, own, s, fill, x, rfl, rfl, slotted, holds, ?_⟩
  cases kind : s.kind with
  | direct => exact .inl ⟨rfl, (yields_locate_direct effect slot kind holds).unique stepped⟩
  | function n =>
    obtain ⟨o, settles, located⟩ := settles_behind hd effect slot kind holds
    obtain rfl := located.unique stepped.settles
    exact .inr ⟨n, rfl, Act.settles_ok_iff.mp settles⟩

/-- A walk that does not go on has come to a function that needs its arguments. -/
theorem noStep_cases (hd : Sound T total (.tree (.suspended d))) (erased : Erased T d e)
    (stepped : (probe (limit anyLocator [d])).Yields T none) :
    ∃ c own s fill x n, d = .descriptor c own ∧ e = .descriptor c (fill .unit) ∧
      Slotted T c own s fill ∧ SlotHolds T c own s x ∧ s.kind = .function n ∧
      (probe (limit x (List.replicate n .poison))).Yields T none := by
  obtain ⟨c, own, s, x, rfl, effect, slot, holds⟩ := exists_slot_of_locate stepped
  obtain ⟨fill, slotted, rfl⟩ := erased.exists_slotted slot
  cases kind : s.kind with
  | direct =>
    -- A direct slot holds a tree, so the walk goes on from there.
    have known := (hd.atHand (.content effect slot kind holds)).known
    have yields := (yields_locate_direct effect slot kind holds).probe known
    exact absurd (yields.unique stepped) (by simp)
  | function n =>
    obtain ⟨o, settles, located⟩ := settles_behind hd effect slot kind holds
    refine ⟨c, own, s, fill, x, n, rfl, rfl, slotted, holds, kind, ?_⟩
    rw [← Act.settles_ok_iff, stepped.settles.unique located.probe]
    exact settles.probe

/-- **One step of a walk** is one step of the walk through the bound tree. -/
theorem bind_step {next next' : Value} (hd : Sound T total (.tree (.suspended d)))
    (erased : Erased T d e) (stepped : (limit anyLocator [d]).Yields T next)
    (known : next ≠ .poison) (bound : (next.invoke limit .bind [f]).Yields T next') :
    ∃ d', ((Value.tree (.suspended d)).invoke limit .bind [f]).Yields T (.tree (.suspended d')) ∧
      Erased T d' e ∧ (limit anyLocator [d']).Yields T next' := by
  obtain ⟨c, own, s, fill, x, rfl, rfl, slotted, holds, along⟩ := step_cases hd erased stepped known
  rcases along with ⟨kind, rfl⟩ | ⟨n, kind, gives⟩
  · -- Along a direct slot the bind runs at once, and has run before the walk comes there.
    exact ⟨_, yields_bind_suspended (.direct slotted kind holds bound), slotted.erased_fill _,
      yields_locate_direct slotted.effect slotted.slot kind (slotted.holds_fill next')⟩
  · -- Behind a function slot it waits for the call that the walk makes.
    refine ⟨_, yields_bind_suspended (.function slotted kind holds), slotted.erased_fill _, ?_⟩
    rw [← Act.settles_ok_iff]
    refine settles_locate_function slotted.effect slotted.slot kind (slotted.holds_fill _) ?_
    rw [limit_after_bind]
    exact (gives.bind bound).settles

/-- Where a walk depends on its input, so does the walk through the bound tree. -/
theorem bind_noStep (hd : Sound T total (.tree (.suspended d))) (erased : Erased T d e)
    (stepped : (probe (limit anyLocator [d])).Yields T none) :
    ∃ d', ((Value.tree (.suspended d)).invoke limit .bind [f]).Yields T (.tree (.suspended d')) ∧
      Erased T d' e ∧ (probe (limit anyLocator [d'])).Yields T none := by
  obtain ⟨c, own, s, fill, x, n, rfl, rfl, slotted, holds, kind, nothing⟩ :=
    noStep_cases hd erased stepped
  refine ⟨_, yields_bind_suspended (.function slotted kind holds), slotted.erased_fill _, ?_⟩
  refine yields_probe_locate_function slotted.effect slotted.slot kind (slotted.holds_fill _) ?_
  rw [limit_after_bind]
  -- To bind to the unknown argument aborts, so nothing comes of the call with the bind behind it.
  exact Act.yields_probe_bind_none nothing Act.yields_probe_abort

/-! ### Walks through the bound tree -/

/-- A walk to a value goes on with what the function makes of the value. -/
theorem Walks.bind_value {t v u : Value} {stop : Stop} {trace trace' : List Value}
    {result : Option Value} (walk : Walks T anyLocator t stop trace) (ht : Sound T total t)
    (hstop : stop = .value v) (leaf : (guarded (limit f [v])).Yields T u) (known : u ≠ .poison)
    (rest : Analyzes T anyLocator u result trace') :
    ∃ t', (t.invoke limit .bind [f]).Yields T t' ∧ t' ≠ .poison ∧
      Analyzes T anyLocator t' result (trace ++ trace') := by
  induction walk with
  | failed => simp at hstop
  | value value =>
    obtain rfl := Stop.value.inj hstop
    exact ⟨u, value.bind leaf, known, rest⟩
  | noValue value => simp at hstop
  | @step d e next stop trace erased stepped isKnown _ ih =>
    have hnext : Sound T total next := Sound.follows.of_stepped ht stepped isKnown
    obtain ⟨next', bound, known', analyzes⟩ := ih hnext hstop
    obtain ⟨d', bound', erased', stepped'⟩ := bind_step ht erased stepped isKnown bound
    exact ⟨_, bound', by simp, .step erased' stepped' known' analyzes⟩
  | noStep erased stepped => simp at hstop

/-- A walk without a result stays one. -/
theorem Walks.bind_none {t : Value} {stop : Stop} {trace : List Value}
    (walk : Walks T anyLocator t stop trace) (ht : Sound T total t) (hstop : stop.result = none) :
    ∃ t', (t.invoke limit .bind [f]).Yields T t' ∧ t' ≠ .poison ∧
      Analyzes T anyLocator t' none trace := by
  induction walk with
  | failed => exact ⟨_, Act.yields_pure _, by simp, .failed⟩
  | value value => simp [Stop.result] at hstop
  | noValue value => exact ⟨_, value.bind (Act.yields_pure _), by simp, .failed⟩
  | @step d e next stop trace erased stepped isKnown _ ih =>
    have hnext : Sound T total next := Sound.follows.of_stepped ht stepped isKnown
    obtain ⟨next', bound, known', analyzes⟩ := ih hnext hstop
    obtain ⟨d', bound', erased', stepped'⟩ := bind_step ht erased stepped isKnown bound
    exact ⟨_, bound', by simp, .step erased' stepped' known' analyzes⟩
  | noStep erased stepped =>
    obtain ⟨d', bound, erased', stepped'⟩ := bind_noStep ht erased stepped
    exact ⟨_, bound, by simp, .noStep erased' stepped'⟩

/-- **Analysis is compositional.** If the analysis of a sound tree finds a value and the function
makes a tree of it, the analysis of the bound tree finds what the analysis of that tree finds, after
the effects of both. If the function aborts on the value, or there is no value, the analysis of the
bound tree has no result, and the effects of the first tree. -/
theorem analyze_bind {t : Value} (ht : Sound T total t) {result : Option Value}
    {trace : List Value} (analyzes : Analyzes T anyLocator t result trace) :
    (∀ v, result = some v → ∀ u result' trace', (limit f [v]).Yields T (.tree u) →
      Analyzes T anyLocator (.tree u) result' trace' →
      ∃ t', (t.invoke limit .bind [f]).Yields T t' ∧
        Analyzes T anyLocator t' result' (trace ++ trace')) ∧
    (∀ v, result = some v → (probe (limit f [v])).Yields T none →
      ∃ t', (t.invoke limit .bind [f]).Yields T t' ∧ Analyzes T anyLocator t' none trace) ∧
    (result = none →
      ∃ t', (t.invoke limit .bind [f]).Yields T t' ∧ Analyzes T anyLocator t' none trace) := by
  obtain ⟨stop, walk, rfl⟩ := analyzes.walks Sound.follows ht
  refine ⟨fun v hv u result' trace' gives rest => ?_, fun v hv aborts => ?_, fun hnone => ?_⟩
  · have leaf : (guarded (limit f [v])).Yields T (.tree u) :=
      (gives.probe rfl).bind (Act.yields_pure _)
    obtain ⟨t', bound, -, h⟩ := walk.bind_value ht (Stop.eq_value_of_result hv) leaf (by simp) rest
    exact ⟨t', bound, h⟩
  · have leaf : (guarded (limit f [v])).Yields T (.tree .failed) :=
      aborts.bind (Act.yields_pure _)
    obtain ⟨t', bound, -, h⟩ :=
      walk.bind_value ht (Stop.eq_value_of_result hv) leaf (by simp) .failed
    rw [List.append_nil] at h
    exact ⟨t', bound, h⟩
  · obtain ⟨t', bound, -, h⟩ := walk.bind_none ht hnone
    exact ⟨t', bound, h⟩

/-! ### A dialogue that goes on -/

open Dialogue

theorem analyze_bind_dialogue :
    Sound table True (say (.str "hello") (ask echo)) ∧
      Analyzes table anyLocator (say (.str "hello") (ask echo)) (some (.int 1))
        [saying (.str "hello") .unit, asking .unit, saying .poison .unit] ∧
      ∃ t', ((say (.str "hello") (ask echo)).invoke limit .bind
          [.frame (.always (say (.str "bye") (.tree (Tree.pure (.int 2)))))]).Yields table t' ∧
        Analyzes table anyLocator t' (some (.int 2))
          ([saying (.str "hello") .unit, asking .unit, saying .poison .unit] ++
            [saying (.str "bye") .unit]) := by
  have sound : Sound table True (say (.str "hello") (ask echo)) := sound_say sound_ask_echo
  have analyzes : Analyzes table anyLocator (say (.str "hello") (ask echo)) (some (.int 1))
      [saying (.str "hello") .unit, asking .unit, saying .poison .unit] :=
    analyzes_say (by simp [ask]) analyzes_ask_echo
  refine ⟨sound, analyzes, (analyze_bind sound analyzes).1 _ rfl _ _ _ ?_
    (analyzes_say (by simp) (.pure _ rfl))⟩
  rw [Machine.limit_frame]
  exact Act.yields_pure _

end Analysis

end EffectTrees
