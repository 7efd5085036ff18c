import EffectTrees.Proofs.Builder.Refinement
import EffectTrees.Proofs.Tree.Hoist

/-!
# Choices

The choice of two builders is itself a builder. It keeps a finished tree, and a pending function
that builds the left side and then goes on with what has been built, or with the right side if that
is the failed tree. So the functions that are bound to the choice come behind the right side's own
in one queue, while building each side first and then choosing between two trees cuts this queue
(`Builder.build_alt`).

* A queue may be cut. Binding all of it, and binding its first part and then the rest to what that
  has come to, give the same trees (`Builder.alike_parts`). The two are related where they are, at
  one and the same tree (`Builder.Cut`), and match again in the slots
  (`Builder.Materialized.cut_step`).
* What a choice does when it is built is one equation, from any world and for any right side
  (`Builder.runIn_build_foldl_alt`): it builds the left side, once, and only what has been built
  decides how it goes on. The right side is not mentioned unless that is the failed tree.
* A choice of builders that can be built can be built (`Builder.Buildable.alt`), so choices may be
  nested, and stand in what a continuation gives.
-/

namespace EffectTrees

open Machine (limit)

namespace Builder

variable {T : ClassTable} {total : Prop} {q fs : List Value} {t m r y : Value} {a b : Builder}

/-! ### The parts of a queue -/

theorem Materialized.unique {queue : List Value} (h : Materialized T queue t r)
    (h' : Materialized T queue t y) : r = y := h.yields.unique h'.yields

theorem materialized_failed (queue : List Value) :
    Materialized T queue (.tree .failed) (.tree .failed) := by
  cases queue with
  | nil => exact .nil _
  | cons f rest => exact .failed

/-- What a queue comes to on the contents of a suspended tree. -/
theorem Materialized.exists_content {queue : List Value} {d x : Value}
    (h : Materialized T queue (.tree (.suspended d)) r) (hx : AtHand T d x) :
    ∃ y, Materialized T queue x y := by
  cases h with
  | nil => exact ⟨x, .nil x⟩
  | suspended contents refills =>
    obtain ⟨y, -, hxy⟩ := refills.atHand_left hx
    exact ⟨y, contents x y hxy⟩

/-- What binding the first part of a queue comes to, and then the rest. -/
def Parts (T : ClassTable) (q fs : List Value) (t y : Value) : Prop :=
  ∃ m, Materialized T q t m ∧ Materialized T fs m y

theorem Parts.yields (h : Parts T q fs t y) :
    (materialize limit q t >>= materialize limit fs).Yields T y := by
  obtain ⟨m, first, second⟩ := h
  exact first.yields.bind second.yields

theorem Parts.ready (h : Parts T q fs t y) (hc : Continuations T total (q ++ fs))
    (ht : Ready T total t) : Ready T total y := by
  obtain ⟨m, first, second⟩ := h
  exact second.ready hc.right (first.ready hc.left ht)

/-- On a suspended tree both parts are bound in the slots. -/
theorem Parts.of_suspended {f d : Value} (h : Parts T (f :: q) fs (.tree (.suspended d)) y) :
    ∃ d', y = .tree (.suspended d') ∧
      Refills T (Parts T (f :: q) fs) (builtAfter fs ∘ builtAfter (f :: q)) d d' := by
  obtain ⟨m, first, second⟩ := h
  cases first with
  | suspended contents refills =>
    cases second with
    | nil =>
      exact ⟨_, rfl, refills.mono fun x m _ hxm => ⟨m, contents x m hxm, .nil m⟩⟩
    | suspended contents' refills' =>
      refine ⟨_, rfl, (refills.comp refills').mono fun x y _ hxy => ?_⟩
      obtain ⟨m, hxm, hmy⟩ := hxy
      exact ⟨m, contents x m hxm, contents' m y hmy⟩

/-! ### The queue and its parts come to something together -/

/-- If the whole queue comes to something, then so do its parts. The induction is on what the queue
comes to. -/
theorem Materialized.exists_parts {queue : List Value} (h : Materialized T queue t r)
    (hqueue : queue = q ++ fs) : ∃ y, Parts T q fs t y := by
  induction h generalizing q with
  | nil t =>
    obtain ⟨rfl, rfl⟩ := List.append_eq_nil_iff.mp hqueue.symm
    exact ⟨t, t, .nil t, .nil t⟩
  | failed => exact ⟨_, _, materialized_failed q, materialized_failed fs⟩
  | stop noNext =>
    cases q with
    | nil =>
      obtain rfl : _ = fs := hqueue
      exact ⟨_, _, .nil _, .stop noNext⟩
    | cons f' q =>
      obtain ⟨rfl, rfl⟩ := List.cons.inj hqueue
      exact ⟨_, _, .stop noNext, materialized_failed fs⟩
  | @next f rest p b r goesOn after ih =>
    cases q with
    | nil =>
      obtain rfl : _ = fs := hqueue
      exact ⟨_, _, .nil _, .next goesOn after⟩
    | cons f' q =>
      obtain ⟨rfl, rfl⟩ := List.cons.inj hqueue
      -- The builder's own functions come before the first part, and are cut off with it.
      obtain ⟨y, m, first, second⟩ := ih (queueBefore_append b q fs)
      exact ⟨y, m, .next goesOn first, second⟩
  | @suspended f rest C d d' contents refills ih =>
    cases q with
    | nil =>
      obtain rfl : _ = fs := hqueue
      exact ⟨_, _, .nil _, .suspended contents refills⟩
    | cons f' q =>
      have parts (x) (hx : AtHand T d x) :
          ∃ m, Materialized T (f' :: q) x m ∧ ∃ y, Materialized T fs m y := by
        obtain ⟨x', -, hxx'⟩ := refills.atHand_left hx
        obtain ⟨y, m, first, second⟩ := ih x x' hxx' hqueue
        exact ⟨m, first, y, second⟩
      obtain ⟨d₁, refills₁⟩ := Refills.exists_of_fillable refills.fillable
        (.after (.frame (.materialize (f' :: q)))) parts
      have first : Materialized T (f' :: q) (.tree (.suspended d)) (.tree (.suspended d₁)) :=
        .suspended (fun x m hxm => hxm.1) refills₁
      cases fs with
      | nil => exact ⟨_, _, first, .nil _⟩
      | cons g fs =>
        obtain ⟨d₂, refills₂⟩ := Refills.exists_of_fillable refills₁.fillable_right
          (.after (.frame (.materialize (g :: fs)))) fun m hm => by
            obtain ⟨x, -, -, hy⟩ := refills₁.atHand_right hm
            exact hy
        exact ⟨_, _, first, .suspended (fun _ _ h => h) refills₂⟩

/-- If the parts of a queue come to something, then so does the whole queue. The induction is on
what the first part comes to. -/
theorem Parts.exists_materialized (h : Parts T q fs t y) : ∃ r, Materialized T (q ++ fs) t r := by
  obtain ⟨m, first, second⟩ := h
  induction first generalizing y with
  | nil t => exact ⟨y, second⟩
  | failed => exact ⟨_, .failed⟩
  | stop noNext => exact ⟨_, .stop noNext⟩
  | @next f rest p b m goesOn after ih =>
    obtain ⟨r, hr⟩ := ih second
    rw [← queueBefore_append] at hr
    exact ⟨r, .next goesOn hr⟩
  | @suspended f rest C d d₁ contents refills ih =>
    obtain ⟨d₂, refills₂⟩ := Refills.exists_of_fillable refills.fillable
      (.after (.frame (.materialize (f :: rest ++ fs)))) fun x hx => by
        obtain ⟨m, hm, hxm⟩ := refills.atHand_left hx
        obtain ⟨y, hmy⟩ := second.exists_content hm
        exact ih x m hxm hmy
    exact ⟨_, .suspended (fun _ _ h => h) refills₂⟩

/-! ### The same trees -/

/-- The first tree is what a queue comes to in one go, and the second one what its parts come to, on
one sound tree. -/
inductive Cut (T : ClassTable) (total : Prop) : Value → Value → Prop where
  | mk {q fs : List Value} {t r y : Value} (sound : Sound T total t)
      (continuations : Continuations T total (q ++ fs)) (whole : Materialized T (q ++ fs) t r)
      (parts : Parts T q fs t y) : Cut T total r y

/-- **A queue and its parts on one sound tree**: either both come to trees, or both are lost, and
then something failed. -/
theorem materialize_parts (hc : Continuations T total (q ++ fs)) (ht : Sound T total t) :
    (∃ r y, Materialized T (q ++ fs) t r ∧ Parts T q fs t y) ∨
      (¬ total ∧ (materialize limit (q ++ fs) t).Lost T ∧
        (materialize limit q t >>= materialize limit fs).Lost T) := by
  rcases materialize_cases hc ht with ⟨r, whole⟩ | ⟨notTotal, lost⟩
  · obtain ⟨y, parts⟩ := whole.exists_parts rfl
    exact .inl ⟨r, y, whole, parts⟩
  · have runs : (materialize limit q t >>= materialize limit fs).FaultOr T (Parts T q fs t) :=
      (faultOr_materialize hc.left ht.ready).bind fun m first =>
        (faultOr_materialize hc.right (first.ready hc.left ht.ready)).mono fun y second =>
          ⟨m, first, second⟩
    refine .inr ⟨notTotal, lost, runs.lost fun y parts => ?_⟩
    obtain ⟨r, whole⟩ := parts.exists_materialized
    exact whole.yields.not_lost lost

theorem alike_parts (hc : Continuations T total (q ++ fs)) (ht : Sound T total t) :
    Alike T (¬ total) (Cut T total) (materialize limit (q ++ fs) t)
      (materialize limit q t >>= materialize limit fs) := by
  rcases materialize_parts hc ht with ⟨r, y, whole, parts⟩ | ⟨notTotal, lost, lost'⟩
  · exact .values whole.yields parts.yields (whole.ready hc ht.ready).known
      (parts.ready hc ht.ready).known (.mk ht hc whole parts)
  · exact .lost notTotal lost lost'

/-- Behind a function slot, a queue and its parts go on from what the function of the slot gives. -/
theorem alike_builtAfter {g : Value} {args : List Value} {o : Ending Value} {mayFail : Prop}
    (settles : (limit g args).Settles T o)
    (values : ∀ v, o = some (.ok v) → v = .poison ∨ Sound T total v)
    (may : ¬ (total ∧ o.Answers) → mayFail) (hc : Continuations T total (q ++ fs)) :
    Alike T mayFail (Cut T total) (limit (builtAfter (q ++ fs) g) args)
      (limit ((builtAfter fs ∘ builtAfter q) g) args) := by
  have whole : limit (builtAfter (q ++ fs) g) args =
      limit g args >>= materialize limit (q ++ fs) := limit_builtAfter _ g args
  have parts : limit ((builtAfter fs ∘ builtAfter q) g) args =
      limit g args >>= fun v => materialize limit q v >>= materialize limit fs := by
    rw [Function.comp_apply, limit_builtAfter, limit_builtAfter, bind_assoc]
  have poison : (probe (materialize limit q .poison >>= materialize limit fs)).Yields T none := by
    rw [materialize_poison, pure_bind]
    exact yields_probe_materialize_poison fs
  rw [whole, parts]
  exact .of_sound settles values may (fun t ht => alike_parts hc ht)
    (yields_probe_materialize_poison _) poison

/-- What a queue and its parts come to matches at the root and is so related in the slots. The
induction is on what the first part comes to. -/
theorem Materialized.cut_step (first : Materialized T q t m) (second : Materialized T fs m y)
    (whole : Materialized T (q ++ fs) t r) (hc : Continuations T total (q ++ fs))
    (ht : Sound T total t) : Same.Step T total (Cut T total) r y := by
  induction first generalizing r y with
  | nil t =>
    obtain rfl : r = y := whole.unique second
    exact .refl _
  | failed =>
    obtain rfl : r = .tree .failed := whole.unique .failed
    rw [second.unique (materialized_failed fs)]
    exact .refl _
  | stop noNext =>
    obtain rfl : r = .tree .failed := whole.unique (.stop noNext)
    rw [second.unique (materialized_failed fs)]
    exact .refl _
  | @next f rest p b m goesOn after ih =>
    obtain ⟨sound, hafter⟩ := goesOn.continuations hc
    -- The whole queue goes on with the same builder, as the first part does.
    cases whole with
    | stop noNext => exact absurd (noNext.unique goesOn) (by simp)
    | next goesOn' after' =>
      obtain rfl := Option.some.inj (goesOn.unique goesOn')
      have whole' : Materialized T (b.queueBefore rest ++ fs) b.tree r :=
        queueBefore_append b rest fs ▸ after'
      exact ih second whole' (queueBefore_append b rest fs ▸ hafter) sound
  | @suspended f rest C d d₁ contents refills _ =>
    have parts : Parts T (f :: rest) fs (.tree (.suspended d)) y :=
      ⟨_, .suspended contents refills, second⟩
    obtain ⟨d₂, rfl, refills₂⟩ := parts.of_suspended
    cases whole with
    | suspended contents' refills' =>
      refine .of_refills refills' refills₂ (fun x r y hx hxr hxy => ?_) fun n g hg args => ?_
      · exact .mk (ht.atHand hx) hc (contents' x r hxr) hxy
      · cases ht.step with
        | suspended _ behind _ =>
          obtain ⟨o, settles, ends, values⟩ := behind n g hg args
          exact alike_builtAfter settles values
            (fun may htotal hn => may ⟨htotal, ends htotal hn⟩) hc

theorem Cut.same (h : Cut T total r y) : Same T total r y := by
  refine ⟨Cut T total, fun r y hry => ?_, h⟩
  cases hry with
  | mk sound continuations whole parts =>
    obtain ⟨m, first, second⟩ := parts
    exact first.cut_step second whole continuations sound

/-! ### The run of a choice -/

/-- The builder that a choice goes on with once its left side has been built. -/
def chosen (left : Value) (b : Builder) : Builder :=
  match left with
  | .tree .failed => b
  | t => .of t

theorem chosen_of_ne (h : t ≠ .tree .failed) : chosen t b = .of t := by
  unfold chosen
  split
  · exact absurd rfl h
  · rfl

theorem choose_eq (call : Caller) (a b : Builder) :
    choose call a (.builder b) = a.build call >>= fun t => pure (.builder (chosen t b)) := by
  unfold choose
  refine bind_congr fun t => ?_
  split
  · rfl
  · next known => rw [chosen_of_ne known]

/-- **The run of a choice** with functions bound to it. The left side is built, once, and from there
the functions are bound to what has been built. The right side has no part in it, unless the left
one comes to the failed tree. -/
theorem runIn_build_foldl_alt (a b : Builder) (fs : List Value) (w : World) :
    ((fs.foldl bind (a.alt (.builder b))).build limit).runIn w =
      match (a.build limit).runIn w with
      | some (.ok t, w') => ((fs.foldl bind (chosen t b)).build limit).runIn w'
      | some (.error .abort, w') => some (.ok (.tree .failed), w')
      | some (.error (.fault f), w') => some (.error (.fault f), w')
      | none => none := by
  have value : Payload.resolve limit (.resolved .null) = pure (some .null) := rfl
  have pending : limit (.frame (.choose a (.builder b))) [.null] =
      a.build limit >>= fun t => pure (.builder (chosen t b)) := by
    rw [Machine.limit_frame]
    exact choose_eq limit a b
  have unfolded : (fs.foldl bind (a.alt (.builder b))).build limit =
      materialize limit (.frame (.choose a (.builder b)) :: fs) (.tree (Tree.pure .null)) := by
    rw [build_foldl]
    rfl
  -- A choice is done with nothing, and its first continuation makes the choice.
  rw [unfolded, Tree.pure, materialize, next, value, pure_bind]
  dsimp only
  rw [bind_assoc, pending, Act.runIn_bind, runIn_probe, Act.runIn_bind]
  rcases (a.build limit).runIn w with _ | ⟨(_ | f) | t, w'⟩
  · rfl
  · rfl
  · rfl
  · -- What is chosen is a builder, so the choice is not taken for the unknown argument.
    change _ = ((fs.foldl bind (chosen t b)).build limit).runIn w'
    rw [build_foldl]
    exact congrArg (Act.runIn · w') (Machine.limit_frame _ _)

theorem yields_build_foldl_alt (left : (a.build limit).Yields T t)
    (rest : ((fs.foldl bind (chosen t b)).build limit).Yields T r) :
    ((fs.foldl bind (a.alt (.builder b))).build limit).Yields T r := fun w hw => by
  obtain ⟨w', hr, hw'⟩ := left w hw
  rw [runIn_build_foldl_alt, hr]
  exact rest w' hw'

theorem lost_build_foldl_alt (left : (a.build limit).Yields T t)
    (rest : ((fs.foldl bind (chosen t b)).build limit).Lost T) :
    ((fs.foldl bind (a.alt (.builder b))).build limit).Lost T := fun w hw => by
  obtain ⟨w', hr, hw'⟩ := left w hw
  rw [runIn_build_foldl_alt, hr]
  exact rest w' hw'

theorem lost_build_foldl_alt_left (left : (a.build limit).Lost T) :
    ((fs.foldl bind (a.alt (.builder b))).build limit).Lost T := fun w hw r w' hr => by
  rw [runIn_build_foldl_alt] at hr
  match hx : (a.build limit).runIn w with
  | none => simp [hx] at hr
  | some (s, w₁) =>
    obtain ⟨f, rfl⟩ := left w hw s w₁ hx
    obtain ⟨rfl, -⟩ : .error (.fault f) = r ∧ w₁ = w' := by simpa [hx] using hr
    exact ⟨f, rfl⟩

/-! ### Choices of builders -/

/-- A builder over a sound tree whose pending functions are continuations. -/
structure Buildable (T : ClassTable) (total : Prop) (b : Builder) : Prop where
  sound : Sound T total b.tree
  pending : Continuations T total b.pending

/-- The functions that are pending in a builder, with others behind them. -/
theorem Buildable.queue (hb : b.Buildable T total) (hfs : Continuations T total fs) :
    Continuations T total (b.queueBefore [] ++ fs) := by
  rw [← queueBefore_append]
  exact .queueBefore hb.pending hfs

theorem Buildable.ownQueue (hb : b.Buildable T total) :
    Continuations T total (b.queueBefore []) := .queueBefore hb.pending fun f hf => by simp at hf

/-- Binding functions to what a builder has built comes to something or is lost, and with `total` it
is not lost. -/
theorem Buildable.materialize_cases (hb : b.Buildable T total) (hfs : Continuations T total fs)
    (built : Materialized T (b.queueBefore []) b.tree t) :
    (∃ r, Materialized T fs t r) ∨ (¬ total ∧ (materialize limit fs t).Lost T) := by
  by_cases h : ∃ r, Materialized T fs t r
  · exact .inl h
  -- With `total` the whole queue would come to something, and so would its second part.
  · rcases materialize_parts (hb.queue hfs) hb.sound with ⟨_, y, _, m, first, second⟩ | ⟨not, -, -⟩
    · obtain rfl : m = t := first.unique built
      exact absurd ⟨y, second⟩ h
    · have ready := built.ready hb.ownQueue hb.sound.ready
      exact .inr ⟨not, (faultOr_materialize hfs ready).lost fun r hr => h ⟨r, hr⟩⟩

/-- Binding continuations to whatever settles with a sound tree settles with what they make of it.
-/
theorem exists_settles_materialize {a : Act Value} {o : Ending Value} (settles : a.Settles T o)
    (values : ∀ v, o = some (.ok v) → v = .poison ∨ Sound T True v)
    (hq : Continuations T True q) :
    ∃ o', (a >>= materialize limit q).Settles T o' ∧ (o.Answers → o'.Answers) ∧
      ∀ r, o' = some (.ok r) → r = .poison ∨ ∃ t, Sound T True t ∧ Materialized T q t r := by
  match o with
  | some (.ok v) =>
    have yields := Act.settles_ok_iff.mp settles
    rcases values v rfl with rfl | ht
    · refine ⟨some (.ok .poison), yields.bind_settles ?_, fun h => h, fun r hr => .inl ?_⟩
      · rw [materialize_poison]
        exact Act.settles_pure _
      · simpa using hr.symm
    · obtain ⟨r, hr⟩ := exists_materialized hq ht
      refine ⟨some (.ok r), yields.bind_settles hr.yields.settles, fun _ => .inl ⟨r, rfl⟩, ?_⟩
      intro r' hr'
      obtain rfl : r = r' := by simpa using hr'
      exact .inr ⟨v, ht, hr⟩
  | some (.error s) => exact ⟨_, settles.bind_stop (by simp) _, fun h => h, by simp⟩
  | none => exact ⟨_, settles.bind_stop (by simp) _, fun h => h, by simp⟩

/-- What continuations make of a sound tree is sound. -/
theorem Materialized.sound {queue : List Value} (h : Materialized T queue t r)
    (hq : Continuations T True queue) (ht : Sound T True t) : Sound T True r := by
  -- All that has been built is sound, since its slots hold what has been built from their contents.
  refine ⟨fun r => Sound T True r ∨ ∃ queue t, Continuations T True queue ∧ Sound T True t ∧
    Materialized T queue t r, ?_, .inr ⟨queue, t, hq, ht, h⟩⟩
  rintro r (sound | ⟨queue, t, hq, ht, h⟩)
  · exact sound.step.mono fun _ => .inl
  induction h with
  | nil t => exact ht.step.mono fun _ => .inl
  | failed => exact .failed
  | stop noNext => exact .failed
  | next goesOn after ih =>
    obtain ⟨sound, hafter⟩ := goesOn.continuations hq
    exact ih hafter sound
  | @suspended f rest C d d' contents refills _ =>
    refine .suspended (fun y hy => ?_) (fun n g' hg' args => ?_) fun _ => refills.fillable_right
    · have both := refills.mono (D := fun x y => AtHand T d x ∧ C x y) fun x y hx hxy => ⟨hx, hxy⟩
      obtain ⟨x, -, hx, hxy⟩ := both.atHand_right hy
      exact .inr ⟨f :: rest, x, hq, ht.atHand hx, contents x y hxy⟩
    · cases hg' with
      | slot effect slot kind holds =>
        obtain ⟨own, g, rfl, hg, rfl⟩ := refills.behind_right (.slot effect slot kind holds)
        cases ht.step with
        | suspended _ behind _ =>
          obtain ⟨o, settles, ends, values⟩ := behind n g hg args
          obtain ⟨o', settles', ends', values'⟩ := exists_settles_materialize settles values hq
          refine ⟨o', ?_, fun h hn => ends' (ends h hn), fun r hr => ?_⟩
          · exact (limit_builtAfter (f :: rest) g args).symm ▸ settles'
          · exact (values' r hr).imp_right fun ⟨t, ht, hr⟩ => .inr ⟨f :: rest, t, hq, ht, hr⟩

/-- **A choice of builders that can be built** can be built, and is a builder like any other. -/
theorem Buildable.alt (ha : a.Buildable T True) (hb : b.Buildable T True) :
    (a.alt (.builder b)).Buildable T True := by
  obtain ⟨t, built⟩ := exists_materialized ha.ownQueue ha.sound
  have sound : Sound T True t := built.sound ha.ownQueue ha.sound
  have choice : Continuation T True (.frame (.choose a (.builder b))) := by
    refine continuation_of_yields (r := fun _ => .builder (chosen t b)) (fun v => ?_) fun v => ?_
    · rw [Machine.limit_frame]
      change (choose limit a (.builder b)).Yields T _
      rw [choose_eq]
      exact built.yields.bind (Act.yields_pure _)
    · by_cases failed : t = .tree .failed
      · subst failed
        exact .builder hb.sound hb.pending
      · rw [chosen_of_ne failed]
        exact .builder sound fun g hg => by simp [of, Builder.pending] at hg
  exact ⟨sound_pure _, choice.singleton⟩

/-- Builds both sides first, and binds functions to the choice between the two trees. -/
def buildBoth (call : Caller) (a b : Builder) (fs : List Value) : Act Value := do
  let t ← a.build call
  let u ← b.build call
  let c ← t.invoke call .alt [u]
  (fs.foldl bind (.of c)).build call

/-- **The left side fails**: the functions are bound to what is pending in the right side in one
queue, or to what the right side builds. -/
theorem build_alt_of_failed (left : (a.build limit).Yields T (.tree .failed))
    (hb : b.Buildable T total) (hfs : Continuations T total fs) :
    (∃ r u, ((fs.foldl bind (a.alt (.builder b))).build limit).Yields T r ∧
        (buildBoth limit a b fs).Yields T u ∧ Same T total r u) ∨
      (¬ total ∧ (buildBoth limit a b fs).Lost T ∧
        ((fs.foldl bind (a.alt (.builder b))).build limit).Lost T) := by
  have whole : (fs.foldl bind b).build limit =
      materialize limit (b.queueBefore [] ++ fs) b.tree := by
    rw [build_foldl, ← queueBefore_append]
    rfl
  have parts : (do
      let u ← b.build limit
      let c ← (Value.tree .failed).invoke limit .alt [u]
      (fs.foldl bind (.of c)).build limit) =
      materialize limit (b.queueBefore []) b.tree >>= materialize limit fs :=
    bind_congr fun u => build_foldl_bind limit fs u
  rcases materialize_parts (hb.queue hfs) hb.sound with ⟨r, u, hr, hu⟩ | ⟨notTotal, lost, lost'⟩
  · have same : Same T total r u := (Cut.mk hb.sound (hb.queue hfs) hr hu).same
    exact .inl ⟨r, u, yields_build_foldl_alt left (whole ▸ hr.yields),
      left.bind (parts ▸ hu.yields), same⟩
  · exact .inr ⟨notTotal, left.bind_lost (parts ▸ lost'), lost_build_foldl_alt left (whole ▸ lost)⟩

/-- **The left side does not fail**: the functions are bound to what it builds, and the right side
has no part in it. -/
theorem build_alt_of_ne {t : Tree} (ha : a.Buildable T total)
    (left : Materialized T (a.queueBefore []) a.tree (.tree t)) (known : t ≠ .failed)
    (hb : b.Buildable T total) (hfs : Continuations T total fs) :
    (∃ r, ((fs.foldl bind (a.alt (.builder b))).build limit).Yields T r ∧
        (buildBoth limit a b fs).Yields T r) ∨
      (¬ total ∧ (buildBoth limit a b fs).Lost T ∧
        (((fs.foldl bind (a.alt (.builder b))).build limit).Lost T ∨ (b.build limit).Lost T)) := by
  have goesOn : (fs.foldl bind (chosen (.tree t) b)).build limit =
      materialize limit fs (.tree t) := by
    rw [chosen_of_ne fun h => known (Value.tree.inj h), build_foldl_bind]
  have ignores (u : Value) : (do
      let c ← (Value.tree t).invoke limit .alt [u]
      (fs.foldl bind (.of c)).build limit) = materialize limit fs (.tree t) := by
    rw [← build_foldl_bind]
    cases t with
    | failed => exact absurd rfl known
    | done p => exact pure_bind _ _
    | suspended d => exact pure_bind _ _
  rcases ha.materialize_cases hfs left with ⟨r, hr⟩ | ⟨notTotal, lost⟩
  · have choice := yields_build_foldl_alt (b := b) left.yields (goesOn ▸ hr.yields)
    rcases Builder.materialize_cases hb.ownQueue hb.sound with ⟨u, right⟩ | ⟨notTotal, lost⟩
    · exact .inl ⟨r, choice, left.yields.bind (right.yields.bind (ignores u ▸ hr.yields))⟩
    -- The right side is built in vain, but it has to be built.
    · exact .inr ⟨notTotal, left.yields.bind_lost (lost.bind _), .inr lost⟩
  · have choice := lost_build_foldl_alt (b := b) left.yields (goesOn ▸ lost)
    refine .inr ⟨notTotal, left.yields.bind_lost ?_, .inl choice⟩
    rcases Builder.materialize_cases hb.ownQueue hb.sound with ⟨u, right⟩ | ⟨-, lost'⟩
    · exact right.yields.bind_lost (ignores u ▸ lost)
    · exact lost'.bind _

/-- **Choosing between builders agrees with choosing between trees.** Let `a` and `b` be builders
over sound trees, and let the functions `fs`, and those that are pending in `a` and `b`, be
continuations. Then binding `fs` to the choice of `a` and `b` and building it, and binding `fs` to
the choice between what `a` and `b` build, give the same trees. If something fails the latter may be
lost, and then so is the former, unless `b` alone is to blame.

The choice is lazy: its run is a run of `a` to what it builds, and from there a run of the functions
on that tree or, if it is the failed one, on `b`. -/
theorem build_alt (ha : a.Buildable T total) (hb : b.Buildable T total)
    (hfs : Continuations T total fs) :
    ((∃ r u, ((fs.foldl bind (a.alt (.builder b))).build limit).Yields T r ∧
        (buildBoth limit a b fs).Yields T u ∧ Same T total r u) ∨
      (¬ total ∧ (buildBoth limit a b fs).Lost T ∧
        (((fs.foldl bind (a.alt (.builder b))).build limit).Lost T ∨ (b.build limit).Lost T))) ∧
    ∀ w t w', (a.build limit).runIn w = some (.ok t, w') →
      (t ≠ .tree .failed → ((fs.foldl bind (a.alt (.builder b))).build limit).runIn w =
        ((fs.foldl bind (.of t)).build limit).runIn w') ∧
      (t = .tree .failed → ((fs.foldl bind (a.alt (.builder b))).build limit).runIn w =
        ((fs.foldl bind b).build limit).runIn w') := by
  refine ⟨?_, fun w t w' left => ⟨fun known => ?_, fun failed => ?_⟩⟩
  · rcases materialize_cases ha.ownQueue ha.sound with ⟨t, left⟩ | ⟨notTotal, lost⟩
    · obtain ⟨t, rfl⟩ := (left.ready ha.ownQueue ha.sound.ready).exists_tree
      by_cases known : t = .failed
      · subst known
        rcases build_alt_of_failed left.yields hb hfs with same | ⟨notTotal, lost, lost'⟩
        · exact .inl same
        · exact .inr ⟨notTotal, lost, .inl lost'⟩
      · rcases build_alt_of_ne ha left known hb hfs with ⟨r, choice, both⟩ | lost
        · exact .inl ⟨r, r, choice, both, Same.refl r⟩
        · exact .inr lost
    · exact .inr ⟨notTotal, lost.bind _, .inl (lost_build_foldl_alt_left lost)⟩
  · rw [runIn_build_foldl_alt, left]
    dsimp only
    rw [chosen_of_ne known]
  · subst failed
    rw [runIn_build_foldl_alt, left]
    rfl

/-! ### A choice in a dialogue -/

/-- A choice of two builders that fail. -/
def silent : Builder := (of (.tree .failed)).alt (.builder (.of (.tree .failed)))

/-- Asks what to say, with a pending function. -/
def curious : Builder := (of (Dialogue.ask Dialogue.echo)).bind (.frame .pure)

open Dialogue in
/-- The left side is itself a choice, and fails. The right side has a function slot. -/
theorem build_alt_dialogue :
    silent.Buildable table True ∧ curious.Buildable table True ∧
      Continuations table True [.frame (.always (.builder sampleBuilder))] ∧
      ∃ r u, (([.frame (.always (.builder sampleBuilder))].foldl bind
          (silent.alt (.builder curious))).build limit).Yields table r ∧
        (buildBoth limit silent curious
          [.frame (.always (.builder sampleBuilder))]).Yields table u ∧ Same table True r u := by
  have fails : (of (.tree .failed)).Buildable table True :=
    ⟨.of_step .failed, fun g hg => by simp [of, Builder.pending] at hg⟩
  have hsilent : silent.Buildable table True := fails.alt fails
  have hcurious : curious.Buildable table True := ⟨sound_ask_echo, continuation_pure.singleton⟩
  have always : Continuation table True (.frame (.always (.builder sampleBuilder))) :=
    continuation_always (sound_pure _) fun g hg => by
      obtain rfl := List.mem_singleton.mp hg
      exact continuation_pure
  refine ⟨hsilent, hcurious, always.singleton, ?_⟩
  exact (build_alt hsilent hcurious always.singleton).1.resolve_right fun lost => lost.1 trivial

end Builder

end EffectTrees
