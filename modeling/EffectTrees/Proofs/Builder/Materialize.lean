import EffectTrees.Proofs.Tree.Graft

/-!
# What a builder builds

A *continuation* is a function that can be bound to a builder: for every value it gives a sound
tree, or a builder over one whose pending functions are continuations again, or the unknown
argument, or it aborts (`Builder.Continuation`). With `total`, it may not fail either, and a builder
that it gives cannot bring it back: the relation "is pending in a builder that the function gives"
is well founded below it.

`Builder.Materialized T queue t r` says what binding a queue of continuations to a tree comes to:
where the tree is finished the first function of the queue goes on (`Builder.Next`), and the
functions that its builder has pending come before the rest of the queue.

* `Builder.Materialized.yields` — the operation gives what the relation says;
* `Builder.faultOr_materialize` — on a tree that is ready it comes to nothing else, unless it fails;
* `Builder.exists_materialized` — with `total` there is something to come to.
-/

namespace EffectTrees

open Machine (limit call)

namespace Builder

variable {T : ClassTable} {total : Prop}

/-! ### Continuations -/

/-- What a continuation may return. -/
inductive Returnable (T : ClassTable) (total : Prop) (P : Value → Prop) : Value → Prop where
  | poison : Returnable T total P .poison
  | tree {t : Tree} (sound : Sound T total (.tree t)) : Returnable T total P (.tree t)
  | builder {b : Builder} (sound : Sound T total b.tree) (pending : ∀ g ∈ b.pending, P g) :
      Returnable T total P (.builder b)

/-- The function settles for all values and returns what may be returned. -/
def Continuation.Step (T : ClassTable) (total : Prop) (P : Value → Prop) (f : Value) : Prop :=
  ∀ v, ∃ o, (limit f [v]).Settles T o ∧ (total → o.Answers) ∧
    ∀ r, o = some (.ok r) → Returnable T total P r

/-- The function `g` is pending in a builder that the function `f` gives. -/
def Pends (T : ClassTable) (g f : Value) : Prop :=
  ∃ v b, (limit f [v]).Yields T (.builder b) ∧ g ∈ b.pending

/-- **Continuations.** -/
structure Continuation (T : ClassTable) (total : Prop) (f : Value) : Prop where
  steps : ∃ P, (∀ f, P f → Continuation.Step T total P f) ∧ P f
  ends : total → Acc (Pends T) f

theorem Returnable.mono {P Q : Value → Prop} {r : Value} (h : Returnable T total P r)
    (hPQ : ∀ b, r = .builder b → ∀ g ∈ b.pending, P g → Q g) : Returnable T total Q r := by
  cases h with
  | poison => exact .poison
  | tree sound => exact .tree sound
  | @builder b sound pending =>
    exact .builder sound fun g hg => hPQ b rfl g hg (pending g hg)

theorem Continuation.step {f : Value} (h : Continuation T total f) :
    Continuation.Step T total (Continuation T total) f := by
  obtain ⟨⟨P, closed, hf⟩, ends⟩ := h
  intro v
  obtain ⟨o, settles, answers, returns⟩ := closed f hf v
  refine ⟨o, settles, answers, fun r hr => (returns r hr).mono ?_⟩
  rintro b rfl g hg hPg
  refine ⟨⟨P, closed, hPg⟩, fun ht => (ends ht).inv ⟨v, b, ?_, hg⟩⟩
  rw [← Act.settles_ok_iff, ← hr]
  exact settles

/-- A function that gives one and the same sound tree or builder is a continuation. -/
theorem continuation_of_yields {f : Value} {r : Value → Value}
    (gives : ∀ v, (limit f [v]).Yields T (r v))
    (returns : ∀ v, Returnable T total (Continuation T total) (r v)) : Continuation T total f := by
  have step : Continuation.Step T total (Continuation T total) f := fun v =>
    ⟨_, (gives v).settles, fun _ => .inl ⟨r v, rfl⟩, fun r' hr => by
      obtain rfl : r v = r' := by simpa using hr
      exact returns v⟩
  -- Beside `f` itself all continuations may turn up, pending in what it gives.
  refine ⟨⟨fun g => g = f ∨ Continuation T total g, fun g hg => ?_, .inl rfl⟩, fun ht => ?_⟩
  · intro v
    obtain ⟨o, settles, answers, returns⟩ : ∃ o, (limit g [v]).Settles T o ∧
        (total → o.Answers) ∧ ∀ r, o = some (.ok r) →
          Returnable T total (Continuation T total) r := by
      rcases hg with rfl | hg
      · exact step v
      · exact hg.step v
    exact ⟨o, settles, answers, fun r hr => (returns r hr).mono fun _ _ _ _ h => .inr h⟩
  · refine ⟨f, fun g hg => ?_⟩
    obtain ⟨v, b, yields, hg⟩ := hg
    have hb := returns v
    rw [(gives v).unique yields] at hb
    cases hb with
    | builder _ pending => exact (pending g hg).ends ht

theorem continuation_pure : Continuation T total (.frame .pure) := by
  refine continuation_of_yields (r := fun v => .tree (Tree.pure v)) (fun v => ?_) fun v =>
    .tree (sound_pure v)
  rw [Machine.limit_frame]
  exact Act.yields_pure _

theorem continuation_always {b : Builder} (sound : Sound T total b.tree)
    (pending : ∀ g ∈ b.pending, Continuation T total g) :
    Continuation T total (.frame (.always (.builder b))) := by
  refine continuation_of_yields (r := fun _ => .builder b) (fun v => ?_) fun v =>
    .builder sound pending
  rw [Machine.limit_frame]
  exact Act.yields_pure _

/-! ### Going on from a payload -/

/-- The builder to go on with from the content of a payload, if there is one. -/
inductive Next (T : ClassTable) (p : Payload) (f : Value) : Option Builder → Prop where
  | noValue (value : (p.resolve limit).Yields T none) : Next T p f none
  | noResult {v : Value} (value : (p.resolve limit).Yields T (some v))
      (result : (probe (limit f [v])).Yields T none) : Next T p f none
  | tree {v : Value} {t : Tree} (value : (p.resolve limit).Yields T (some v))
      (result : (limit f [v]).Yields T (.tree t)) : Next T p f (some (.of (.tree t)))
  | builder {v : Value} {b : Builder} (value : (p.resolve limit).Yields T (some v))
      (result : (limit f [v]).Yields T (.builder b)) : Next T p f (some b)

theorem Next.yields {p : Payload} {f : Value} {r : Option Builder} (h : Next T p f r) :
    (next limit p f).Yields T r := by
  cases h with
  | noValue value => exact value.bind (Act.yields_pure none)
  | noResult value result => exact value.bind (result.bind (Act.yields_pure none))
  | tree value result => exact value.bind ((result.probe rfl).bind (Act.yields_pure _))
  | builder value result => exact value.bind ((result.probe rfl).bind (Act.yields_pure _))

/-- From a payload that settles a continuation goes on, unless one of the two fails. -/
theorem next_cases {p : Payload} {o : Ending Value} {f : Value}
    (settles : (p.force limit).Settles T o) (ends : total → o.Answers)
    (hf : Continuation T total f) :
    (∃ r, Next T p f r) ∨ (¬ total ∧ (next limit p f).Lost T) := by
  rcases resolve_cases settles with ⟨v, value⟩ | nothing | ⟨noAnswer, lost⟩
  · obtain ⟨o', settles', answers, returns⟩ := hf.step v
    rcases settles'.cases with ⟨r, rfl, known, result⟩ | nothing | ⟨noAnswer, lost⟩
    · cases returns r rfl with
      | poison => simp [Value.isPoison] at known
      | tree sound => exact .inl ⟨_, .tree value result⟩
      | builder sound pending => exact .inl ⟨_, .builder value result⟩
    · exact .inl ⟨_, .noResult value nothing⟩
    · exact .inr ⟨fun ht => noAnswer (answers ht), value.bind_lost (lost.probe.bind _)⟩
  · exact .inl ⟨_, .noValue nothing⟩
  · exact .inr ⟨fun ht => noAnswer (ends ht), lost.bind _⟩

/-- What a continuation goes on with is a builder over a sound tree, and continuations are pending
in it. -/
theorem Next.sound {p : Payload} {f : Value} {b : Builder} (h : Next T p f (some b))
    (hf : Continuation T total f) :
    Sound T total b.tree ∧ ∀ g ∈ b.pending, Continuation T total g ∧ Pends T g f := by
  cases h with
  | @tree v t value result =>
    obtain ⟨o, settles, -, returns⟩ := hf.step v
    obtain rfl := settles.unique result.settles
    cases returns _ rfl with
    | tree sound => exact ⟨sound, fun g hg => by simp [pending, of] at hg⟩
  | @builder v _ value result =>
    obtain ⟨o, settles, -, returns⟩ := hf.step v
    obtain rfl := settles.unique result.settles
    cases returns _ rfl with
    | builder sound pending => exact ⟨sound, fun g hg => ⟨pending g hg, v, b, result, hg⟩⟩

/-! ### Binding a queue of continuations -/

/-- The second tree is what binding the queue to the first one comes to. -/
inductive Materialized (T : ClassTable) : List Value → Value → Value → Prop where
  | nil (t : Value) : Materialized T [] t t
  | failed {f : Value} {rest : List Value} :
      Materialized T (f :: rest) (.tree .failed) (.tree .failed)
  | stop {f : Value} {rest : List Value} {p : Payload} (noNext : Next T p f none) :
      Materialized T (f :: rest) (.tree (.done p)) (.tree .failed)
  | next {f : Value} {rest : List Value} {p : Payload} {b : Builder} {r : Value}
      (goesOn : Next T p f (some b)) (after : Materialized T (b.queueBefore rest) b.tree r) :
      Materialized T (f :: rest) (.tree (.done p)) r
  | suspended {f : Value} {rest : List Value} {C : Value → Value → Prop} {d d' : Value}
      (contents : ∀ x y, C x y → Materialized T (f :: rest) x y)
      (refills : Refills T C (.after (.frame (.materialize (f :: rest)))) d d') :
      Materialized T (f :: rest) (.tree (.suspended d)) (.tree (.suspended d'))

theorem limit_materialize (queue : List Value) (t : Value) :
    limit (.frame (.materialize queue)) [t] = materialize limit queue t := by
  rw [Machine.limit_frame]
  rfl

theorem Materialized.yields {queue : List Value} {t r : Value} (h : Materialized T queue t r) :
    (materialize limit queue t).Yields T r := by
  induction h with
  | nil t => exact Act.yields_pure t
  | failed => exact Act.yields_pure _
  | stop noNext => exact noNext.yields.bind (Act.yields_pure _)
  | next goesOn after ih =>
    refine goesOn.yields.bind ?_
    dsimp only
    rw [limit_materialize]
    exact ih
  | suspended contents refills ih =>
    exact (refills.yields_fmap fun x y hxy => limit_materialize _ x ▸ ih x y hxy).bind
      (Act.yields_pure _)

/-- All functions of the queue are continuations. -/
def Continuations (T : ClassTable) (total : Prop) (queue : List Value) : Prop :=
  ∀ f ∈ queue, Continuation T total f

theorem Continuation.singleton {f : Value} (hf : Continuation T total f) :
    Continuations T total [f] := fun g hg => by
  obtain rfl := List.mem_singleton.mp hg
  exact hf

theorem Continuations.tail {f : Value} {rest : List Value}
    (h : Continuations T total (f :: rest)) : Continuations T total rest :=
  fun g hg => h g (List.mem_cons_of_mem f hg)

theorem Continuations.left {q fs : List Value} (h : Continuations T total (q ++ fs)) :
    Continuations T total q := fun g hg => h g (List.mem_append_left fs hg)

theorem Continuations.right {q fs : List Value} (h : Continuations T total (q ++ fs)) :
    Continuations T total fs := fun g hg => h g (List.mem_append_right q hg)

theorem Continuations.queueBefore {b : Builder} {queue : List Value}
    (hb : ∀ g ∈ b.pending, Continuation T total g) (hq : Continuations T total queue) :
    Continuations T total (b.queueBefore queue) := fun g hg => by
  unfold Builder.queueBefore at hg
  rcases List.mem_append.mp hg with hg | hg
  · exact hb g (List.mem_reverse.mp hg)
  · exact hq g hg

/-- What a continuation goes on with is a builder over a sound tree, and the queue that it leaves
consists of continuations. -/
theorem Next.continuations {p : Payload} {f : Value} {rest : List Value} {b : Builder}
    (goesOn : Next T p f (some b)) (hc : Continuations T total (f :: rest)) :
    Sound T total b.tree ∧ Continuations T total (b.queueBefore rest) := by
  obtain ⟨sound, pending⟩ := goesOn.sound (hc f List.mem_cons_self)
  exact ⟨sound, .queueBefore (fun g hg => (pending g hg).1) hc.tail⟩

/-- Within any depth of calls, binding continuations to a tree that is ready fails or comes to what
the relation says. The induction is on the depth. -/
theorem faultOr_call_materialize (n : Nat) {queue : List Value} (hq : Continuations T total queue)
    {t : Value} (ht : Ready T total t) :
    (call n (.frame (.materialize queue)) [t]).FaultOr T (Materialized T queue t) := by
  induction n generalizing queue t with
  | zero =>
    intro w hw r w' hr
    simp at hr
  | succ n ih =>
    -- The calls in here are one less deep, and for those the statement is known.
    change (materialize (call n) queue t).FaultOr T (Materialized T queue t)
    cases queue with
    | nil => exact Act.faultOr_pure (.nil t)
    | cons f rest =>
      cases ht with
      | failed => exact Act.faultOr_pure .failed
      | @done p o settles ends =>
        have next : (next limit p f).FaultOr T (Next T p f) := by
          rcases next_cases settles ends (hq f List.mem_cons_self) with ⟨r, hr⟩ | ⟨-, lost⟩
          · exact hr.yields.faultOr hr
          · exact lost.faultOr
        refine (next.of_limit (tends_next Machine.tends_limit p f) n).bind fun r hr => ?_
        cases r with
        | none => exact Act.faultOr_pure (.stop hr)
        | some b =>
          obtain ⟨sound, hafter⟩ := hr.continuations hq
          exact (ih hafter sound.ready).mono fun r after => .next hr after
      | @suspended d atHand fillable =>
        exact (faultOr_fmap fun x hx => ih hq (atHand x hx)).bind fun d' refills =>
          Act.faultOr_pure (.suspended (fun _ _ h => h) refills)

theorem faultOr_materialize {queue : List Value} (hq : Continuations T total queue) {t : Value}
    (ht : Ready T total t) : (materialize limit queue t).FaultOr T (Materialized T queue t) := by
  rw [← limit_materialize]
  exact Act.FaultOr.limit (fun n => faultOr_call_materialize n hq ht) (Machine.tends_limit _ _)

/-! ### What is built is ready -/

/-- What is at hand in the tree that is built consists of trees whose payloads settle. -/
theorem Materialized.ready {queue : List Value} {t r : Value} (h : Materialized T queue t r)
    (hq : Continuations T total queue) (ht : Ready T total t) : Ready T total r := by
  induction h with
  | nil t => exact ht
  | failed => exact .failed
  | stop noNext => exact .failed
  | @next f rest p b r goesOn after ih =>
    obtain ⟨sound, hafter⟩ := goesOn.continuations hq
    exact ih hafter sound.ready
  | @suspended f rest C d d' contents refills ih =>
    -- What is at hand in the result comes from something at hand in the tree, which is ready.
    have both := refills.mono (D := fun x y => AtHand T d x ∧ C x y) fun x y hx hxy => ⟨hx, hxy⟩
    refine .suspended (fun y hy => ?_) fun _ => refills.fillable_right
    obtain ⟨x, -, hx, hxy⟩ := both.atHand_right hy
    cases ht with
    | suspended atHand _ => exact ih x y hxy hq (atHand x hx)

/-! ### There is something to build -/

/-- Binding the queue to any sound tree comes to something. -/
def Succeeds (T : ClassTable) (queue : List Value) : Prop :=
  ∀ t, Sound T True t → ∃ r, Materialized T queue t r

/-- One more continuation in front of the queue. The induction is on the tree at hand. -/
theorem Succeeds.cons {f : Value} {rest : List Value} (hf : Continuation T True f)
    (goesOn : ∀ p b, Next T p f (some b) → ∃ r, Materialized T (b.queueBefore rest) b.tree r) :
    Succeeds T (f :: rest) := by
  intro t ht
  have ready := ht.ready
  induction ready with
  | failed => exact ⟨_, .failed⟩
  | @done p o settles ends =>
    rcases next_cases settles ends hf with ⟨r, hr⟩ | ⟨notTotal, -⟩
    · cases r with
      | none => exact ⟨_, .stop hr⟩
      | some b =>
        obtain ⟨r, after⟩ := goesOn p b hr
        exact ⟨r, .next hr after⟩
    · exact absurd trivial notTotal
  | @suspended d atHand fillable ih =>
    obtain ⟨d', refills⟩ := Refills.exists_of_fillable (fillable trivial)
      (.after (.frame (.materialize (f :: rest)))) fun x hx => ih x hx (ht.atHand hx)
    exact ⟨_, .suspended (fun _ _ h => h) refills⟩

/-- The functions that a builder has pending come to something in front of a queue that does. -/
theorem succeeds_append {fs : List Value} (hfs : ∀ f ∈ fs, ∀ queue, Succeeds T queue →
    Succeeds T (f :: queue)) {queue : List Value} (hq : Succeeds T queue) :
    Succeeds T (fs ++ queue) := by
  induction fs with
  | nil => exact hq
  | cons f fs ih =>
    exact hfs f List.mem_cons_self _ (ih fun g hg => hfs g (List.mem_cons_of_mem f hg))

/-- A continuation in front of a queue. The induction is on what may be pending in the builders that
the continuation gives. -/
theorem Continuation.succeeds {f : Value} (hf : Continuation T True f) :
    ∀ queue, Succeeds T queue → Succeeds T (f :: queue) := by
  have acc := hf.ends trivial
  induction acc with
  | intro f _ ih =>
    intro queue hq
    refine Succeeds.cons hf fun p b goesOn => ?_
    obtain ⟨sound, pending⟩ := goesOn.sound hf
    -- The pending functions stand below `f`, so each of them may be put in front of the queue.
    refine succeeds_append (fun g hg => ?_) hq b.tree sound
    obtain ⟨continuation, pends⟩ := pending g (List.mem_reverse.mp hg)
    exact ih g pends continuation

/-- **Building comes to something** if no callback fails and no continuation brings itself back. -/
theorem exists_materialized {queue : List Value} (hq : Continuations T True queue) {t : Value}
    (ht : Sound T True t) : ∃ r, Materialized T queue t r := by
  have succeeds : Succeeds T (queue ++ []) :=
    succeeds_append (fun f hf => (hq f hf).succeeds) fun t _ => ⟨t, .nil t⟩
  rw [List.append_nil] at succeeds
  exact succeeds t ht

/-- Binding a queue to a tree comes to something or is lost, and with `total` it is not lost. -/
theorem materialize_cases {queue : List Value} (hq : Continuations T total queue) {t : Value}
    (ht : Sound T total t) :
    (∃ r, Materialized T queue t r) ∨ (¬ total ∧ (materialize limit queue t).Lost T) := by
  by_cases h : ∃ r, Materialized T queue t r
  · exact .inl h
  · refine .inr ⟨fun htotal => h ?_, (faultOr_materialize hq ht.ready).lost fun r hr => h ⟨r, hr⟩⟩
    obtain rfl : total = True := eq_true htotal
    exact exists_materialized hq ht

end Builder

end EffectTrees
