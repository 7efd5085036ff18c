import EffectTrees.Proofs.Builder.Chain

/-!
# Builders refine binding

Binding functions to a builder and building it once comes to the same tree as binding them to the
tree one after the other (`Builder.build_refines_bind`).

The builder works on one queue, `q ++ fs`, where `q` is what a builder has put in front of the rest
`fs` of the functions. Binding goes in stages: a builder is built, with its own queue `q`, before
the functions `gs` that correspond to `fs` are bound to the result. The proof relates the two where
they are, at one and the same tree `t` (`Builder.Staged`):

* if the queue comes to something, so do the stages (`Materialized.exists_chain`), and conversely
  (`Chain.exists_materialized`);
* what they come to matches at the root, and is so related again in the slots, also behind a
  function slot for all arguments (`Staged.step`). So the two trees are the same.
-/

namespace EffectTrees

open Machine (limit)

namespace Builder

variable {T : ClassTable} {total : Prop} {fs gs q : List Value} {t : Value}

theorem queueBefore_append (b : Builder) (q fs : List Value) :
    b.queueBefore (q ++ fs) = b.queueBefore q ++ fs := by
  unfold queueBefore
  rw [List.append_assoc]

/-! ### The queue and the stages come to something together -/

/-- If the whole queue comes to something, then so does its first part, and the chain after it. -/
theorem Materialized.exists_chain {queue : List Value} {r : Value}
    (h : Materialized T queue t r) (hqueue : queue = q ++ fs) (hlen : fs.length = gs.length)
    (hc : Continuations T total queue) (ht : Sound T total t) :
    ∃ m y, Materialized T q t m ∧ Chain T fs gs m y := by
  induction h generalizing q fs gs with
  | nil t =>
    obtain ⟨rfl, rfl⟩ := List.append_eq_nil_iff.mp hqueue.symm
    obtain rfl := List.length_eq_zero_iff.mp hlen.symm
    exact ⟨t, t, .nil t, .nil t⟩
  | failed =>
    cases q with
    | nil => exact ⟨_, _, .nil _, .failed hlen⟩
    | cons f q => exact ⟨_, _, .failed, .failed hlen⟩
  | @stop f rest p noNext =>
    cases q with
    | nil =>
      obtain rfl : f :: rest = fs := hqueue
      cases gs with
      | nil => simp at hlen
      | cons g gs =>
        have failed : Chain T rest gs (.tree .failed) (.tree .failed) :=
          .failed (by simpa using hlen)
        exact ⟨_, _, .nil _, .cons (.done (.stop noNext)) failed⟩
    | cons f' q =>
      obtain ⟨rfl, rfl⟩ := List.cons.inj hqueue
      exact ⟨_, _, .stop noNext, .failed hlen⟩
  | @next f rest p b r goesOn after ih =>
    obtain ⟨sound, hafter⟩ := goesOn.continuations hc
    cases q with
    | nil =>
      obtain rfl : f :: rest = fs := hqueue
      cases gs with
      | nil => simp at hlen
      | cons g gs =>
        -- The builder is built on its own first, which is what the bind of `g` makes of the leaf.
        obtain ⟨m, y, built, chain⟩ :=
          ih (queueBefore_append b [] rest) (by simpa using hlen) hafter sound
        have hbuilt := (goesOn.continuations (hc f List.mem_cons_self).singleton).2
        have known : m.isPoison = false := (built.ready hbuilt sound.ready).known
        exact ⟨_, y, .nil _, .cons (.done (.next goesOn built known)) chain⟩
    | cons f' q =>
      obtain ⟨rfl, rfl⟩ := List.cons.inj hqueue
      obtain ⟨m, y, first, chain⟩ := ih (queueBefore_append b q fs) hlen hafter sound
      exact ⟨m, y, .next goesOn first, chain⟩
  | @suspended f rest C d d' contents refills ih =>
    have stages (x) (hx : AtHand T d x) : ∃ m, Materialized T q x m ∧ ∃ y, Chain T fs gs m y := by
      obtain ⟨x', -, hxx'⟩ := refills.atHand_left hx
      obtain ⟨m, y, first, chain⟩ := ih x x' hxx' hqueue hlen hc (ht.atHand hx)
      exact ⟨m, first, y, chain⟩
    cases q with
    | nil =>
      -- The contents are built first, and the chain starts from what has been built.
      obtain ⟨y, chain⟩ := Chain.exists_suspended hlen refills.fillable fun x hx => by
        obtain ⟨m, first, y, chain⟩ := stages x hx
        cases first
        exact ⟨y, chain⟩
      exact ⟨_, y, .nil _, chain⟩
    | cons f' q =>
      obtain ⟨m, refills'⟩ := Refills.exists_of_fillable refills.fillable
        (.after (.frame (.materialize (f' :: q)))) stages
      obtain ⟨y, chain⟩ := Chain.exists_suspended hlen refills'.fillable_right fun m hm => by
        obtain ⟨x, -, -, hy⟩ := refills'.atHand_right hm
        exact hy
      exact ⟨_, y, .suspended (fun x m hxm => hxm.1) refills', chain⟩

/-- What the chain comes to on the contents of a suspended tree. -/
theorem Chain.exists_content {d x r : Value} (h : Chain T fs gs (.tree (.suspended d)) r)
    (hx : AtHand T d x) : ∃ y, Chain T fs gs x y := by
  rcases h.of_suspended with ⟨rfl, rfl⟩ | ⟨d', rfl, refills⟩
  · cases h
    exact ⟨x, .nil x⟩
  · obtain ⟨y, -, hy⟩ := refills.atHand_left hx
    exact ⟨y, hy⟩

/-- If a queue comes to something, and then a chain, then so does the whole queue. The induction is
on the chain. -/
theorem Chain.exists_materialized {m y : Value} (first : Materialized T q t m)
    (chain : Chain T fs gs m y) : ∃ r, Materialized T (q ++ fs) t r := by
  induction fs generalizing gs q t m y with
  | nil =>
    rw [List.append_nil]
    exact ⟨m, first⟩
  | cons f fs ih =>
    cases chain with
    | @cons _ g _ gs _ u _ bound rest =>
      induction first generalizing u y with
      | nil t =>
        rw [List.nil_append]
        -- The builder's own queue is empty, so `f` comes next. The induction is on what is at hand.
        induction bound generalizing y with
        | failed => exact ⟨_, .failed⟩
        | done leaf =>
          cases leaf with
          | stop noNext => exact ⟨_, .stop noNext⟩
          | @next b _ goesOn built known =>
            obtain ⟨r, after⟩ := ih built rest
            rw [← queueBefore_append] at after
            exact ⟨r, .next goesOn after⟩
        | @suspended C d d' contents refills ihbound =>
          obtain ⟨r, hr⟩ := Refills.exists_of_fillable refills.fillable
            (.after (.frame (.materialize (f :: fs)))) fun x hx => by
              obtain ⟨u, hu, hxu⟩ := refills.atHand_left hx
              obtain ⟨y, hy⟩ := rest.exists_content hu
              exact ihbound x u hxu hy
          exact ⟨_, .suspended (fun _ _ h => h) hr⟩
      | failed => exact ⟨_, .failed⟩
      | stop noNext => exact ⟨_, .stop noNext⟩
      | @next f' q p b m goesOn after ihfirst =>
        -- `f'` is of the builder's own queue, and what it leaves is still before `f`.
        obtain ⟨r, hr⟩ := ihfirst bound rest
        rw [← queueBefore_append] at hr
        exact ⟨r, .next goesOn hr⟩
      | @suspended f' q C d d' contents refills ihfirst =>
        obtain ⟨d₁, rfl, refills'⟩ := bound.of_suspended
        obtain ⟨r, hr⟩ := Refills.exists_of_fillable refills.fillable
          (.after (.frame (.materialize (f' :: q ++ f :: fs)))) fun x hx => by
            obtain ⟨m, hm, hxm⟩ := refills.atHand_left hx
            obtain ⟨u, hu, hmu⟩ := refills'.atHand_left hm
            obtain ⟨y, hy⟩ := rest.exists_content hu
            exact ihfirst x m hxm hmu hy
        exact ⟨_, .suspended (fun _ _ h => h) hr⟩

/-! ### The stages behind a function slot -/

/-- The function of a function slot with a builder's queue behind it. -/
def builtAfter (q : List Value) (h : Value) : Value :=
  match q with
  | [] => h
  | _ => .after (.frame (.materialize q)) h

theorem limit_builtAfter (q : List Value) (h : Value) (args : List Value) :
    limit (builtAfter q h) args = limit h args >>= materialize limit q := by
  cases q with
  | nil => exact (bind_pure _).symm
  | cons f q =>
    rw [builtAfter, Value.after, Machine.limit_after]
    · exact congrArg _ (funext fun v => limit_materialize (f :: q) v)
    · simp

/-- What the stages come to. -/
def Stages (T : ClassTable) (q fs gs : List Value) (t y : Value) : Prop :=
  ∃ m, Materialized T q t m ∧ Chain T fs gs m y

/-- On a suspended tree the stages run in the slots. -/
theorem Stages.of_suspended {d y : Value} (h : Stages T q fs gs (.tree (.suspended d)) y)
    (hlen : fs.length = gs.length) (some : q ++ fs ≠ []) :
    ∃ d', y = .tree (.suspended d') ∧
      Refills T (Stages T q fs gs) (bindsAfter gs ∘ builtAfter q) d d' := by
  obtain ⟨m, first, chain⟩ := h
  cases q with
  | nil =>
    cases first
    rcases chain.of_suspended with ⟨rfl, -⟩ | ⟨d', rfl, refills⟩
    · exact absurd (List.length_eq_zero_iff.mp hlen) some
    · exact ⟨d', rfl, refills.mono fun x y _ hxy => ⟨x, .nil x, hxy⟩⟩
  | cons f q =>
    cases first with
    | @suspended _ _ C _ d₁ contents refills =>
      rcases chain.of_suspended with ⟨rfl, rfl⟩ | ⟨d', rfl, refills'⟩
      · obtain rfl := List.length_eq_zero_iff.mp hlen
        exact ⟨d₁, rfl, refills.mono fun x m _ hxm => ⟨m, contents x m hxm, .nil m⟩⟩
      · refine ⟨d', rfl, (refills.comp refills').mono fun x y _ hxy => ?_⟩
        obtain ⟨m, hxm, hmy⟩ := hxy
        exact ⟨m, contents x m hxm, hmy⟩

/-! ### The same trees -/

/-- The first tree is what a queue comes to, and the second one what the stages come to, on one
sound tree. -/
inductive Staged (T : ClassTable) (total : Prop) : Value → Value → Prop where
  | mk {q fs gs : List Value} {t r y : Value} (sound : Sound T total t)
      (continuations : Continuations T total (q ++ fs))
      (rebuilds : List.Forall₂ (Rebuilds T) fs gs) (whole : Materialized T (q ++ fs) t r)
      (stages : Stages T q fs gs t y) : Staged T total r y

/-- Nothing comes of binding functions to the unknown argument. -/
theorem yields_probe_bindAll_poison (gs : List Value) :
    (probe (bindAll limit gs .poison)).Yields T none := by
  cases gs with
  | nil => exact Act.yields_probe_poison
  | cons g gs =>
    have aborts : bindAll limit (g :: gs) .poison = Act.abort := by
      rw [bindAll_cons]
      rfl
    rw [aborts]
    exact Act.yields_probe_abort

theorem materialize_poison (call : Caller) (queue : List Value) :
    materialize call queue .poison = Pure.pure .poison := by
  cases queue <;> rfl

/-- Nothing comes of binding a queue to the unknown argument. -/
theorem yields_probe_materialize_poison (queue : List Value) :
    (probe (materialize limit queue .poison)).Yields T none := by
  rw [materialize_poison]
  exact Act.yields_probe_poison

/-- What the stages run comes to what the relation says, or fails. -/
theorem faultOr_stages (hc : Continuations T total (q ++ fs))
    (rebuilds : List.Forall₂ (Rebuilds T) fs gs) (ht : Sound T total t) :
    (materialize limit q t >>= bindAll limit gs).FaultOr T (Stages T q fs gs t) := by
  exact (faultOr_materialize hc.left ht.ready).bind fun m first =>
    (faultOr_chain rebuilds hc.right (first.ready hc.left ht.ready)).mono fun y chain =>
      ⟨m, first, chain⟩

theorem Stages.known (hc : Continuations T total (q ++ fs)) (ht : Sound T total t) {y : Value}
    (h : Stages T q fs gs t y) : y.isPoison = false := by
  obtain ⟨m, first, chain⟩ := h
  exact (chain.ready hc.right (first.ready hc.left ht.ready)).known

theorem Stages.yields (rebuilds : List.Forall₂ (Rebuilds T) fs gs) {y : Value}
    (h : Stages T q fs gs t y) : (materialize limit q t >>= bindAll limit gs).Yields T y := by
  obtain ⟨m, first, chain⟩ := h
  exact first.yields.bind (chain.yields rebuilds)

/-- **The queue and the stages on one sound tree**: either both come to trees that are so related,
or both are lost, and then something failed. -/
theorem materialize_staged (hc : Continuations T total (q ++ fs))
    (rebuilds : List.Forall₂ (Rebuilds T) fs gs) (ht : Sound T total t) :
    (∃ r y, Materialized T (q ++ fs) t r ∧ Stages T q fs gs t y) ∨
      (¬ total ∧ (materialize limit (q ++ fs) t).Lost T ∧
        (materialize limit q t >>= bindAll limit gs).Lost T) := by
  rcases materialize_cases hc ht with ⟨r, whole⟩ | ⟨notTotal, lost⟩
  · obtain ⟨m, y, first, chain⟩ := whole.exists_chain rfl rebuilds.length_eq hc ht
    exact .inl ⟨r, y, whole, m, first, chain⟩
  · refine .inr ⟨notTotal, lost, (faultOr_stages hc rebuilds ht).lost fun y stages => ?_⟩
    obtain ⟨m, first, chain⟩ := stages
    obtain ⟨r, whole⟩ := chain.exists_materialized first
    exact whole.yields.not_lost lost

/-- After any computation that settles with a sound tree, the queue and the stages are alike. -/
theorem alike_stages {a : Act Value} {o : Ending Value} {mayFail : Prop} (settles : a.Settles T o)
    (values : ∀ v, o = some (.ok v) → v = .poison ∨ Sound T total v)
    (may : ¬ (total ∧ o.Answers) → mayFail) (hc : Continuations T total (q ++ fs))
    (rebuilds : List.Forall₂ (Rebuilds T) fs gs) :
    Alike T mayFail (Staged T total) (a >>= materialize limit (q ++ fs))
      (a >>= fun t => materialize limit q t >>= bindAll limit gs) := by
  refine .of_sound settles values may (fun t ht => ?_) (yields_probe_materialize_poison _) ?_
  · rcases materialize_staged hc rebuilds ht with ⟨r, y, whole, stages⟩ | ⟨notTotal, lost, lost'⟩
    · exact .values whole.yields (stages.yields rebuilds) (whole.ready hc ht.ready).known
        (stages.known hc ht) (.mk ht hc rebuilds whole stages)
    · exact .lost notTotal lost lost'
  · rw [materialize_poison, pure_bind]
    exact yields_probe_bindAll_poison gs

theorem Next.unique {p : Payload} {f : Value} {r r' : Option Builder} (h : Next T p f r)
    (h' : Next T p f r') : r = r' := h.yields.unique h'.yields

/-- What the queue and the stages come to matches at the root and is so related in the slots. The
induction is on what the queue comes to. -/
theorem Materialized.step {queue : List Value} {r y : Value} (whole : Materialized T queue t r)
    (hqueue : queue = q ++ fs) (ht : Sound T total t) (hc : Continuations T total queue)
    (rebuilds : List.Forall₂ (Rebuilds T) fs gs) (stages : Stages T q fs gs t y) :
    Same.Step T total (Staged T total) r y := by
  induction whole generalizing q fs gs y with
  | nil t =>
    obtain ⟨rfl, rfl⟩ := List.append_eq_nil_iff.mp hqueue.symm
    obtain ⟨m, first, chain⟩ := stages
    cases first
    cases chain
    exact .refl _
  | failed =>
    obtain ⟨m, first, chain⟩ := stages
    obtain rfl : m = .tree .failed := by cases first <;> rfl
    rw [chain.of_failed]
    exact .refl _
  | @stop f rest p noNext =>
    obtain ⟨m, first, chain⟩ := stages
    -- The queue stops at this payload, so the stages cannot have gone on from it.
    cases first with
    | nil =>
      obtain rfl : f :: rest = fs := hqueue
      cases chain with
      | cons bound chain =>
        cases bound with
        | done leaf =>
          cases leaf with
          | stop _ =>
            rw [chain.of_failed]
            exact .refl _
          | next goesOn _ _ => exact absurd (noNext.unique goesOn) (by simp)
    | stop _ =>
      rw [chain.of_failed]
      exact .refl _
    | next goesOn _ =>
      obtain ⟨rfl, -⟩ := List.cons.inj hqueue
      exact absurd (noNext.unique goesOn) (by simp)
  | @next f rest p b r goesOn after ih =>
    obtain ⟨sound, hafter⟩ := goesOn.continuations hc
    obtain ⟨m, first, chain⟩ := stages
    cases first with
    | nil =>
      obtain rfl : f :: rest = fs := hqueue
      cases chain with
      | @cons _ g _ gs _ u _ bound chain =>
        cases bound with
        | done leaf =>
          cases leaf with
          | stop noNext => exact absurd (noNext.unique goesOn) (by simp)
          | next goesOn' built _ =>
            -- Both go on with the same builder: the queue at once, and the stages inside the leaf.
            obtain rfl := Option.some.inj (goesOn.unique goesOn')
            cases rebuilds with
            | cons _ rebuilds =>
              exact ih (queueBefore_append b [] rest) sound hafter rebuilds ⟨u, built, chain⟩
    | stop noNext =>
      obtain ⟨rfl, -⟩ := List.cons.inj hqueue
      exact absurd (noNext.unique goesOn) (by simp)
    | @next _ q _ b' _ goesOn' first =>
      obtain ⟨rfl, rfl⟩ := List.cons.inj hqueue
      obtain rfl := Option.some.inj (goesOn.unique goesOn')
      exact ih (queueBefore_append b q fs) sound hafter rebuilds ⟨m, first, chain⟩
  | @suspended f rest C d d₁ contents refills _ =>
    obtain ⟨d₂, rfl, refills'⟩ := stages.of_suspended rebuilds.length_eq (by simp [← hqueue])
    refine .of_refills refills refills' (fun x y z hx hxy hxz => ?_) fun n h hb args => ?_
    · exact .mk (ht.atHand hx) (hqueue ▸ hc) rebuilds (hqueue ▸ contents x y hxy) hxz
    · cases ht.step with
      | suspended _ behind _ =>
        obtain ⟨o, settles, ends, values⟩ := behind n h hb args
        -- Behind a function slot both run on what the function of the slot gives.
        change Alike T _ _ (limit (builtAfter (f :: rest) h) args)
          (limit (bindsAfter gs (builtAfter q h)) args)
        rw [limit_builtAfter, limit_bindsAfter, limit_builtAfter, bind_assoc, hqueue]
        exact alike_stages settles values (fun may htotal hn => may ⟨htotal, ends htotal hn⟩)
          (hqueue ▸ hc) rebuilds

theorem Staged.same {r y : Value} (h : Staged T total r y) : Same T total r y := by
  refine ⟨Staged T total, fun r y hry => ?_, h⟩
  cases hry with
  | mk sound continuations rebuilds whole stages =>
    exact whole.step rfl sound continuations rebuilds stages

/-! ### The refinement -/

/-- A builder with functions bound to it has them in its queue, in order. -/
theorem build_foldl (call : Caller) (fs : List Value) (b : Builder) :
    (fs.foldl bind b).build call = materialize call (b.queueBefore fs) b.tree := by
  have collects : (fs.foldl bind b).queueBefore [] = b.queueBefore fs ∧
      (fs.foldl bind b).tree = b.tree := by
    induction fs generalizing b with
    | nil => exact ⟨rfl, rfl⟩
    | cons f fs ih =>
      obtain ⟨queue, tree⟩ := ih (b.bind f)
      exact ⟨by rw [List.foldl_cons, queue, queueBefore_bind], by rw [List.foldl_cons, tree]; rfl⟩
  obtain ⟨queue, tree⟩ := collects
  rw [build, queue, tree]

theorem build_foldl_bind (call : Caller) (fs : List Value) (t : Value) :
    (fs.foldl bind (.of t)).build call = materialize call fs t := build_foldl call fs (.of t)

/-- **A builder refines binding.** Let `fs` be continuations, and let each of `gs` give what the
corresponding function of `fs` gives, with the tree that it builds in the place of a builder. Then
binding `fs` to a builder of a sound tree and building it, and binding `gs` to the tree one after
the other, give the same trees, or both are lost. They are not lost if no callback fails and no
continuation brings itself back. -/
theorem build_refines_bind (ht : Sound T total t) (hfs : ∀ f ∈ fs, Continuation T total f)
    (hgs : List.Forall₂ (Rebuilds T) fs gs) :
    (∃ r u, ((fs.foldl bind (.of t)).build limit).Yields T r ∧
      (bindAll limit gs t).Yields T u ∧ Same T total r u) ∨
    (¬ total ∧ ((fs.foldl bind (.of t)).build limit).Lost T ∧
      (bindAll limit gs t).Lost T) := by
  rw [build_foldl_bind]
  have hstages : materialize limit [] t >>= bindAll limit gs = bindAll limit gs t := pure_bind t _
  rcases materialize_staged (q := []) hfs hgs ht with
    ⟨r, u, whole, stages⟩ | ⟨notTotal, lost, lost'⟩
  · refine .inl ⟨r, u, whole.yields, ?_, (Staged.mk (q := []) ht hfs hgs whole stages).same⟩
    exact hstages ▸ stages.yields hgs
  · exact .inr ⟨notTotal, lost, hstages ▸ lost'⟩

/-! ### A builder behind a continuation -/

/-- A list of a finished and a failed tree. -/
def sampleTree : Value :=
  .tree (.suspended (.list [.tree (Tree.pure (.int 1)), .tree .failed]))

/-- A builder with a pending function of its own. -/
def sampleBuilder : Builder := .mk (.tree (Tree.pure .unit)) [.frame .pure]

theorem sound_sampleTree : Sound T total sampleTree := by
  refine .of_step (.suspended (fun x hx => ?_) (fun n g hg => ?_) fun _ => .list _)
  · cases hx with
    | item mem =>
      rcases List.mem_cons.mp mem with rfl | mem
      · exact sound_pure _
      · obtain rfl := List.mem_singleton.mp mem
        exact .of_step .failed
  · cases hg

theorem next_pure (v : Value) (known : v.isPoison = false) :
    Next T (.resolved v) (.frame .pure) (some (.of (.tree (Tree.pure v)))) := by
  refine .tree (v := v) ((Act.yields_pure v).probe known) ?_
  rw [Machine.limit_frame]
  exact Act.yields_pure _

theorem build_refines_bind_sample :
    Sound (.initial []) True sampleTree ∧
      (∃ r u, (([.frame .pure, .frame (.always (.builder sampleBuilder))].foldl bind
          (.of sampleTree)).build limit).Yields (.initial []) r ∧
        (bindAll limit [.frame .pure, .frame (.always (.tree (Tree.pure .unit)))]
          sampleTree).Yields (.initial []) u ∧ Same (.initial []) True r u) := by
  have always : Continuation (.initial []) True (.frame (.always (.builder sampleBuilder))) :=
    continuation_always (sound_pure _) fun g hg => by
      obtain rfl := List.mem_singleton.mp hg
      exact continuation_pure
  have built : (sampleBuilder.build limit).Yields (.initial []) (.tree (Tree.pure .unit)) :=
    Materialized.yields (.next (next_pure .unit rfl) (.nil _))
  refine ⟨sound_sampleTree,
    (build_refines_bind sound_sampleTree (fun f hf => ?_) (.cons (fun v => ?_)
      (.cons (fun v => ?_) .nil))).resolve_right fun lost => lost.1 trivial⟩
  · rcases List.mem_cons.mp hf with rfl | hf
    · exact continuation_pure
    · obtain rfl := List.mem_singleton.mp hf
      exact always
  · rw [Machine.limit_frame]
    exact Act.EndsAs.of_yields (Act.yields_pure _) ((Act.yields_pure _).bind (Act.yields_pure _))
  · rw [Machine.limit_frame, Machine.limit_frame]
    exact Act.EndsAs.of_yields (Act.yields_pure _) ((Act.yields_pure _).bind built)

end Builder

end EffectTrees
