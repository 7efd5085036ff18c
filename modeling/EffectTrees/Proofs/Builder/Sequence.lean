import EffectTrees.Proofs.Analysis.Walk
import EffectTrees.Proofs.Builder.Refinement

/-!
# The analysis of a chain of effects

A chain is built of single effects, each put behind those before it (`Builder.sendAll`). An analysis
of what is built comes by the effects in order. It ends after the first one that cannot be followed,
and if there is none, with what the last one is followed to (`Builder.analyzes_chain`).

What stands in the queue behind an effect has to be bound to whatever the effect is followed to, and
that is not known before the effect is followed. So the queue is looked at on its own first:
`Builder.Concludes` says what an analysis comes to if the queue is bound to a finished tree, with any
value. An effect in front of the queue adds itself to the trace, and passes on what it is followed to
(`Builder.Concludes.exists_send`). For direct slots that is bound at once, and for function slots
behind the function, and both come to the same (`Builder.Lifts.exists_materialized`).
-/

namespace EffectTrees

open Machine (limit)

namespace Builder

variable {T : ClassTable} {d d' e : Value} {q : List Value}

/-! ### Chains of effects -/

/-- The builder of a single effect. -/
def send (call : Caller) (d : Value) : Act Value := Library.run call "Builder.send" [d]

/-- The builder of several effects, each behind those before it. -/
def sendAll (call : Caller) (d : Value) (ds : List Value) : Act Value := do
  ds.foldlM (fun b d => do b.invoke call .andThen [← send call d]) (← send call d)

/-- What is in the queue for an effect that is put behind others. -/
def link (d : Value) : Value := .frame (.always (.builder (.of (.tree (.suspended d)))))

/-- The second descriptor has the content of its slot as the result of a finished tree. -/
abbrev Lifts (T : ClassTable) : Value → Value → Prop :=
  Refills T (fun x y => y = .tree (Tree.pure x)) (.after (.frame .pure))

theorem Lifts.yields_send (h : Lifts T d d') :
    (send limit d).Yields T (.builder (.of (.tree (.suspended d')))) := by
  have mapped : (fmap limit d (.frame .pure)).Yields T d' :=
    h.yields_fmap fun x y hxy => by
      rw [Machine.limit_frame, hxy]
      exact Act.yields_pure _
  have lifted : (Tree.lift limit d).Yields T (.tree (.suspended d')) :=
    mapped.bind (Act.yields_pure _)
  exact lifted.bind (Act.yields_pure _)

/-- The effects that come after the first one end up in the queue, in order. -/
theorem yields_sendAll {ds ds' : List Value} (h : Lifts T d d')
    (each : List.Forall₂ (Lifts T) ds ds') :
    (sendAll limit d ds).Yields T
      (.builder ((ds'.map link).foldl bind (.of (.tree (.suspended d'))))) := by
  have rest (b : Builder) : (ds.foldlM (fun b d => do
        Value.invoke limit b .andThen [← send limit d]) (Value.builder b)).Yields T
      (.builder ((ds'.map link).foldl bind b)) := by
    induction each generalizing b with
    | nil => exact Act.yields_pure _
    | @cons x x' _ _ head _ ih =>
      rw [List.foldlM_cons, List.map_cons, List.foldl_cons]
      have put : (do (Value.builder b).invoke limit .andThen [← send limit x]).Yields T
          (.builder (b.bind (link x'))) :=
        head.yields_send.bind (Act.yields_pure _)
      exact put.bind (ih _)
  exact h.yields_send.bind (rest _)

/-- What a chain of effects builds is made by binding the queue to the first of them. -/
theorem yields_build_sendAll {ds ds' : List Value} {t : Value} (h : Lifts T d d')
    (each : List.Forall₂ (Lifts T) ds ds')
    (built : Materialized T (ds'.map link) (.tree (.suspended d')) t) :
    (sendAll limit d ds >>= fun b => b.invoke limit .build []).Yields T t := by
  refine (yields_sendAll h each).bind ?_
  change (Builder.build limit _).Yields T t
  rw [build_foldl_bind]
  exact built.yields

/-! ### One effect of the chain -/

/-- Binding a queue to a finished tree with the content of the slot. -/
noncomputable def goOn (q : List Value) (v : Value) : Act Value :=
  materialize limit q (.tree (Tree.pure v))

/-- To follow a function slot is to call the function, once it is noted that the class has been
asked for. -/
theorem runIn_locate_function {c : ClassRef} {own : List (String × Value)} {s : Slot} {n : Nat}
    {g : Value} (effect : c.isEffect) (slot : T.slotOf c.id = .ok s) (kind : s.kind = .function n)
    (holds : SlotHolds T c own s g) {w : World} (hw : w.classes = T) :
    (limit Analysis.anyLocator [.descriptor c own]).runIn w =
      (limit g (List.replicate n .poison)).runIn { w with asked := w.asked.add c.id } := by
  subst hw
  rw [Analysis.anyLocator, Machine.limit_locator]
  unfold locate Slot.follow
  dsimp only
  rw [if_pos (show c.isA ClassRef.effect.id from effect), Act.runIn_bind, runIn_slotOf, slot]
  dsimp only
  rw [Act.runIn_bind, runIn_lookup]
  dsimp only
  rw [show w.classes.memberOf? c.id own .scalar s.name = some g from holds, kind]

/-- If one function goes on from the other, then so does following the one from following the other.
-/
theorem endsAs_locate_function {c : ClassRef} {own own' : List (String × Value)} {s : Slot} {n : Nat}
    {g g' : Value} {next : Value → Act Value} (effect : c.isEffect)
    (slot : T.slotOf c.id = .ok s) (kind : s.kind = .function n) (holds : SlotHolds T c own s g)
    (holds' : SlotHolds T c own' s g') (goesOn : ∀ args, limit g' args = limit g args >>= next) :
    Act.EndsAs T (limit Analysis.anyLocator [.descriptor c own'])
      (limit Analysis.anyLocator [.descriptor c own] >>= next) := by
  intro w hw
  rw [Act.runIn_bind, runIn_locate_function effect slot kind holds' hw,
    runIn_locate_function effect slot kind holds hw, goesOn, Act.runIn_bind]

/-- Binding a queue to a lifted effect gives an effect again, which is followed to what binding the
queue to a finished tree gives, with what the effect itself is followed to. -/
theorem Lifts.exists_materialized {c : ClassRef} {own : List (String × Value)}
    (h : Lifts T (.descriptor c own) d') (erased : Erased T (.descriptor c own) e)
    (each : ∀ v, ∃ t : Tree, Materialized T q (.tree (Tree.pure v)) (.tree t)) :
    ∃ d'', Materialized T q (.tree (.suspended d')) (.tree (.suspended d'')) ∧ Erased T d'' e ∧
      Act.EndsAs T (limit Analysis.anyLocator [d''])
        (limit Analysis.anyLocator [.descriptor c own] >>= goOn q) := by
  cases h with
  -- A direct slot holds the finished tree, so the queue is bound inside the slot.
  | @direct _ _ s fill x _ slotted kind holds content =>
    subst content
    obtain ⟨fill', slotted', rfl⟩ := erased.exists_slotted slotted.slot
    obtain ⟨-, rfl⟩ := slotted.unique slotted'
    obtain ⟨t, bound⟩ := each x
    refine ⟨.descriptor c (fill (.tree t)), ?_, slotted.erased_fill _, ?_⟩
    · cases q with
      | nil =>
        cases bound
        exact .nil _
      | cons f rest =>
        exact .suspended (fun _ _ h => h)
          (.direct (slotted.refill _) kind (slotted.holds_fill _) bound)
    · have left := yields_locate_direct slotted.effect slotted.slot kind
        (slotted.holds_fill (.tree t))
      have right := yields_locate_direct slotted.effect slotted.slot kind holds
      exact .of_yields left (right.bind bound.yields)
  -- A function slot gives finished trees, so the queue is composed with the function.
  | @function _ _ s fill g n slotted kind holds =>
    obtain ⟨fill', slotted', rfl⟩ := erased.exists_slotted slotted.slot
    obtain ⟨-, rfl⟩ := slotted.unique slotted'
    have limit_lifted (args : List Value) :
        limit (.after (.frame .pure) g) args = limit g args >>= goOn [] := by
      refine (Machine.limit_after _ _ _).trans (bind_congr fun v => ?_)
      rw [Machine.limit_frame]
      rfl
    cases q with
    | nil =>
      exact ⟨_, .nil _, slotted.erased_fill _, endsAs_locate_function slotted.effect slotted.slot
        kind holds (slotted.holds_fill _) limit_lifted⟩
    | cons f rest =>
      refine ⟨.descriptor c (fill (.after (.frame (.materialize (f :: rest)))
        (.after (.frame .pure) g))), ?_, slotted.erased_fill _, ?_⟩
      · exact .suspended (fun _ _ h => h)
          (.function (slotted.refill _) kind (slotted.holds_fill _))
      · refine endsAs_locate_function slotted.effect slotted.slot kind holds (slotted.holds_fill _)
          fun args => ?_
        calc limit (.after (.frame (.materialize (f :: rest))) (.after (.frame .pure) g)) args
            = limit (.after (.frame .pure) g) args >>=
                fun t => limit (.frame (.materialize (f :: rest))) [t] :=
              Machine.limit_after _ _ _
          _ = limit g args >>= goOn [] >>= materialize limit (f :: rest) := by
            rw [limit_lifted]
            exact bind_congr fun t => limit_materialize _ t
          _ = limit g args >>= goOn (f :: rest) := by
            rw [bind_assoc]
            exact bind_congr fun v => pure_bind _ _

/-! ### The analysis -/

/-- The value, unless it is the unknown argument. -/
def known? (v : Value) : Option Value := if v.isPoison then none else some v

/-- What is computed on probation either ends with a value or aborts, if it does not fail. -/
theorem run_of_probe {a : Act Value} {w w' : World} {r : Option Value}
    (h : (probe a).runIn w = some (.ok r, w')) :
    (∃ v, a.runIn w = some (.ok v, w') ∧ known? v = r) ∨
      (a.runIn w = some (.error .abort, w') ∧ r = none) := by
  rcases probe_cases h with ⟨v, hv, gives⟩ | ⟨hr, aborts | poison⟩ | ⟨f, hf, -⟩
  · obtain rfl : r = some v := by simpa using hv
    exact .inl ⟨v, gives.1, by rw [known?, Value.isPoison_of_ne gives.2]; rfl⟩
  · exact .inr ⟨aborts, by simpa using hr⟩
  · obtain rfl : r = none := by simpa using hr
    exact .inl ⟨.poison, poison, rfl⟩
  · simp at hf

/-- What an analysis comes to if the queue is bound to a finished tree: with a value that is known it
comes to `result` and `trace`, and with the unknown argument it ends at once. -/
def Concludes (T : ClassTable) (q : List Value) (result : Value → Option Value)
    (trace : List Value) : Prop :=
  ∀ v, ∃ t : Tree, Materialized T q (.tree (Tree.pure v)) (.tree t) ∧
    Analysis.Analyzes T Analysis.anyLocator (.tree t) ((known? v).bind result)
      (if (known? v).isSome then trace else [])

theorem concludes_nil : Concludes T [] some [] := by
  intro v
  refine ⟨Tree.pure v, .nil _, ?_⟩
  cases hv : v.isPoison with
  | true =>
    obtain rfl := Value.isPoison_iff.mp hv
    exact .noValue Act.yields_probe_poison
  | false =>
    rw [known?, hv]
    exact .pure v hv

/-- **An effect in front of the queue** adds itself to the trace. If it can be followed, the queue
goes on with what it is followed to. -/
theorem Concludes.exists_send {c : ClassRef} {own : List (String × Value)} {r : Option Value}
    {result : Value → Option Value} {trace : List Value} (rest : Concludes T q result trace)
    (h : Lifts T (.descriptor c own) d') (erased : Erased T (.descriptor c own) e)
    (followed : (probe (limit Analysis.anyLocator [.descriptor c own])).Yields T r) :
    ∃ t : Tree, Materialized T q (.tree (.suspended d')) (.tree t) ∧
      Analysis.Analyzes T Analysis.anyLocator (.tree t) (r.bind result)
        (e :: if r.isSome then trace else []) := by
  obtain ⟨d'', bound, erased', same⟩ := h.exists_materialized erased fun v =>
    (rest v).imp fun t ht => ht.1
  refine ⟨.suspended d'', bound, Analysis.analyzes_iff.mpr fun w hw => ?_⟩
  obtain ⟨w₁, herased, hw₁⟩ := erased'.yields_erase w hw
  obtain ⟨w₂, hfollowed, hw₂⟩ := followed w₁ hw₁
  rcases run_of_probe hfollowed with ⟨v, hv, rfl⟩ | ⟨aborts, rfl⟩
  · obtain ⟨t, ht, analyzes⟩ := rest v
    obtain ⟨w₃, hq, hw₃⟩ := ht.yields w₂ hw₂
    have run : (limit Analysis.anyLocator [.descriptor c own] >>= goOn q).runIn w₁ =
        some (.ok (.tree t), w₃) := by
      rw [Act.runIn_bind, hv]
      exact hq
    obtain ⟨w₄, stepped, hw₄⟩ := same.symm.exists_run hw₁ run
    obtain ⟨calls, stop, w', recurses, hresult, hw'⟩ :=
      Analysis.analyzes_iff.mp analyzes w₄ (hw₄.trans hw₃)
    exact ⟨_, stop, w', .step herased ⟨stepped, by simp⟩ recurses, hresult, hw'⟩
  -- An effect that aborts is the last one in the trace, whatever is in the queue.
  · have run : (limit Analysis.anyLocator [.descriptor c own] >>= goOn q).runIn w₁ =
        some (.error .abort, w₂) := by
      rw [Act.runIn_bind, aborts]
    obtain ⟨w₃, stepped, hw₃⟩ := same.symm.exists_run hw₁ run
    exact ⟨_, .needsInput, w₃, .noStep herased (.inl stepped), rfl, hw₃.trans hw₂⟩

/-- The queue with one more effect. -/
theorem Concludes.cons {c : ClassRef} {own : List (String × Value)} {r : Option Value}
    {result : Value → Option Value} {trace : List Value} (rest : Concludes T q result trace)
    (h : Lifts T (.descriptor c own) d') (erased : Erased T (.descriptor c own) e)
    (followed : (probe (limit Analysis.anyLocator [.descriptor c own])).Yields T r) :
    Concludes T (link d' :: q) (fun _ => r.bind result)
      (e :: if r.isSome then trace else []) := by
  intro v
  cases hv : v.isPoison with
  | true =>
    obtain rfl := Value.isPoison_iff.mp hv
    exact ⟨.failed, .stop (.noValue Act.yields_probe_poison), .failed⟩
  | false =>
    obtain ⟨t, ht, analyzes⟩ := rest.exists_send h erased followed
    have value : ((Payload.resolved v).resolve limit).Yields T (some v) :=
      (Act.yields_pure v).probe hv
    have linked : (limit (link d') [v]).Yields T (.builder (.of (.tree (.suspended d')))) := by
      rw [link, Machine.limit_frame]
      exact Act.yields_pure _
    refine ⟨t, .next (.builder value linked) ht, ?_⟩
    rw [known?, hv]
    exact analyzes

/-! ### Effects one after the other -/

/-- The members of a list up to the place of the first effect of which nothing comes, if there is
one. -/
def passed (rs : List (Option Value)) (es : List Value) : List Value :=
  es.take (rs.findIdx Option.isNone + 1)

/-- What comes of the last effect, if something comes of all of them. -/
def lastValue (rs : List (Option Value)) : Option Value :=
  if rs.findIdx Option.isNone < rs.length then none else rs.getLast?.join

theorem passed_cons (r : Option Value) (rs : List (Option Value)) (e : Value) (es : List Value) :
    passed (r :: rs) (e :: es) = e :: if r.isSome then passed rs es else [] := by
  unfold passed
  rw [List.findIdx_cons]
  cases r <;> simp

theorem lastValue_cons (r : Option Value) (rs : List (Option Value)) :
    lastValue (r :: rs) = r.bind fun v => if rs.isEmpty then some v else lastValue rs := by
  unfold lastValue
  rw [List.findIdx_cons]
  cases r with
  | none => simp
  | some v =>
    cases rs with
    | nil => rfl
    | cons r' rs => simp

/-- A descriptor that can be erased and followed is an effect, and can be lifted. -/
theorem exists_lifts {r : Option Value} (erases : (erase limit d).Yields T e)
    (follows : (probe (limit Analysis.anyLocator [d])).Yields T r) :
    ∃ c own d', d = .descriptor c own ∧ Erased T (.descriptor c own) e ∧
      Lifts T (.descriptor c own) d' := by
  obtain ⟨w, run, -⟩ := erases (.initial T) rfl
  have erased : Erased T d e := Analysis.erased_of_runIn run
  obtain ⟨c, own, s, x, rfl, effect, slot, holds⟩ := exists_slot_of_locate follows
  obtain ⟨fill, slotted, rfl⟩ := erased.exists_slotted slot
  have lifts : ∃ d', Lifts T (.descriptor c own) d' :=
    Refills.exists_of_fillable (.effect slotted holds) _ fun x _ => ⟨.tree (Tree.pure x), rfl⟩
  obtain ⟨d', lifts⟩ := lifts
  exact ⟨c, own, d', rfl, erased, lifts⟩

variable {ds es : List Value} {rs : List (Option Value)}

/-- The effects in the queue, from the last one to the first. -/
theorem exists_concludes (erases : List.Forall₂ (fun x e => (erase limit x).Yields T e) ds es)
    (follows : List.Forall₂ (fun x r => (probe (limit Analysis.anyLocator [x])).Yields T r) ds rs) :
    ∃ ds', List.Forall₂ (Lifts T) ds ds' ∧ Concludes T (ds'.map link)
      (fun v => if rs.isEmpty then some v else lastValue rs) (passed rs es) := by
  induction erases generalizing rs with
  | nil =>
    cases follows
    exact ⟨[], .nil, concludes_nil⟩
  | cons erases _ ih =>
    cases follows with
    | cons follows followsRest =>
      obtain ⟨ds', each, rest⟩ := ih followsRest
      obtain ⟨c, own, d', rfl, erased, lifts⟩ := exists_lifts erases follows
      refine ⟨d' :: ds', .cons lifts each, ?_⟩
      rw [passed_cons, lastValue_cons]
      exact rest.cons lifts erased follows

/-- **The trace of a chain of effects.** Each effect can be erased, and can be followed with the
unknown argument on probation. Then the trace has the effects, erased, up to the first one of which
nothing comes. If there is none, the result is what comes of the last one. -/
theorem analyzes_chain (T : ClassTable) (d : Value) (ds es : List Value) (rs : List (Option Value))
    (erases : List.Forall₂ (fun x e => (erase limit x).Yields T e) (d :: ds) es)
    (follows : List.Forall₂ (fun x r => (probe (limit Analysis.anyLocator [x])).Yields T r)
      (d :: ds) rs) :
    (do
      let b ← sendAll limit d ds
      let t ← b.invoke limit .build []
      Analysis.analyze limit Analysis.anyLocator t).Yields T
        (.analysis (lastValue rs) (passed rs es)) := by
  cases erases with
  | cons erases erasesRest =>
    cases follows with
    | cons follows followsRest =>
      obtain ⟨ds', each, rest⟩ := exists_concludes erasesRest followsRest
      obtain ⟨c, own, d', rfl, erased, lifts⟩ := exists_lifts erases follows
      obtain ⟨t, built, analyzes⟩ := rest.exists_send lifts erased follows
      rw [passed_cons, lastValue_cons, ← bind_assoc]
      exact (yields_build_sendAll lifts each built).bind analyzes

open Dialogue in
/-- A question that is answered whatever it is told, and one that hands on what it is told: the
effect after that one is not reached. -/
theorem analyzes_chain_dialogue :
    (do
      let b ← sendAll limit (saying (.str "hello") .null)
        [asking (.frame (.always (.int 7))), asking (.frame .identity), saying (.str "bye") .null]
      let t ← b.invoke limit .build []
      Analysis.analyze limit Analysis.anyLocator t).Yields table
        (.analysis none [saying (.str "hello") .unit, asking .unit, asking .unit]) := by
  have erasesSaying (m : Value) : (erase limit (saying m .null)).Yields table (saying m .unit) :=
    (Erased.effect (slotted_say m .null)).yields_erase
  have erasesAsking (g : Value) : (erase limit (asking g)).Yields table (asking .unit) :=
    (Erased.effect (slotted_ask g)).yields_erase
  have said (m : Value) : (probe (limit Analysis.anyLocator [saying m .null])).Yields table
      (some .null) :=
    (yields_locate_direct rfl rfl rfl (holds_say m .null)).probe rfl
  have answered : (probe (limit Analysis.anyLocator [asking (.frame (.always (.int 7)))])).Yields
      table (some (.int 7)) := by
    refine Act.Yields.probe (Act.settles_ok_iff.mp ?_) rfl
    refine settles_locate_function (n := 1) rfl rfl rfl (holds_ask _) ?_
    rw [List.replicate_one, Machine.limit_frame]
    exact Act.settles_pure _
  have handed : (probe (limit Analysis.anyLocator [asking (.frame .identity)])).Yields table
      none := by
    refine yields_probe_locate_function (n := 1) rfl rfl rfl (holds_ask _) ?_
    rw [List.replicate_one, Machine.limit_frame]
    exact Act.yields_probe_poison
  exact analyzes_chain table _ _ [_, _, _, _] [_, _, _, _]
    (.cons (erasesSaying _) (.cons (erasesAsking _)
      (.cons (erasesAsking _) (.cons (erasesSaying _) .nil))))
    (.cons (said _) (.cons answered (.cons handed (.cons (said _) .nil))))

end Builder

end EffectTrees
