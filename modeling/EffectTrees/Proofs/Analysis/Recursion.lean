import EffectTrees.Proofs.Descriptor.Slotted

/-!
# The walk as a recursion

`Analysis.walk` goes through a tree in a loop, with the trace so far in an accumulator. What it
comes to can be said without loop and accumulator, by recursion on what the stepper gives:

* a failed tree gives no result and the empty trace;
* a finished tree gives its content for a result, or none if computing it aborts or gives the
  unknown argument;
* an effect is recorded in front of what the recursion gives for what the stepper makes of it, or by
  itself if the stepper aborts or gives the unknown argument;
* anything else is refused, unless its text cannot be written, which is a fault of its own.

`Analysis.Recurses` is this recursion, with the worlds that the callbacks pass on from one to the
next and with the list of the callbacks. The main statement, `Analysis.runIn_analyze_iff`, says that
an analysis ends exactly if the recursion does, and how: it has the recursion's result and trace, it
leaves the world of the last callback behind but for the one remark on how it stopped
(`Stop.remark?`), and the callbacks are one step for each entry of the trace, outermost first, and
then at most one payload (`Orderly`).
-/

namespace EffectTrees

open Machine (limit call)

namespace Analysis

/-! ### The recursion -/

/-- What an analysis hands control to. -/
inductive Callback where
  | step (d : Value)
  | force (p : Payload)

/-- How a walk stops if nothing fails. -/
inductive Stop where
  /-- At a failed tree. -/
  | failure
  /-- At a finished tree with this content. -/
  | value (v : Value)
  /-- At a finished tree whose content looks at the unknown argument. -/
  | abortedValue
  /-- At an effect whose continuation does. -/
  | needsInput

namespace Stop

/-- The result of an analysis that stops so. -/
def result : Stop → Option Value
  | value v => some v
  | _ => none

theorem eq_value_of_result {stop : Stop} {v : Value} (h : stop.result = some v) :
    stop = .value v := by
  cases stop <;> simp_all [result]

/-- The remark on a stop without a result, after the effects of a trace. -/
def remark? (trace : List Value) : Stop → Option Remark
  | failure => some (.reachedFailure trace.length)
  | value _ => none
  | abortedValue => some (.abortedValue trace.length)
  | needsInput => trace.getLast?.map fun e => .dependsOnInput e.typeName

end Stop

/-- What a recursion comes to: a fault, or a stop with the trace up to it. -/
abbrev Found := Except Fault (Stop × List Value)

/-- Records an effect in front of what a recursion comes to. -/
def Found.after (e : Value) : Found → Found := Except.map fun x => (x.1, e :: x.2)

/-- **The recursion.** From the world `w` it hands control to `calls`, in this order, comes to `r`
and leaves the world `w'` behind. -/
inductive Recurses (stepper : Value) :
    Value → World → List Callback → Found → World → Prop where
  | failed (w : World) : Recurses stepper (.tree .failed) w [] (.ok (.failure, [])) w
  | value {p : Payload} {w w' : World} {v : Value} (forced : (p.force limit).Gives w v w') :
      Recurses stepper (.tree (.done p)) w [.force p] (.ok (.value v, [])) w'
  | noValue {p : Payload} {w w' : World} (forced : (p.force limit).GivesNothing w w') :
      Recurses stepper (.tree (.done p)) w [.force p] (.ok (.abortedValue, [])) w'
  | payloadFault {p : Payload} {w w' : World} {f : Fault}
      (forced : (p.force limit).runIn w = some (.error (.fault f), w')) :
      Recurses stepper (.tree (.done p)) w [.force p] (.error f) w'
  | eraseFault {d : Value} {w w' : World} {f : Fault}
      (erased : (erase limit d).runIn w = some (.error (.fault f), w')) :
      Recurses stepper (.tree (.suspended d)) w [] (.error f) w'
  | step {d e next : Value} {w w₁ w₂ w' : World} {calls : List Callback} {r : Found}
      (erased : (erase limit d).runIn w = some (.ok e, w₁))
      (stepped : (limit stepper [d]).Gives w₁ next w₂)
      (rest : Recurses stepper next w₂ calls r w') :
      Recurses stepper (.tree (.suspended d)) w (.step d :: calls) (r.after e) w'
  | noStep {d e : Value} {w w₁ w' : World}
      (erased : (erase limit d).runIn w = some (.ok e, w₁))
      (stepped : (limit stepper [d]).GivesNothing w₁ w') :
      Recurses stepper (.tree (.suspended d)) w [.step d] (.ok (.needsInput, [e])) w'
  | stepFault {d e : Value} {w w₁ w' : World} {f : Fault}
      (erased : (erase limit d).runIn w = some (.ok e, w₁))
      (stepped : (limit stepper [d]).runIn w₁ = some (.error (.fault f), w')) :
      Recurses stepper (.tree (.suspended d)) w [.step d] (.error f) w'
  | noTree {v : Value} {w : World} {text : Option String} (other : ∀ t, v ≠ .tree t)
      (written : v.write w.classes true = .ok text) :
      Recurses stepper v w [] (.error (.refused .tree text)) w
  | noText {v : Value} {w : World} {f : Fault} (other : ∀ t, v ≠ .tree t)
      (written : v.write w.classes true = .error f) : Recurses stepper v w [] (.error f) w

/-- What an analysis with the effects `before` in its trace comes to, and the world that it leaves
behind, if the recursion from there comes to `r` in the world `w`. -/
def conclude (before : List Value) (r : Found) (w : World) : Except Signal Value × World :=
  match r with
  | .error f => (.error (.fault f), w)
  | .ok (stop, trace) =>
    (.ok (.analysis stop.result (before ++ trace)),
      { w with remarks := (stop.remark? (before ++ trace)).toList ++ w.remarks })

@[simp] theorem conclude_after (before : List Value) (e : Value) (r : Found) (w : World) :
    conclude before (r.after e) w = conclude (before ++ [e]) r w := by
  cases r with
  | error f => rfl
  | ok x => simp [Found.after, Except.map, conclude]

/-! ### One turn of the loop -/

variable {stepper : Value}

theorem walk_other (c : Caller) (acc : List Value) {v : Value} (other : ∀ t, v ≠ .tree t) :
    walk c stepper acc v = Act.refuse .tree v := by
  unfold walk
  split
  · exact absurd rfl (other _)
  · exact absurd rfl (other _)
  · exact absurd rfl (other _)
  · rfl

theorem runIn_refuse (v : Value) (w : World) :
    (Act.refuse .tree v : Act Value).runIn w =
      match v.write w.classes true with
      | .ok text => some (.error (.fault (.refused .tree text)), w)
      | .error f => some (.error (.fault f), w) := by
  unfold Act.refuse
  simp only [Act.runIn_bind, Act.runIn_classes]
  cases v.write w.classes true <;> rfl

/-- The loop makes its remark and gives the analysis. -/
theorem runIn_remark_pure (r : Remark) (v : Value) (w : World) :
    (do Act.remark r; pure v : Act Value).runIn w =
      some (.ok v, { w with remarks := r :: w.remarks }) := by
  simp only [Act.runIn_bind, Act.runIn_remark, Act.runIn_pure]

theorem runIn_walk_failed (c : Caller) (acc : List Value) (w : World) :
    (walk c stepper acc (.tree .failed)).runIn w =
      some (conclude acc.reverse (.ok (.failure, [])) w) := by
  simp only [walk, runIn_remark_pure, conclude, Stop.result, Stop.remark?, List.append_nil,
    List.length_reverse, Option.toList_some, List.singleton_append]

/-- What becomes of the content of a payload. -/
def ofContent (acc : List Value) (r : Except Signal (Option Value)) (w : World) :
    Except Signal Value × World :=
  match r with
  | .error s => (.error s, w)
  | .ok (some v) => conclude acc.reverse (.ok (.value v, [])) w
  | .ok none => conclude acc.reverse (.ok (.abortedValue, [])) w

theorem runIn_walk_done (c : Caller) (acc : List Value) (p : Payload) (w : World) :
    (walk c stepper acc (.tree (.done p))).runIn w =
      ((p.resolve c).runIn w).map fun x => ofContent acc x.1 x.2 := by
  simp only [walk, Act.runIn_bind]
  match (p.resolve c).runIn w with
  | none => rfl
  | some (.error s, w') => rfl
  | some (.ok (some v), w') =>
    simp [ofContent, conclude, Stop.result, Stop.remark?]
  | some (.ok none, w') =>
    simp [runIn_remark_pure, ofContent, conclude, Stop.result, Stop.remark?, -bind_pure_comp]

/-- How the walk goes on at a descriptor that has been recorded. -/
def afterStep (c : Caller) (stepper : Value) (trace : List Value) (d : Value) :
    Option Value → Act Value
  | some next => c (.frame (.analyze stepper trace)) [next]
  | none => do
    Act.remark (.dependsOnInput d.typeName)
    pure (.analysis none trace.reverse)

theorem walk_suspended (c : Caller) (acc : List Value) (d : Value) :
    walk c stepper acc (.tree (.suspended d)) =
      erase c d >>= fun e => probe (c stepper [d]) >>= afterStep c stepper (e :: acc) d := rfl

theorem erased_of_runIn {d e : Value} {w w' : World}
    (h : (erase limit d).runIn w = some (.ok e, w')) : Erased w.classes d e := by
  rcases faultOr_erase d w rfl _ _ h with ⟨f, hf⟩ | ⟨e', he, erased, -⟩
  · simp at hf
  · obtain rfl : e = e' := by simpa using he
    exact erased

/-- An erasure does not abort. -/
theorem fault_of_runIn_erase {d : Value} {s : Signal} {w w' : World}
    (h : (erase limit d).runIn w = some (.error s, w')) : ∃ f, s = .fault f := by
  rcases faultOr_erase d w rfl _ _ h with ⟨f, hf⟩ | ⟨e, he, -⟩
  · exact ⟨f, by simpa using hf⟩
  · simp at he

theorem runIn_afterStep_none (c : Caller) (acc : List Value) {d e : Value} {w w₁ : World}
    (erased : (erase limit d).runIn w = some (.ok e, w₁)) (w' : World) :
    (afterStep c stepper (e :: acc) d none).runIn w' =
      some (conclude acc.reverse (.ok (.needsInput, [e])) w') := by
  have sameType := (erased_of_runIn erased).typeName
  simp [afterStep, runIn_remark_pure, conclude, Stop.result, Stop.remark?, sameType,
    -bind_pure_comp]

/-! ### The loop and the recursion -/

/-- What the recursion comes to, the loop comes to, with the effects that it has recorded before. -/
theorem Recurses.walk {node : Value} {w w' : World} {calls : List Callback} {r : Found}
    (h : Recurses stepper node w calls r w') (acc : List Value) :
    (walk limit stepper acc node).runIn w = some (conclude acc.reverse r w') := by
  induction h generalizing acc with
  | failed w => exact runIn_walk_failed limit acc w
  | value forced => rw [runIn_walk_done, Payload.resolve, forced.probe]; rfl
  | noValue forced => rw [runIn_walk_done, Payload.resolve, forced.probe]; rfl
  | payloadFault forced => rw [runIn_walk_done, Payload.resolve, runIn_probe_fault forced]; rfl
  | eraseFault erased => rw [walk_suspended, Act.runIn_bind, erased]; rfl
  -- The loop goes on with the effect in front of its reversed trace.
  | @step d e next w w₁ w₂ w' calls r erased stepped rest ih =>
    rw [walk_suspended, Act.runIn_bind, erased, conclude_after, ← List.reverse_cons]
    dsimp only
    rw [Act.runIn_bind, stepped.probe]
    dsimp only [afterStep]
    rw [Machine.limit_frame]
    exact ih (e :: acc)
  | noStep erased stepped =>
    rw [walk_suspended, Act.runIn_bind, erased]
    dsimp only
    rw [Act.runIn_bind, stepped.probe]
    exact runIn_afterStep_none limit acc erased _
  | stepFault erased stepped =>
    rw [walk_suspended, Act.runIn_bind, erased]
    dsimp only
    rw [Act.runIn_bind, runIn_probe_fault stepped]
    rfl
  | noTree other written => rw [walk_other _ _ other, runIn_refuse, written]; rfl
  | noText other written => rw [walk_other _ _ other, runIn_refuse, written]; rfl

theorem recurses_of_done {acc : List Value} {p : Payload} {w : World}
    {x : Except Signal Value × World}
    (h : (walk limit stepper acc (.tree (.done p))).runIn w = some x) :
    ∃ calls r w', Recurses stepper (.tree (.done p)) w calls r w' ∧
      x = conclude acc.reverse r w' := by
  rw [runIn_walk_done, Option.map_eq_some_iff] at h
  obtain ⟨⟨r, w'⟩, hr, rfl⟩ := h
  rcases probe_cases hr with ⟨v, rfl, forced⟩ | ⟨rfl, forced⟩ | ⟨f, rfl, forced⟩
  · exact ⟨_, _, _, .value forced, rfl⟩
  · exact ⟨_, _, _, .noValue forced, rfl⟩
  · exact ⟨_, _, _, .payloadFault forced, rfl⟩

theorem recurses_of_other {acc : List Value} {v : Value} (other : ∀ t, v ≠ .tree t) {w : World}
    {x : Except Signal Value × World} (h : (walk limit stepper acc v).runIn w = some x) :
    ∃ calls r w', Recurses stepper v w calls r w' ∧ x = conclude acc.reverse r w' := by
  rw [walk_other _ _ other, runIn_refuse] at h
  cases written : v.write w.classes true with
  | ok text =>
    obtain rfl : (.error (.fault (.refused .tree text)), w) = x := by simpa [written] using h
    exact ⟨_, _, _, .noTree other written, rfl⟩
  | error f =>
    obtain rfl : (.error (.fault f), w) = x := by simpa [written] using h
    exact ⟨_, _, _, .noText other written, rfl⟩

theorem recurses_of_suspended {n : Nat} {acc : List Value} {d : Value} {w : World}
    {x : Except Signal Value × World}
    (ih : ∀ (acc : List Value) (node : Value) (w : World) (x : Except Signal Value × World),
      (call n (.frame (.analyze stepper acc)) [node]).runIn w = some x →
        ∃ calls r w', Recurses stepper node w calls r w' ∧ x = conclude acc.reverse r w')
    (h : (walk (call n) stepper acc (.tree (.suspended d))).runIn w = some x) :
    ∃ calls r w', Recurses stepper (.tree (.suspended d)) w calls r w' ∧
      x = conclude acc.reverse r w' := by
  rw [walk_suspended, Act.runIn_bind] at h
  match hr : (erase (call n) d).runIn w with
  | none => simp [hr] at h
  | some (.error s, w₁) =>
    obtain rfl : (.error s, w₁) = x := by simpa [hr] using h
    have erased := (tends_erase Machine.tends_limit d).runIn_limit hr
    obtain ⟨f, rfl⟩ := fault_of_runIn_erase erased
    exact ⟨_, _, _, .eraseFault erased, rfl⟩
  | some (.ok e, w₁) =>
    have erased := (tends_erase Machine.tends_limit d).runIn_limit hr
    rw [hr] at h
    dsimp only at h
    rw [Act.runIn_bind] at h
    match hs : (probe (call n stepper [d])).runIn w₁ with
    | none => simp [hs] at h
    | some (s, w₂) =>
      rw [hs] at h
      have onProbation := (Machine.tends_limit stepper [d]).probe.runIn_limit hs
      -- The step gave a known value, or nothing, or failed.
      rcases probe_cases onProbation with ⟨next, rfl, stepped⟩ | ⟨rfl, stepped⟩ | ⟨f, rfl, stepped⟩
      · obtain ⟨calls, r, w', rest, rfl⟩ := ih (e :: acc) next w₂ x h
        refine ⟨_, _, _, .step erased stepped rest, ?_⟩
        rw [conclude_after, List.reverse_cons]
      · dsimp only at h
        rw [runIn_afterStep_none _ _ erased] at h
        exact ⟨_, _, _, .noStep erased stepped, (Option.some.inj h).symm⟩
      · exact ⟨_, _, _, .stepFault erased stepped, (Option.some.inj h).symm⟩

/-- What the loop comes to within some depth, the recursion comes to. The induction is on the depth:
each turn of the loop is a call inside the one before. -/
theorem recurses_of_walk (n : Nat) {acc : List Value} {node : Value} {w : World}
    {x : Except Signal Value × World} (h : (walk (call n) stepper acc node).runIn w = some x) :
    ∃ calls r w', Recurses stepper node w calls r w' ∧ x = conclude acc.reverse r w' := by
  have hlimit := (tends_walk Machine.tends_limit stepper acc node).runIn_limit h
  by_cases isTree : ∃ t, node = .tree t
  · obtain ⟨t, rfl⟩ := isTree
    cases t with
    | failed =>
      rw [runIn_walk_failed] at hlimit
      exact ⟨_, _, _, .failed w, (Option.some.inj hlimit).symm⟩
    | done p => exact recurses_of_done hlimit
    | suspended d =>
      refine recurses_of_suspended (fun acc node w x hx => ?_) h
      -- Without a call left the loop cannot have gone on.
      cases n with
      | zero => simp at hx
      | succ n => exact recurses_of_walk n hx
  · exact recurses_of_other (fun t ht => isTree ⟨t, ht⟩) hlimit

/-- What the loop comes to is what the recursion comes to, after the effects recorded before. -/
theorem runIn_walk_iff {acc : List Value} {node : Value} {w : World}
    {x : Except Signal Value × World} : (walk limit stepper acc node).runIn w = some x ↔
      ∃ calls r w', Recurses stepper node w calls r w' ∧ x = conclude acc.reverse r w' := by
  refine ⟨fun h => ?_, fun ⟨calls, r, w', recurses, same⟩ => ?_⟩
  · obtain ⟨n, hn⟩ := (tends_walk Machine.tends_limit stepper acc node).exists_runIn h
    exact recurses_of_walk n hn
  · rw [same]
    exact recurses.walk acc

/-! ### Callbacks and remarks -/

/-- The entry `e` of a trace records the descriptor `d`. -/
def Records (d e : Value) : Prop := ∃ w w', (erase limit d).runIn w = some (.ok e, w')

/-- What a recursion that comes to `r` may do on its way. -/
structure Orderly (calls : List Callback) (r : Found) : Prop where
  /-- The steps come first, then at most one payload. Unless there is a fault, there is one step for
  each entry of the trace, from the outermost to the innermost, on the descriptor that the entry
  records. -/
  order : ∃ (ds : List Value) (ps : List Payload),
    calls = ds.map .step ++ ps.map .force ∧ ps.length ≤ 1 ∧
    ∀ stop trace, r = .ok (stop, trace) → List.Forall₂ Records ds trace
  /-- There is a remark exactly if there is no result. -/
  remark : ∀ stop trace, r = .ok (stop, trace) →
    ((stop.remark? trace).isSome ↔ stop.result = none)

theorem Found.ok_of_after {e : Value} {r : Found} {stop : Stop} {trace : List Value}
    (h : r.after e = .ok (stop, trace)) : ∃ rest, r = .ok (stop, rest) ∧ trace = e :: rest := by
  cases r with
  | error f => simp [after, Except.map] at h
  | ok x =>
    obtain ⟨rfl, rfl⟩ : x.1 = stop ∧ e :: x.2 = trace := by simpa [after, Except.map] using h
    exact ⟨x.2, rfl, rfl⟩

/-- Recording an effect does not take a remark away. -/
theorem Stop.isSome_remark?_cons {stop : Stop} {e : Value} {trace : List Value}
    (h : (stop.remark? trace).isSome ↔ stop.result = none) :
    (stop.remark? (e :: trace)).isSome ↔ stop.result = none := by
  cases stop <;> simp_all [remark?, result]

theorem Recurses.orderly {node : Value} {w w' : World} {calls : List Callback} {r : Found}
    (h : Recurses stepper node w calls r w') : Orderly calls r := by
  induction h with
  | failed w => exact ⟨⟨[], [], rfl, by simp, by simp⟩, by simp [Stop.remark?, Stop.result]⟩
  | @value p _ _ v forced =>
    exact ⟨⟨[], [p], rfl, by simp, by simp⟩, by simp [Stop.remark?, Stop.result]⟩
  | @noValue p _ _ forced =>
    exact ⟨⟨[], [p], rfl, by simp, by simp⟩, by simp [Stop.remark?, Stop.result]⟩
  | @payloadFault p _ _ f forced => exact ⟨⟨[], [p], rfl, by simp, by simp⟩, by simp⟩
  | eraseFault erased => exact ⟨⟨[], [], rfl, by simp, by simp⟩, by simp⟩
  | @step d e next w w₁ w₂ w' calls r erased stepped rest ih =>
    obtain ⟨⟨ds, ps, rfl, atMostOne, recorded⟩, remarked⟩ := ih
    refine ⟨⟨d :: ds, ps, rfl, atMostOne, fun stop trace hr => ?_⟩, fun stop trace hr => ?_⟩
    · obtain ⟨trace, found, rfl⟩ := Found.ok_of_after hr
      exact .cons ⟨w, w₁, erased⟩ (recorded stop trace found)
    · obtain ⟨trace, found, rfl⟩ := Found.ok_of_after hr
      exact Stop.isSome_remark?_cons (remarked stop trace found)
  | @noStep d e w w₁ w' erased stepped =>
    refine ⟨⟨[d], [], rfl, by simp, fun stop trace hr => ?_⟩, by simp [Stop.remark?, Stop.result]⟩
    obtain ⟨rfl, rfl⟩ : .needsInput = stop ∧ [e] = trace := by simpa using hr
    exact .cons ⟨w, w₁, erased⟩ .nil
  | @stepFault d _ _ _ _ _ erased stepped => exact ⟨⟨[d], [], rfl, by simp, by simp⟩, by simp⟩
  | noTree other written => exact ⟨⟨[], [], rfl, by simp, by simp⟩, by simp⟩
  | noText other written => exact ⟨⟨[], [], rfl, by simp, by simp⟩, by simp⟩

/-- **The loop is the recursion.** An analysis ends if and only if the recursion does, and it ends
with what the recursion comes to, after the callbacks of the recursion and one remark if there is no
result. -/
theorem runIn_analyze_iff (stepper tree : Value) (w : World) (x : Except Signal Value × World) :
    (analyze limit stepper tree).runIn w = some x ↔
      ∃ calls r w', Recurses stepper tree w calls r w' ∧ Orderly calls r ∧
        x = conclude [] r w' := by
  refine ⟨fun h => ?_, fun ⟨calls, r, w', h, _, hx⟩ => ?_⟩
  -- What the loop comes to, it comes to within some depth.
  · obtain ⟨n, hn⟩ := (tends_walk Machine.tends_limit stepper [] tree).exists_runIn h
    obtain ⟨calls, r, w', hr, hx⟩ := recurses_of_walk n hn
    exact ⟨calls, r, w', hr, hr.orderly, hx⟩
  · rw [hx]
    exact h.walk []

end Analysis

end EffectTrees
