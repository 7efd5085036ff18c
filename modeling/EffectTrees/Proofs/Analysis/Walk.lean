import EffectTrees.Proofs.Analysis.Recursion
import EffectTrees.Proofs.Tree.Sound

/-!
# Walks at given classes

What an analysis comes to at given classes `T`, whatever else there is in the world, is said by
`Analysis.Analyzes`. It goes by one equation for each state of a tree (`Analyzes.failed`,
`Analyzes.value`, `Analyzes.noValue`, `Analyzes.step`, `Analyzes.noStep`).

The analysis can be taken apart again if it stays among trees on which the callbacks settle
(`Analysis.Follows`): there is a walk, `Analysis.Walks`, with the effects on the way and the stop at
its end (`Analyzes.walks`). With the locator of all effect classes for its stepper, an analysis that
starts at a sound tree stays among sound trees (`Sound.follows`): the locator gives what a direct
slot holds, and calls a function slot with the unknown argument.
-/

namespace EffectTrees

open Machine (limit)

namespace Analysis

variable {T : ClassTable} {total : Prop} {stepper : Value}

/-! ### What an analysis comes to -/

/-- The analysis of a tree has the result and the trace, from every world with the classes `T`. -/
def Analyzes (T : ClassTable) (stepper t : Value) (result : Option Value) (trace : List Value) :
    Prop :=
  (analyze limit stepper t).Yields T (.analysis result trace)

/-- It is so if the recursion stops so. -/
theorem analyzes_iff {t : Value} {result : Option Value} {trace : List Value} :
    Analyzes T stepper t result trace ↔
      ∀ w, w.classes = T → ∃ calls stop w', Recurses stepper t w calls (.ok (stop, trace)) w' ∧
        stop.result = result ∧ w'.classes = T := by
  refine ⟨fun h w hw => ?_, fun h w hw => ?_⟩
  · obtain ⟨w', hr, hw'⟩ := h w hw
    obtain ⟨calls, r, w₁, recurses, -, hx⟩ := (runIn_analyze_iff _ _ _ _).mp hr
    match r with
    | .error f => simp [conclude] at hx
    | .ok (stop, trace') =>
      obtain ⟨⟨rfl, rfl⟩, rfl⟩ : (result = stop.result ∧ trace = trace') ∧ _ = _ := by
        simpa [conclude] using hx
      exact ⟨calls, stop, w₁, recurses, rfl, hw'⟩
  · obtain ⟨calls, stop, w', recurses, rfl, hw'⟩ := h w hw
    refine ⟨{ w' with remarks := (stop.remark? trace).toList ++ w'.remarks }, ?_, hw'⟩
    exact recurses.walk []

theorem Analyzes.failed : Analyzes T stepper (.tree .failed) none [] :=
  analyzes_iff.mpr fun w hw => ⟨_, _, w, .failed w, rfl, hw⟩

theorem Analyzes.value {p : Payload} {v : Value} (value : (p.resolve limit).Yields T (some v)) :
    Analyzes T stepper (.tree (.done p)) (some v) [] := by
  refine analyzes_iff.mpr fun w hw => ?_
  obtain ⟨w', hr, hw'⟩ := value w hw
  rcases probe_cases hr with ⟨v', hv, gives⟩ | ⟨hv, -⟩ | ⟨f, hf, -⟩
  · obtain rfl : v = v' := by simpa using hv
    exact ⟨_, _, w', .value gives, rfl, hw'⟩
  · simp at hv
  · simp at hf

theorem Analyzes.noValue {p : Payload} (value : (p.resolve limit).Yields T none) :
    Analyzes T stepper (.tree (.done p)) none [] := by
  refine analyzes_iff.mpr fun w hw => ?_
  obtain ⟨w', nothing, hw'⟩ := Act.yields_probe_none_iff.mp value w hw
  exact ⟨_, _, w', .noValue nothing, rfl, hw'⟩

theorem Analyzes.step {d e next : Value} {result : Option Value} {trace : List Value}
    (erased : Erased T d e) (stepped : (limit stepper [d]).Yields T next) (known : next ≠ .poison)
    (rest : Analyzes T stepper next result trace) :
    Analyzes T stepper (.tree (.suspended d)) result (e :: trace) := by
  refine analyzes_iff.mpr fun w hw => ?_
  obtain ⟨w₁, herased, hw₁⟩ := erased.yields_erase w hw
  obtain ⟨w₂, hstepped, hw₂⟩ := stepped w₁ hw₁
  obtain ⟨calls, stop, w', recurses, rfl, hw'⟩ := analyzes_iff.mp rest w₂ hw₂
  exact ⟨_, stop, w', .step herased ⟨hstepped, known⟩ recurses, rfl, hw'⟩

theorem Analyzes.noStep {d e : Value} (erased : Erased T d e)
    (stepped : (probe (limit stepper [d])).Yields T none) :
    Analyzes T stepper (.tree (.suspended d)) none [e] := by
  refine analyzes_iff.mpr fun w hw => ?_
  obtain ⟨w₁, herased, hw₁⟩ := erased.yields_erase w hw
  obtain ⟨w', nothing, hw'⟩ := Act.yields_probe_none_iff.mp stepped w₁ hw₁
  exact ⟨_, .needsInput, w', .noStep herased nothing, rfl, hw'⟩

theorem Analyzes.pure (v : Value) (known : v.isPoison = false) :
    Analyzes T stepper (.tree (Tree.pure v)) (some v) [] :=
  .value ((Act.yields_pure v).probe known)

/-! ### Walks -/

/-- A walk through a tree: how it stops, and the effects on its way. -/
inductive Walks (T : ClassTable) (stepper : Value) : Value → Stop → List Value → Prop where
  | failed : Walks T stepper (.tree .failed) .failure []
  | value {p : Payload} {v : Value} (value : (p.resolve limit).Yields T (some v)) :
      Walks T stepper (.tree (.done p)) (.value v) []
  | noValue {p : Payload} (value : (p.resolve limit).Yields T none) :
      Walks T stepper (.tree (.done p)) .abortedValue []
  | step {d e next : Value} {stop : Stop} {trace : List Value} (erased : Erased T d e)
      (stepped : (limit stepper [d]).Yields T next) (known : next ≠ .poison)
      (rest : Walks T stepper next stop trace) :
      Walks T stepper (.tree (.suspended d)) stop (e :: trace)
  | noStep {d e : Value} (erased : Erased T d e)
      (stepped : (probe (limit stepper [d])).Yields T none) :
      Walks T stepper (.tree (.suspended d)) .needsInput [e]

theorem Walks.analyzes {t : Value} {stop : Stop} {trace : List Value}
    (h : Walks T stepper t stop trace) : Analyzes T stepper t stop.result trace := by
  induction h with
  | failed => exact .failed
  | value value => exact .value value
  | noValue value => exact .noValue value
  | step erased stepped known _ ih => exact .step erased stepped known ih
  | noStep erased stepped => exact .noStep erased stepped

/-- An analysis with the stepper stays among the trees with a property: their payloads settle, and
so does the stepper on their effects, on probation, where it gives such trees. -/
structure Follows (T : ClassTable) (stepper : Value) (P : Value → Prop) : Prop where
  forces : ∀ p, P (.tree (.done p)) → ∃ o, (p.resolve limit).Settles T o
  steps : ∀ d, P (.tree (.suspended d)) → ∃ o, (probe (limit stepper [d])).Settles T o ∧
    ∀ v, o = some (.ok (some v)) → P v

variable {P : Value → Prop}

theorem Follows.of_stepped (follows : Follows T stepper P) {d next : Value}
    (hd : P (.tree (.suspended d))) (stepped : (limit stepper [d]).Yields T next)
    (known : next ≠ .poison) : P next := by
  obtain ⟨o, settles, values⟩ := follows.steps d hd
  obtain rfl := settles.unique (stepped.probe (Value.isPoison_of_ne known)).settles
  exact values next rfl

/-- A recursion on a tree with the property is a walk. -/
theorem Recurses.walks (follows : Follows T stepper P) {t : Value} {w w' : World}
    {calls : List Callback} {r : Found} (h : Recurses stepper t w calls r w')
    (hw : w.classes = T) (ht : P t) {stop : Stop} {trace : List Value}
    (hr : r = .ok (stop, trace)) : Walks T stepper t stop trace := by
  induction h generalizing stop trace with
  | failed w =>
    obtain ⟨rfl, rfl⟩ : .failure = stop ∧ [] = trace := by simpa using hr
    exact .failed
  | @value p _ _ _ forced =>
    obtain ⟨rfl, rfl⟩ : .value _ = stop ∧ [] = trace := by simpa using hr
    obtain ⟨o, settles⟩ := follows.forces p ht
    exact .value (settles.yields_of_run hw forced.probe).1
  | @noValue p _ _ forced =>
    obtain ⟨rfl, rfl⟩ : .abortedValue = stop ∧ [] = trace := by simpa using hr
    obtain ⟨o, settles⟩ := follows.forces p ht
    exact .noValue (settles.yields_of_run hw forced.probe).1
  | @step d e next w w₁ w₂ w' calls r erased stepped rest ih =>
    obtain ⟨trace, rfl, rfl⟩ := Found.ok_of_after hr
    -- The worlds on the way have the classes `T`, so what one run shows holds from all of them.
    have herased : Erased T d e := hw ▸ erased_of_runIn erased
    obtain ⟨-, hw₁⟩ := herased.yields_erase.of_run hw erased
    obtain ⟨o, settles, values⟩ := follows.steps d ht
    obtain ⟨onProbation, rfl, hw₂⟩ := settles.yields_of_run hw₁ stepped.probe
    exact .step herased onProbation.of_probe stepped.2 (ih hw₂ (values next rfl) rfl)
  | @noStep d e w w₁ w' erased stepped =>
    obtain ⟨rfl, rfl⟩ : .needsInput = stop ∧ [e] = trace := by simpa using hr
    have herased : Erased T d e := hw ▸ erased_of_runIn erased
    obtain ⟨-, hw₁⟩ := herased.yields_erase.of_run hw erased
    obtain ⟨o, settles, -⟩ := follows.steps d ht
    exact .noStep herased (settles.yields_of_run hw₁ stepped.probe).1
  | payloadFault _ => simp at hr
  | eraseFault _ => simp at hr
  | stepFault _ _ => simp at hr
  | noTree _ _ => simp at hr
  | noText _ _ => simp at hr

/-- An analysis of a tree with the property takes a walk. -/
theorem Analyzes.walks (follows : Follows T stepper P) {t : Value} (ht : P t)
    {result : Option Value} {trace : List Value} (h : Analyzes T stepper t result trace) :
    ∃ stop, Walks T stepper t stop trace ∧ stop.result = result := by
  obtain ⟨calls, stop, w', recurses, hresult, -⟩ := analyzes_iff.mp h (.initial T) rfl
  exact ⟨stop, recurses.walks follows rfl ht rfl, hresult⟩

end Analysis

/-! ### Following slots -/

variable {T : ClassTable} {total : Prop} {c : ClassRef} {own : List (String × Value)} {s : Slot}
  {x : Value}

/-- What a direct slot holds is what follows. -/
theorem yields_locate_direct (effect : c.isEffect) (slot : T.slotOf c.id = .ok s)
    (kind : s.kind = .direct) (holds : SlotHolds T c own s x) :
    (limit Analysis.anyLocator [.descriptor c own]).Yields T x := by
  rw [Analysis.anyLocator, Machine.limit_locator]
  unfold locate Slot.follow
  dsimp only
  rw [if_pos (show c.isA ClassRef.effect.id from effect)]
  refine (yields_slotOf slot).bind ((yields_lookup holds).bind ?_)
  rw [kind]
  exact Act.yields_pure x

/-- A function slot is called with the unknown argument in every position. -/
theorem settles_locate_function (effect : c.isEffect) (slot : T.slotOf c.id = .ok s) {n : Nat}
    (kind : s.kind = .function n) (holds : SlotHolds T c own s x) {o : Ending Value}
    (settles : (limit x (List.replicate n .poison)).Settles T o) :
    (limit Analysis.anyLocator [.descriptor c own]).Settles T o := by
  rw [Analysis.anyLocator, Machine.limit_locator]
  unfold locate Slot.follow
  dsimp only
  rw [if_pos (show c.isA ClassRef.effect.id from effect)]
  refine (yields_slotOf slot).bind_settles ((yields_lookup holds).bind_settles ?_)
  rw [kind]
  exact settles

/-- If nothing comes of the call, the descriptor cannot be followed. -/
theorem yields_probe_locate_function (effect : c.isEffect) (slot : T.slotOf c.id = .ok s) {n : Nat}
    (kind : s.kind = .function n) (holds : SlotHolds T c own s x)
    (nothing : (probe (limit x (List.replicate n .poison))).Yields T none) :
    (probe (limit Analysis.anyLocator [.descriptor c own])).Yields T none := by
  rw [Analysis.anyLocator, Machine.limit_locator]
  unfold locate Slot.follow
  dsimp only
  rw [if_pos (show c.isA ClassRef.effect.id from effect)]
  refine (yields_slotOf slot).probe_bind ((yields_lookup holds).probe_bind ?_)
  rw [kind]
  exact nothing

/-- What is no effect with something in its slot cannot be followed. -/
theorem locate_cases (d : Value) :
    (∃ c own s x, d = .descriptor c own ∧ c.isEffect ∧ T.slotOf c.id = .ok s ∧
      SlotHolds T c own s x) ∨
    ∃ f, (limit Analysis.anyLocator [d]).Settles T (some (.error (.fault f))) := by
  rw [Analysis.anyLocator, Machine.limit_locator]
  unfold locate
  split
  · rename_i c own
    split_ifs with effect
    · cases slot : T.slotOf c.id with
      | error f =>
        refine .inr ⟨.ofRegistration (.ofSlot c.name f), fun w hw => ?_⟩
        simp [Act.runIn_bind, runIn_slotOf, hw, slot]
      | ok s =>
        cases holds : T.memberOf? c.id own .scalar s.name with
        | none =>
          refine .inr ⟨.missingMember, (yields_slotOf slot).bind_settles fun w hw => ?_⟩
          simp [Slot.follow, Act.runIn_bind, runIn_lookup, hw, holds]
        | some x => exact .inl ⟨c, own, s, x, rfl, effect, slot, holds⟩
    · exact .inr ⟨_, Act.settles_fail _⟩
  · exact .inr ⟨_, Act.settles_fail _⟩

/-- What can be followed is an effect with something in its slot. -/
theorem exists_slot_of_locate {d : Value} {v : Option Value}
    (h : (probe (limit Analysis.anyLocator [d])).Yields T v) :
    ∃ c own s x, d = .descriptor c own ∧ c.isEffect ∧ T.slotOf c.id = .ok s ∧
      SlotHolds T c own s x := by
  refine (locate_cases d).resolve_right fun ⟨f, hf⟩ => ?_
  exact h.not_lost hf.lost_of_fault.probe

/-- The analysis of a sound tree stays among the sound trees. -/
theorem Sound.follows : Analysis.Follows T Analysis.anyLocator (Sound T total) where
  forces p hp := by
    cases hp.step with
    | done settles _ => exact ⟨_, settles.probe⟩
  steps d hd := by
    rcases locate_cases (T := T) d with ⟨c, own, s, x, rfl, effect, slot, holds⟩ | ⟨f, settles⟩
    · cases kind : s.kind with
      | direct =>
        have sound := hd.atHand (.content effect slot kind holds)
        have yields := (yields_locate_direct effect slot kind holds).probe sound.known
        exact ⟨_, yields.settles, fun v hv => by
          obtain rfl : x = v := by simpa using hv
          exact sound⟩
      | function n =>
        cases hd.step with
        | suspended _ behind _ =>
          obtain ⟨o, settles, -, values⟩ :=
            behind n x (.slot effect slot kind holds) (List.replicate n .poison)
          refine ⟨_, (settles_locate_function effect slot kind holds settles).probe, fun v hv => ?_⟩
          obtain ⟨rfl, known⟩ := Ending.of_onProbation hv
          exact (values v rfl).resolve_left known
    · exact ⟨_, settles.probe, fun v hv => by simp [Ending.onProbation] at hv⟩

/-! ### The analysis of a dialogue -/

namespace Dialogue

open Analysis

theorem analyzes_say {m x : Value} {result : Option Value} {trace : List Value}
    (known : x ≠ .poison) (rest : Analyzes table anyLocator x result trace) :
    Analyzes table anyLocator (say m x) result (saying m .unit :: trace) :=
  .step (.effect (slotted_say m x)) (yields_locate_direct rfl rfl rfl (holds_say m x)) known rest

theorem analyzes_ask_echo : Analyzes table anyLocator (ask echo) (some (.int 1))
    [asking .unit, saying .poison .unit] := by
  refine .step (.effect (slotted_ask echo)) ?_ (by simp [say])
    (analyzes_say (by simp) (.pure _ rfl))
  exact Act.settles_ok_iff.mp
    (settles_locate_function (n := 1) rfl rfl rfl (holds_ask echo) (yields_echo .poison).settles)

end Dialogue

end EffectTrees
