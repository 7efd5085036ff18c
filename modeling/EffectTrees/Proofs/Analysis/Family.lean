import EffectTrees.Proofs.Analysis.Walk
import EffectTrees.Proofs.Family.Assurance

/-!
# The locator of a family

The locator that is derived for an effect class follows the slots of its family and refuses any
other effect. So it is the locator of all effects, restricted to the family (`analyze_derived`).
Take a tree that can be analysed with the locator of all effects:

* If all effects in the trace are of the family, the analysis with the derived locator is the same.
  So is the analysis with any stepper that follows the slots of these effects (`FollowsSlots`), such
  as a function that tells the constructors apart, takes out the content of the slot, and calls it
  with unknown arguments if it is a function slot (`limit_extractor`).
* Otherwise the analysis fails at the first effect of another family, and names it. It has gone the
  same way until then (`Passes`), so it has called the functions in the slots before that effect and
  no other. The locator runs on probation there, but a fault is not taken for the absence of a
  value.

Nothing is assumed of the tree. Functions in slots may even register classes on the way, since the
two analyses are compared step by step, in the same worlds.
-/

namespace EffectTrees

open Machine (limit)

namespace Analysis

variable {stepper t node d e next : Value} {w w' w₁ w₂ : World} {trace : List Value}
  {called calls : List (Value × List Value)} {k family : ClassRef} {own : List (String × Value)}
  {s : Slot}

/-! ### Following one slot -/

/-- **The slot is followed** to what comes next. If it is a function slot, `calls` has its function
and the arguments that it has been called with. -/
inductive Followed (w : World) (k : ClassRef) (own : List (String × Value)) (s : Slot) :
    List (Value × List Value) → Value → World → Prop where
  | direct {next : Value} (kind : s.kind = .direct) (holds : SlotHolds w.classes k own s next)
      (known : next ≠ .poison) : Followed w k own s [] next w
  | function {n : Nat} {g next : Value} {w' : World} (kind : s.kind = .function n)
      (holds : SlotHolds w.classes k own s g)
      (gives : (limit g (List.replicate n .poison)).Gives w next w') :
      Followed w k own s [(g, List.replicate n .poison)] next w'

theorem runIn_follow (call : Caller) (s : Slot) (k : ClassRef) (own : List (String × Value))
    (w : World) :
    (s.follow call (.descriptor k own)).runIn w =
      match w.classes.memberOf? k.id own .scalar s.name with
      | none => some (.error (.fault .missingMember), w)
      | some v =>
        match s.kind with
        | .direct => some (.ok v, w)
        | .function n => (call v (List.replicate n .poison)).runIn w := by
  unfold Slot.follow
  rw [Act.runIn_bind, runIn_lookup]
  cases w.classes.memberOf? k.id own .scalar s.name with
  | none => rfl
  | some v =>
    dsimp only
    cases s.kind <;> rfl

theorem gives_follow_iff : (s.follow limit (.descriptor k own)).Gives w next w' ↔
    ∃ calls, Followed w k own s calls next w' := by
  constructor
  · rintro ⟨run, known⟩
    rw [runIn_follow] at run
    cases holds : w.classes.memberOf? k.id own .scalar s.name with
    | none => simp [holds] at run
    | some v =>
      rw [holds] at run
      cases kind : s.kind with
      | direct =>
        obtain ⟨rfl, rfl⟩ : v = next ∧ w = w' := by simpa [kind] using run
        exact ⟨_, .direct kind holds known⟩
      | function n =>
        rw [kind] at run
        exact ⟨_, .function kind holds ⟨run, known⟩⟩
  · rintro ⟨calls, followed⟩
    unfold Act.Gives
    rw [runIn_follow]
    cases followed with
    | direct kind holds known =>
      rw [show w.classes.memberOf? k.id own .scalar s.name = some next from holds, kind]
      exact ⟨rfl, known⟩
    | @function n g _ _ kind holds gives =>
      rw [show w.classes.memberOf? k.id own .scalar s.name = some g from holds, kind]
      exact gives

/-- What has been recorded is a list or an instance of an effect class, which has been asked for its
slot. -/
theorem recorded_cases (erased : (erase limit d).runIn w = some (.ok e, w₁)) :
    (∃ items, d = .list items) ∨ ∃ k own s fill, d = .descriptor k own ∧
      Slotted w.classes k own s fill ∧ e = .descriptor k (fill .unit) ∧
      w₁ = { w with asked := w.asked.add k.id } := by
  cases erased_of_runIn erased with
  | list items => exact .inl ⟨items, rfl⟩
  | @effect k own s fill slotted =>
    refine .inr ⟨k, own, s, fill, rfl, slotted, rfl, ?_⟩
    unfold erase at erased
    dsimp only at erased
    rw [if_pos slotted.effect, Act.runIn_bind, runIn_slotOf, slotted.slot] at erased
    dsimp only at erased
    rw [replaceMember_descriptor, Instance.runIn_replace, slotted.fills] at erased
    simp only [Option.some.injEq, Prod.mk.injEq, true_and] at erased
    exact erased.symm

/-- An instance is of the same classes as what is recorded of it. -/
theorem isA_of_recorded (erased : (erase limit (.descriptor k own)).runIn w = some (.ok e, w₁))
    (id : Nat) : e.isA id = k.isA id := by
  obtain ⟨items, other⟩ | ⟨k', own', s, fill, same, -, rfl, -⟩ := recorded_cases erased
  · cases other
  · obtain ⟨rfl, -⟩ := Value.descriptor.inj same
    rfl

/-- **A locator follows the slot** of a recorded effect of its family. -/
theorem runIn_locator (erased : (erase limit (.descriptor k own)).runIn w = some (.ok e, w₁))
    (slot : w₁.classes.slotOf k.id = .ok s) (member : k.isA family.id = true) :
    (limit (.locator family) [.descriptor k own]).runIn w₁ =
      (s.follow limit (.descriptor k own)).runIn w₁ := by
  obtain ⟨items, other⟩ | ⟨k', own', -, -, same, -, -, noted⟩ := recorded_cases erased
  · cases other
  obtain ⟨rfl, -⟩ := Value.descriptor.inj same
  rw [Machine.limit_locator]
  unfold locate
  dsimp only
  rw [if_pos member, Act.runIn_bind, runIn_slotOf, slot]
  -- The class has been asked for its slot when the effect was recorded.
  have asked : w₁.asked.add k.id = w₁.asked := by rw [noted, Consultations.add_add]
  rw [asked]

/-- It refuses any other effect, without a call. -/
theorem runIn_locator_foreign (foreign : k.isA family.id = false) (w : World) :
    (limit (.locator family) [.descriptor k own]).runIn w =
      some (.error (.fault (.foreignEffect k.name family.name)), w) := by
  rw [Machine.limit_locator]
  unfold locate
  simp [foreign, Value.typeName]

/-- Where the locator of all effects does not fail, it has followed a slot. -/
theorem exists_follow_of_any (erased : (erase limit d).runIn w = some (.ok e, w₁))
    (noFault : ∀ f w', (limit anyLocator [d]).runIn w₁ ≠ some (.error (.fault f), w')) :
    ∃ k own s, d = .descriptor k own ∧ w₁.classes.slotOf k.id = .ok s ∧
      (limit anyLocator [d]).runIn w₁ = (s.follow limit d).runIn w₁ := by
  obtain ⟨items, rfl⟩ | ⟨k, own, s, fill, rfl, slotted, -, noted⟩ := recorded_cases erased
  · refine absurd ?_ (noFault (.foreignEffect "list" ClassRef.effect.name) w₁)
    rw [anyLocator, Machine.limit_locator]
    rfl
  · have slot : w₁.classes.slotOf k.id = .ok s := by
      rw [noted]
      exact slotted.slot
    exact ⟨k, own, s, rfl, slot, runIn_locator erased slot slotted.effect⟩

/-! ### The way along the slots -/

/-- **The way** from the first tree to the second one along the slots of the effects between them:
`trace` has what is recorded of these effects, and `called` the calls of the functions in their
slots. -/
inductive Passes :
    World → Value → List Value → List (Value × List Value) → World → Value → Prop where
  | here (w : World) (node : Value) : Passes w node [] [] w node
  | step {k : ClassRef} {own : List (String × Value)} {s : Slot} {e next node : Value}
      {trace : List Value} {calls called : List (Value × List Value)} {w w₁ w₂ w' : World}
      (erased : (erase limit (.descriptor k own)).runIn w = some (.ok e, w₁))
      (slot : w₁.classes.slotOf k.id = .ok s) (followed : Followed w₁ k own s calls next w₂)
      (rest : Passes w₂ next trace called w' node) :
      Passes w (.tree (.suspended (.descriptor k own))) (e :: trace) (calls ++ called) w' node

/-- **The stepper follows the slots** of the effects in a trace, when it comes by them. -/
def FollowsSlots (stepper : Value) (w : World) (t : Value) (trace : List Value) : Prop :=
  ∀ before e after called w₁ k own s w₂, trace = before ++ e :: after →
    Passes w t before called w₁ (.tree (.suspended (.descriptor k own))) →
    (erase limit (.descriptor k own)).runIn w₁ = some (.ok e, w₂) →
    w₂.classes.slotOf k.id = .ok s →
    (limit stepper [.descriptor k own]).runIn w₂ = (s.follow limit (.descriptor k own)).runIn w₂

/-- The first effect on the way is followed. -/
theorem FollowsSlots.head
    (follows : FollowsSlots stepper w (.tree (.suspended (.descriptor k own))) (e :: trace))
    (erased : (erase limit (.descriptor k own)).runIn w = some (.ok e, w₁))
    (slot : w₁.classes.slotOf k.id = .ok s) :
    (limit stepper [.descriptor k own]).runIn w₁ = (s.follow limit (.descriptor k own)).runIn w₁ :=
  follows [] e trace [] w k own s w₁ rfl (.here _ _) erased slot

/-- So are the effects behind it. -/
theorem FollowsSlots.tail
    (follows : FollowsSlots stepper w (.tree (.suspended (.descriptor k own))) (e :: trace))
    (erased : (erase limit (.descriptor k own)).runIn w = some (.ok e, w₁))
    (slot : w₁.classes.slotOf k.id = .ok s) (followed : Followed w₁ k own s calls next w₂) :
    FollowsSlots stepper w₂ next trace := by
  intro before e' after called w₃ k' own' s' w₄ split passes erased' slot'
  have split' : e :: trace = (e :: before) ++ e' :: after := by rw [split, List.cons_append]
  exact follows _ e' after _ w₃ k' own' s' w₄ split' (.step erased slot followed passes) erased'
    slot'

/-- **The locator of a family** follows the slots of effects of the family. -/
theorem followsSlots_locator (members : ∀ e ∈ trace, e.isA family.id = true) :
    FollowsSlots (.locator family) w t trace := by
  intro before e after called w₁ k own s w₂ split _ erased slot
  have member : e.isA family.id = true := members e (by simp [split])
  rw [isA_of_recorded erased] at member
  exact runIn_locator erased slot member

/-- A stepper that follows the slots goes the way along the slots. -/
theorem Passes.reaches (h : Passes w t trace called w' node)
    (follows : FollowsSlots stepper w t trace) : Reaches stepper w t w' node := by
  induction h with
  | here w node => exact .here w node
  | @step k own s e next node trace calls called w w₁ w₂ w' erased slot followed _ ih =>
    have gives : (limit stepper [.descriptor k own]).Gives w₁ next w₂ := by
      have given := gives_follow_iff.mpr ⟨calls, followed⟩
      exact ⟨(follows.head erased slot).trans given.1, given.2⟩
    exact .step erased gives (ih (follows.tail erased slot followed))

/-! ### The analysis with the locator of all effects -/

/-- What gives a known value or nothing does not fail. -/
theorem noFault_of_runIn {a : Act Value} {x : Except Signal Value × World}
    (run : a.runIn w = some x) (ends : ∀ f, x.1 ≠ .error (.fault f)) (f : Fault) (w' : World) :
    a.runIn w ≠ some (.error (.fault f), w') := by
  intro failed
  rw [run] at failed
  exact ends f (congrArg Prod.fst (Option.some.inj failed))

/-- **The way to an effect** in the trace. -/
theorem exists_passes {calls : List Callback} {r : Found} (h : Recurses anyLocator t w calls r w')
    {stop : Stop} {before after : List Value} (ends : r = .ok (stop, before ++ e :: after)) :
    ∃ called k own w₁ w₂, Passes w t before called w₁ (.tree (.suspended (.descriptor k own))) ∧
      (erase limit (.descriptor k own)).runIn w₁ = some (.ok e, w₂) := by
  induction h generalizing before with
  | failed w | value forced | noValue forced => simp at ends
  | payloadFault forced | eraseFault erased | stepFault erased stepped => cases ends
  | noTree other written | noText other written => cases ends
  | @step d e' next w w₁ w₂ w' calls r erased stepped _ ih =>
    obtain ⟨k, own, s, rfl, slot, follow⟩ :=
      exists_follow_of_any erased (noFault_of_runIn stepped.1 (by simp))
    obtain ⟨rest, rfl, split⟩ := Found.ok_of_after ends
    cases before with
    | nil =>
      obtain ⟨rfl, rfl⟩ : e = e' ∧ after = rest := by simpa using split
      exact ⟨_, k, own, w, w₁, .here _ _, erased⟩
    | cons first before =>
      obtain ⟨rfl, rfl⟩ : first = e' ∧ before ++ e :: after = rest := by simpa using split
      obtain ⟨called, k', own', w₃, w₄, passes, erased'⟩ := ih rfl
      obtain ⟨_, followed⟩ := gives_follow_iff.mp ⟨follow.symm.trans stepped.1, stepped.2⟩
      exact ⟨_, k', own', w₃, w₄, .step erased slot followed passes, erased'⟩
  | @noStep d e' w w₁ w' erased stepped =>
    have noFault : ∀ f w', (limit anyLocator [d]).runIn w₁ ≠ some (.error (.fault f), w') := by
      rcases stepped with stepped | stepped
      all_goals exact noFault_of_runIn stepped (by simp)
    obtain ⟨k, own, s, rfl, slot, -⟩ := exists_follow_of_any erased noFault
    obtain ⟨rfl, rfl, rfl⟩ : before = [] ∧ e = e' ∧ after = [] := by
      cases before <;> simp_all
    exact ⟨_, k, own, w, w₁, .here _ _, erased⟩

/-- **Steppers that follow the slots** do as the locator of all effects. -/
theorem Recurses.of_follows {calls : List Callback} {r : Found}
    (h : Recurses anyLocator t w calls r w') {stop : Stop} (ends : r = .ok (stop, trace))
    (follows : FollowsSlots stepper w t trace) : Recurses stepper t w calls r w' := by
  induction h generalizing trace with
  | failed w => exact .failed w
  | value forced => exact .value forced
  | noValue forced => exact .noValue forced
  | payloadFault forced | eraseFault erased | stepFault erased stepped => cases ends
  | noTree other written | noText other written => cases ends
  | @step d e next w w₁ w₂ w' calls r erased stepped _ ih =>
    obtain ⟨k, own, s, rfl, slot, follow⟩ :=
      exists_follow_of_any erased (noFault_of_runIn stepped.1 (by simp))
    obtain ⟨rest, rfl, rfl⟩ := Found.ok_of_after ends
    obtain ⟨_, followed⟩ := gives_follow_iff.mp ⟨follow.symm.trans stepped.1, stepped.2⟩
    have same := (follows.head erased slot).trans follow.symm
    exact .step erased ⟨same.trans stepped.1, stepped.2⟩
      (ih rfl (follows.tail erased slot followed))
  | @noStep d e w w₁ w' erased stepped =>
    have noFault : ∀ f w', (limit anyLocator [d]).runIn w₁ ≠ some (.error (.fault f), w') := by
      rcases stepped with stepped | stepped
      all_goals exact noFault_of_runIn stepped (by simp)
    obtain ⟨k, own, s, rfl, slot, follow⟩ := exists_follow_of_any erased noFault
    obtain ⟨-, rfl⟩ : .needsInput = stop ∧ [e] = trace := by simpa using ends
    have same := (follows.head erased slot).trans follow.symm
    refine .noStep erased ?_
    unfold Act.GivesNothing
    rw [same]
    exact stepped

/-- The recursion behind an analysis that is carried out. -/
theorem exists_recurses_of_analyze {r : Option Value}
    (analyzed : (analyze limit stepper t).runIn w = some (.ok (.analysis r trace), w')) :
    ∃ calls stop w₁, Recurses stepper t w calls (.ok (stop, trace)) w₁ ∧
      (.ok (.analysis r trace), w') = conclude [] (.ok (stop, trace)) w₁ := by
  obtain ⟨calls, found, w₁, recurses, -, ends⟩ := (runIn_analyze_iff _ _ _ _).mp analyzed
  cases found with
  | error f => simp [conclude] at ends
  | ok x =>
    obtain ⟨stop, trace'⟩ := x
    obtain rfl : trace = trace' := by
      simp only [conclude, List.nil_append, Prod.mk.injEq, Except.ok.injEq,
        Value.analysis.injEq] at ends
      exact ends.1.2
    exact ⟨calls, stop, w₁, recurses, ends⟩

theorem analyze_of_follows {r : Option Value}
    (analyzed : (analyze limit anyLocator t).runIn w = some (.ok (.analysis r trace), w'))
    (follows : FollowsSlots stepper w t trace) :
    (analyze limit stepper t).runIn w = some (.ok (.analysis r trace), w') := by
  obtain ⟨calls, stop, w₁, recurses, ends⟩ := exists_recurses_of_analyze analyzed
  have same := recurses.of_follows rfl follows
  exact (runIn_analyze_iff _ _ _ _).mpr ⟨calls, _, w₁, same, same.orderly, ends⟩

/-! ### Extractors -/

/-- The branch of an extractor for the instances of a class with the given slot. -/
def branch (name : String) (s : Slot) : (String × List (String × String)) × Expr :=
  ((name, [("content", s.name)]),
    match s.kind with
    | .direct => .var "content"
    | .function n => .call (.var "content") (List.replicate n (.library "POISON" [])))

/-- **An extractor** as one writes it by hand: the function that tells classes apart and gives what
is in the slot, or calls it with unknown arguments if it is a function slot. -/
def extractor (slots : List (String × Slot)) : Value :=
  .function (.closure ["d"] (.cases (.var "d") (slots.map fun x => branch x.1 x.2) none) [])

/-- The first class that an instance of `k` belongs to has the slot `s`. The names `int` and `str`
stand for something else. -/
inductive Picks (T : ClassTable) (k : ClassRef) (s : Slot) : List (String × Slot) → Prop where
  | here {name : String} {c : ClassRef} {rest : List (String × Slot)}
      (plain : name ≠ "int" ∧ name ≠ "str") (named : T.named? name = some c)
      (member : k.isA c.id = true) : Picks T k s ((name, s) :: rest)
  | later {name : String} {c : ClassRef} {other : Slot} {rest : List (String × Slot)}
      (plain : name ≠ "int" ∧ name ≠ "str") (named : T.named? name = some c)
      (foreign : k.isA c.id = false) (picks : Picks T k s rest) :
      Picks T k s ((name, other) :: rest)

theorem runIn_belongsTo {name : String} {c : ClassRef} (plain : name ≠ "int" ∧ name ≠ "str")
    (named : w.classes.named? name = some c) :
    ((Value.descriptor k own).belongsTo name).runIn w = some (.ok (k.isA c.id), w) := by
  unfold Value.belongsTo
  split
  · exact absurd rfl plain.1
  · exact absurd rfl plain.2
  · rw [Act.runIn_bind, Act.runIn_classes]
    dsimp only
    rw [named]
    rfl

theorem evalAll_poison (call : Caller) (env : Env) (n : Nat) :
    Expr.evalAll call env (List.replicate n (.library "POISON" [])) =
      pure (List.replicate n .poison) := by
  induction n with
  | zero => rfl
  | succ n ih =>
    rw [List.replicate_succ, Expr.evalAll, ih]
    rfl

/-- The body of a branch, with the content of the slot at hand. -/
theorem eval_branch (call : Caller) (env : Env) (name : String) (s : Slot) (v : Value)
    (callable : s.kind = .direct ∨ v.isCallable = true) :
    (branch name s).2.eval call (("content", v) :: env) =
      match s.kind with
      | .direct => pure v
      | .function n => call v (List.replicate n .poison) := by
  unfold branch
  cases kind : s.kind with
  | direct => rfl
  | function n =>
    have isCallable : v.isCallable = true := callable.resolve_left (by simp [kind])
    dsimp only
    rw [Expr.eval, evalAll_poison, Expr.eval]
    change (if v.isCallable then call v (List.replicate n .poison) else _) = _
    rw [if_pos isCallable]

/-- The case that applies is that of the slot, with its content bound to a name. -/
theorem runIn_evalCases {call : Caller} {env : Env} {slots : List (String × Slot)}
    (picks : Picks w.classes k s slots)
    (callable : ∀ v, SlotHolds w.classes k own s v → s.kind = .direct ∨ v.isCallable = true) :
    (Expr.evalCases call env (.descriptor k own) (slots.map fun x => branch x.1 x.2)).runIn w =
      (s.follow call (.descriptor k own) >>= fun v => pure (some v)).runIn w := by
  induction picks with
  | @later name c other rest plain named foreign picks ih =>
    rw [List.map_cons, branch, Expr.evalCases, Act.runIn_bind, runIn_belongsTo plain named, foreign]
    exact ih
  | @here name c rest plain named member =>
    have first : branch name s = ((name, [("content", s.name)]), (branch name s).2) := rfl
    rw [List.map_cons, first, Expr.evalCases, Act.runIn_bind, runIn_belongsTo plain named, member]
    simp only [if_true, Env.bindFields, bind_assoc, pure_bind]
    rw [Act.runIn_bind, runIn_lookup, Act.runIn_bind, runIn_follow]
    cases holds : w.classes.memberOf? k.id own .scalar s.name with
    | none => rfl
    | some v =>
      dsimp only
      rw [eval_branch call env name s v (callable v holds), Act.runIn_bind]
      cases s.kind <;> rfl

/-- **An extractor follows the slot** of an instance if the first class that fits has the slot. -/
theorem limit_extractor {slots : List (String × Slot)} (picks : Picks w.classes k s slots)
    (callable : ∀ v, SlotHolds w.classes k own s v → s.kind = .direct ∨ v.isCallable = true) :
    (limit (extractor slots) [.descriptor k own]).runIn w =
      (s.follow limit (.descriptor k own)).runIn w := by
  let d := Value.descriptor k own
  let cases := slots.map fun x => branch x.1 x.2
  have body : limit (extractor slots) [d] =
      Expr.eval limit [("d", d)] (.cases (.var "d") cases none) :=
    Machine.limit_closure ["d"] (.cases (.var "d") cases none) [] [d]
  have subject : Expr.eval limit [("d", d)] (.var "d") = pure d := rfl
  rw [body, Expr.eval, subject, pure_bind, Act.runIn_bind, runIn_evalCases picks callable,
    Act.runIn_bind]
  rcases (s.follow limit d).runIn w with _ | ⟨_ | _, _⟩ <;> rfl

/-! ### The locator of a family -/

/-- Where it is not of the family, there is a first one that is not. -/
theorem exists_first_foreign {id : Nat} (foreign : ¬ ∀ e ∈ trace, e.isA id = true) :
    ∃ before e after, trace = before ++ e :: after ∧ (∀ x ∈ before, x.isA id = true) ∧
      e.isA id = false := by
  cases found : trace.find? fun e => !e.isA id with
  | none => exact absurd (by simpa using found) foreign
  | some e =>
    obtain ⟨isForeign, before, after, split, first⟩ := List.find?_eq_some_iff_append.mp found
    exact ⟨before, e, after, split, by simpa using first, by simpa using isForeign⟩

/-- A locator that has been derived is the one of the class. -/
theorem eq_locator_of_derived {c : ClassRef} {locator : Value}
    (derived : (deriveLocator c).runIn w = some (.ok locator, w')) : locator = .locator c := by
  cases effect : c.isEffect with
  | true => exact (assured_of_deriveLocator effect derived).1
  | false =>
    unfold deriveLocator at derived
    simp [effect] at derived

/-- **A derived locator is the locator of all effects, restricted to its family.** -/
theorem analyze_derived {c : ClassRef} {locator : Value} {w₀ w₀' : World} {r : Option Value}
    (derived : (deriveLocator c).runIn w₀ = some (.ok locator, w₀'))
    (analyzed : (analyze limit anyLocator t).runIn w = some (.ok (.analysis r trace), w')) :
    ((∀ e ∈ trace, e.isA c.id = true) →
      (analyze limit locator t).runIn w = some (.ok (.analysis r trace), w') ∧
      ∀ extractor, FollowsSlots extractor w t trace →
        (analyze limit extractor t).runIn w = some (.ok (.analysis r trace), w')) ∧
    ((¬ ∀ e ∈ trace, e.isA c.id = true) →
      ∃ before e after called k own w₁ w₂, trace = before ++ e :: after ∧
        (∀ x ∈ before, x.isA c.id = true) ∧ e.isA c.id = false ∧
        Passes w t before called w₁ (.tree (.suspended (.descriptor k own))) ∧
        (erase limit (.descriptor k own)).runIn w₁ = some (.ok e, w₂) ∧
        (analyze limit locator t).runIn w =
          some (.error (.fault (.foreignEffect k.name c.name)), w₂)) := by
  obtain rfl := eq_locator_of_derived derived
  refine ⟨fun members => ⟨?_, fun extractor follows => analyze_of_follows analyzed follows⟩,
    fun foreign => ?_⟩
  · exact analyze_of_follows analyzed (followsSlots_locator members)
  · obtain ⟨before, e, after, rfl, first, isForeign⟩ := exists_first_foreign foreign
    obtain ⟨calls, stop, _, recurses, -⟩ := exists_recurses_of_analyze analyzed
    obtain ⟨called, k, own, w₁, w₂, passes, erased⟩ := exists_passes recurses rfl
    have reached := passes.reaches (followsSlots_locator first)
    rw [isA_of_recorded erased] at isForeign
    have stepped : (limit (.locator c) [.descriptor k own]).runIn w₂ =
        some (.error (.fault (.foreignEffect k.name c.name)), w₂) :=
      runIn_locator_foreign isForeign w₂
    refine ⟨before, e, after, called, k, own, w₁, w₂, rfl, first, ?_, passes, erased,
      runIn_analyze_fault_iff.mpr ⟨w₁, _, reached, .step erased stepped⟩⟩
    rw [isA_of_recorded erased]
    exact isForeign

namespace Dialogue

open EffectTrees.Dialogue

/-- Finishes, whatever the answer. -/
def finishing : Value := .function (.closure ["n"] (.library "Done" [.scalar (.int 1)]) [])

theorem analyzes_ask_finishing :
    Analyzes table anyLocator (ask finishing) (some (.int 1)) [asking .unit] := by
  have yields : (limit finishing [.poison]).Yields table (.tree (Tree.pure (.int 1))) := by
    rw [finishing, Machine.limit_closure]
    exact Act.yields_pure _
  refine .step (.effect (slotted_ask finishing)) ?_ (by simp) (.pure _ rfl)
  exact Act.settles_ok_iff.mp
    (settles_locate_function (n := 1) rfl rfl rfl (holds_ask finishing) yields.settles)

theorem runIn_deriveLocator_ask : ∃ w₀, w₀.classes = table ∧
    (deriveLocator askClass).runIn (.initial table) = some (.ok (.locator askClass), w₀) := by
  have members : table.constructorsOf askClass.id = [2] := by cbv
  refine ⟨{ World.initial table with asked := Consultations.none.add 2 }, rfl, ?_⟩
  rw [runIn_deriveLocator rfl, show (World.initial table).classes = table from rfl, members]
  rfl

theorem followsSlots_extractor_ask (classes : w.classes = table) :
    FollowsSlots (extractor [("Ask", ⟨"answer", .function 1⟩)]) w (ask finishing)
      [asking .unit] := by
  intro before e after called w₁ k own s w₂ split passes erased slot
  -- There is one effect only, so the way to it is empty.
  obtain ⟨rfl, rfl, rfl⟩ : before = [] ∧ e = asking .unit ∧ after = [] := by
    cases before <;> simp_all
  generalize from? : ask finishing = t at passes
  cases passes with
  | here _ _ =>
    obtain ⟨rfl, rfl⟩ : askClass = k ∧ [("answer", finishing)] = own := by
      simpa [ask, asking] using from?
    have sameClasses : w₂.classes = table := by
      obtain ⟨items, other⟩ | ⟨_, _, _, _, -, -, -, noted⟩ := recorded_cases erased
      · cases other
      · rw [noted]
        exact classes
    obtain rfl : s = ⟨"answer", .function 1⟩ := by
      rw [sameClasses] at slot
      exact slotOf_unique (c := askClass) slot rfl
    refine limit_extractor ?_ fun v holds => ?_
    · rw [sameClasses]
      exact .here (c := askClass) (by decide) rfl rfl
    · rw [sameClasses] at holds
      obtain rfl := holds.unique (holds_ask finishing)
      exact .inr rfl

end Dialogue

open EffectTrees.Dialogue Dialogue in
/-- A question is analysed with the locator of questions. Where a statement follows, the locator
refuses it. -/
theorem analyze_derived_dialogue : ∃ w₀ w₁ w₂ : World,
    (deriveLocator askClass).runIn (.initial table) = some (.ok (.locator askClass), w₀) ∧
    (analyze limit (.locator askClass) (ask finishing)).runIn w₀ =
      some (.ok (.analysis (some (.int 1)) [asking .unit]), w₁) ∧
    (analyze limit (extractor [("Ask", ⟨"answer", .function 1⟩)]) (ask finishing)).runIn w₀ =
      some (.ok (.analysis (some (.int 1)) [asking .unit]), w₁) ∧
    (analyze limit (.locator askClass) (ask echo)).runIn w₀ =
      some (.error (.fault (.foreignEffect "Say" "Ask")), w₂) := by
  obtain ⟨w₀, classes, derived⟩ := runIn_deriveLocator_ask
  obtain ⟨w₁, finished, -⟩ := analyzes_ask_finishing w₀ classes
  obtain ⟨w', echoed, -⟩ := analyzes_ask_echo w₀ classes
  have questions := (analyze_derived derived finished).1 (by simp [asking, Value.isA, ClassRef.isA,
    askClass])
  have statement := (analyze_derived derived echoed).2 (by simp [asking, saying, Value.isA,
    ClassRef.isA, askClass, sayClass])
  obtain ⟨before, e, after, called, k, own, w₃, w₂, split, first, foreign, -, erased, fails⟩ :=
    statement
  obtain rfl : saying .poison .unit = e := by
    rcases before with _ | ⟨_, _ | ⟨_, _⟩⟩
    · obtain ⟨rfl, -⟩ := List.cons.inj split
      cases foreign
    · exact (List.cons.inj (List.cons.inj split).2).1
    · simp at split
  have name : k.name = "Say" := (erased_of_runIn erased).typeName.symm
  rw [name] at fails
  have extracted := questions.2 _ (followsSlots_extractor_ask classes)
  exact ⟨w₀, w₁, w₂, derived, questions.1, extracted, fails⟩

end Analysis

end EffectTrees
