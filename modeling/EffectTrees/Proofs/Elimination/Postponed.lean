import Mathlib
import EffectTrees.Proofs.Exchange.Filling

/-!
# Iterations that put off what follows

An algebra may be given what follows an effect evaluated (`Tree.iterateIn`) or put off, as a function
that goes on with the iteration when it is called (`Tree.iterateLater`). The second iteration is no
less general: an algebra that starts at once what has been put off makes the first iteration of it.

* `Postponed.starting` — the algebra that starts what the slots of a descriptor put off, and passes
  the descriptor on. A function slot has not been called, so it is left as it is.
* `Copyable` — all effects with direct slots in a tree can be copied.
* `iterateLater_starting` — for such trees, and as long as no class is registered on the way, both
  iterations come to the same and write the same on their way.
* `iterateLater_starting_torn` — neither condition can be left out. The iteration that puts off makes
  a copy before it starts anything, and another one afterwards.

What the two iterations come to may hold functions that go on with the one or the other. So values
are compared up to functions that go on with either iteration (`Postponed.laterNow`); that these do
the same when they are called is a part of what is proved.
-/

namespace EffectTrees

open Machine (limit)
open Act (ComesTo)

/-! ### To start what has been put off -/

namespace Postponed

/-- The function that calls what it is given. -/
def start : Value := .function (.closure ["k"] (.call (.var "k") []) [])

/-- The function that refuses what it is given. -/
def refuse : Value := .function (.closure ["k"] (.raise "TypeError" "") [])

/-- The function that starts what is in the slots of a descriptor, and leaves an effect with a
function slot as it is. To tell the one from the other it maps a function over the slots that fails
when it is called: the function of a function slot is composed with it, and nothing is called. -/
def starter : Value :=
  .function (.closure ["d"]
    (.attempt (.bind "same" (.library "fmap" [.var "d", .var "refuse"]) (.var "d"))
      (.library "fmap" [.var "d", .var "start"]))
    [("refuse", refuse), ("start", start)])

/-- The descriptor with what its slots put off started; an effect with a function slot is left as it
is. -/
def startSlots (call : Caller) (d : Value) : Act Value :=
  match d with
  | .descriptor c _ =>
    if c.isEffect then do
      match (← Act.slotOf c).kind with
      | .function _ => pure d
      | .direct => fmap call d start
    else fmap call d start
  | _ => fmap call d start

/-- The algebra that starts what has been put off and passes the descriptor on. -/
def starting (algebra : Value) : Value := .after algebra starter

theorem apply_start (call : Caller) (f : Function) :
    start.apply call [.function f] = call (.function f) [] := rfl

theorem apply_starter (call : Caller) (d : Value) :
    starter.apply call [d] =
      tryCatch (do let _ ← fmap call d refuse; pure d) fun s =>
        match s with
        | .abort => Act.abort
        | .fault _ => fmap call d start := rfl

variable {T : ClassTable} {call : Caller} {d : Value} {w : World}

/-- On a descriptor with slots that can be filled the starter does what it is meant to do. -/
theorem runIn_starter (refuses : ∀ x, call refuse [x] = Act.fail (.raised "TypeError" ""))
    (h : Fillable T d) (hw : w.classes = T) :
    (starter.apply call [d]).runIn w = (startSlots call d).runIn w := by
  subst hw
  rw [apply_starter, Act.runIn_tryCatch, Act.runIn_bind]
  cases h with
  | list items =>
    cases items with
    | nil => rfl
    | cons x rest =>
      have first : (fmap call (.list (x :: rest)) refuse).runIn w =
          some (.error (.fault (.raised "TypeError" "")), w) := by
        change (do return Value.list (← (x :: rest).mapM fun v => call refuse [v])).runIn w = _
        rw [List.mapM_cons, refuses]
        rfl
      rw [first]
      rfl
  | @effect c own s fill x slotted holds =>
    -- Both ask for the slot first, and from then on they run in the same world.
    let w' : World := { w with asked := w.asked.add c.id }
    have asked : (Act.slotOf c).runIn w = some (.ok s, w') := by rw [runIn_slotOf, slotted.slot]
    have found : ((Value.descriptor c own).lookup s.name).runIn w' = some (.ok x, w') := by
      rw [runIn_lookup, show w'.classes.memberOf? c.id own .scalar s.name = some x from holds]
    have tried : (fmap call (.descriptor c own) refuse).runIn w =
        (s.map call (.descriptor c own) refuse).runIn w' := by
      unfold fmap
      dsimp only
      rw [if_pos slotted.effect, Act.runIn_bind, asked]
    unfold startSlots
    dsimp only
    rw [tried, if_pos slotted.effect, Act.runIn_bind, asked]
    dsimp only
    cases kind : s.kind with
    | direct =>
      have refused : (s.map call (.descriptor c own) refuse).runIn w' =
          some (.error (.fault (.raised "TypeError" "")), w') := by
        unfold Slot.map
        rw [Act.runIn_bind, found, kind]
        dsimp only
        rw [refuses]
        rfl
      rw [refused]
    | function n =>
      have filled : (s.map call (.descriptor c own) refuse).runIn w' =
          some (.ok (.descriptor c (fill (.after refuse x))), w') := by
        unfold Slot.map
        rw [Act.runIn_bind, found, kind]
        dsimp only
        rw [replaceMember_descriptor, Instance.runIn_replace, slotted.fills]
        rfl
      rw [filled]
      rfl

/-- What the starter does within some depth. -/
theorem runIn_startSlots_of_call (n : Nat) {x : Except Signal Value × World} (h : Fillable T d)
    (hw : w.classes = T) (run : (Machine.call n starter [d]).runIn w = some x) :
    (startSlots (Machine.call (n + 1)) d).runIn w = some x := by
  have refuses : ∀ x, Machine.call (n + 1) refuse [x] = Act.fail (.raised "TypeError" "") :=
    fun _ => rfl
  rw [← runIn_starter refuses h hw]
  exact Machine.runIn_call_of_le (m := n + 2) (by omega) run

theorem runIn_limit_starter (h : Fillable T d) (hw : w.classes = T) :
    (limit starter [d]).runIn w = (startSlots limit d).runIn w := by
  rw [Machine.limit_eq]
  exact runIn_starter (fun x => Machine.limit_eq _ _) h hw

/-! ### To put off and to start -/

variable (algebra target : Value)

/-- The iteration with the contents put off that starts them at once. -/
def later : Value := .frame (.iterateLater (starting algebra) target)

/-- The iteration of the contents. -/
def now : Value := .frame (.iterateIn algebra target)

/-- The iteration over a value, put off. -/
def putOff (x : Value) : Value :=
  .function (.delayed (.iterateLater (starting algebra) target) x)

variable {algebra target}

theorem limit_postpone (x : Value) :
    limit (.frame (.postpone (starting algebra) target)) [x] =
      pure (putOff algebra target x) := by
  rw [Machine.limit_frame]
  rfl

theorem call_start (n : Nat) (x : Value) :
    Machine.call (n + 1) start [putOff algebra target x] =
      Machine.call n (later algebra target) [x] := by
  cases n <;> rfl

theorem limit_start (x : Value) :
    limit start [putOff algebra target x] = limit (later algebra target) [x] := by
  rw [Machine.limit_eq, putOff, apply_start, Machine.limit_eq, later, Machine.limit_eq]
  rfl

variable (algebra target)

/-- What an iteration with the contents put off hands to the algebra proper. -/
noncomputable def handed (call : Caller) (d : Value) : Act Value := do
  startSlots call (← Tree.postponeSlots limit (starting algebra) target d)

variable {algebra target} {c : ClassRef} {own : List (String × Value)} {s : Slot}
  {fill : Value → List (String × Value)}

theorem mapM_pure {α β : Type} (f : α → β) (xs : List α) :
    (xs.mapM fun x => (pure (f x) : Act β)) = pure (xs.map f) := by
  induction xs with
  | nil => rfl
  | cons x xs ih => rw [List.mapM_cons, ih]; rfl

theorem handed_list (items : List Value) :
    handed algebra target call (.list items) =
      (do return .list (← items.mapM fun x => call start [putOff algebra target x])) := by
  have put : Tree.postponeSlots limit (starting algebra) target (.list items) =
      pure (.list (items.map (putOff algebra target))) := by
    change (do return Value.list (← items.mapM fun x => limit _ [x])) = _
    simp only [limit_postpone, mapM_pure]
    rfl
  unfold handed
  rw [put, pure_bind]
  change (do return Value.list (← (items.map _).mapM fun x => call start [x])) = _
  rw [List.mapM_map]
  rfl

/-- The content of a direct slot is started in a copy of the descriptor. -/
theorem handed_direct {x : Value} (slotted : Slotted T c own s fill) (kind : s.kind = .direct)
    (holds : SlotHolds T c own s x) :
    ComesTo T (handed algebra target call (.descriptor c own))
      (do
        let y ← call start [putOff algebra target x]
        (Value.descriptor c (fill (putOff algebra target x))).replaceMember s.name y) := by
  have put : ComesTo T (Tree.postponeSlots limit (starting algebra) target (.descriptor c own))
      (pure (.descriptor c (fill (putOff algebra target x)))) := by
    unfold Tree.postponeSlots
    dsimp only
    rw [if_pos slotted.effect]
    refine (comesTo_slotOf slotted.slot).step ?_
    rw [kind]
    refine (comesTo_fmap_direct slotted.effect slotted.slot kind holds).trans ?_
    rw [limit_postpone, pure_bind]
    exact slotted.comesTo_replaceMember _
  refine put.step ?_
  unfold startSlots
  dsimp only
  rw [if_pos slotted.effect]
  refine (comesTo_slotOf slotted.slot).step ?_
  rw [kind]
  exact comesTo_fmap_direct slotted.effect slotted.slot kind (slotted.holds_fill _)

/-- To put off and to start again fills the slots with what has been started. -/
theorem fills_handed (T : ClassTable) (call : Caller) (algebra target d : Value) :
    Fills T (fun x => call start [putOff algebra target x]) (.after (later algebra target)) d
      (handed algebra target call d) where
  list := by
    rintro items rfl
    rw [handed_list]
    exact .refl _
  direct := by
    rintro c own s x rfl slot kind holds fillable
    cases fillable with
    | effect slotted _ =>
      obtain rfl := slotOf_unique slotted.slot slot
      exact ⟨_, slotted.refill_comesTo _, handed_direct slotted kind holds⟩
  function := by
    rintro c own s n g rfl effect slot kind holds
    refine ⟨startSlots call, fun own' => ?_, .bind ?_ _⟩
    · unfold startSlots
      dsimp only
      rw [if_pos effect]
      refine (comesTo_slotOf slot).step ?_
      rw [kind]
      exact .refl _
    · unfold Tree.postponeSlots
      dsimp only
      rw [if_pos effect]
      refine (comesTo_slotOf slot).step ?_
      rw [kind]
      exact comesTo_fmap_function effect slot kind holds
  missing := by
    rintro c own s rfl effect slot none
    refine .fails ?_ _
    unfold Tree.postponeSlots
    dsimp only
    rw [if_pos effect]
    refine (comesTo_slotOf slot).step ?_
    have failed : ∀ f, ComesTo T (fmap limit (.descriptor c own) f) (Act.fail .missingMember) :=
      fun f => (comesTo_fmap effect slot).trans ((comesTo_lookup_fail none).fails _)
    cases s.kind <;> exact failed _
  noSlot := by
    rintro c own f rfl effect none
    refine .fails ?_ _
    unfold Tree.postponeSlots
    dsimp only
    rw [if_pos effect]
    exact (comesTo_slotOf_fail none).fails _
  noEffect := by
    rintro c own rfl other
    have put : Tree.postponeSlots limit (starting algebra) target (.descriptor c own) =
        Act.fail (.noSlots c.name) := by
      unfold Tree.postponeSlots
      simp only [other, Bool.false_eq_true, if_false]
      exact fmap_of_not_effect other
    unfold handed
    rw [put]
    rfl
  noDescriptor := by
    intro noList noInstance
    have put : Tree.postponeSlots limit (starting algebra) target d =
        Act.fail (.noSlots d.typeName) := by
      unfold Tree.postponeSlots
      split
      · exact absurd rfl (noInstance _ _)
      · exact fmap_of_not_descriptor noList noInstance
    unfold handed
    rw [put]
    rfl

end Postponed

/-! ### Trees whose effects can be copied -/

/-- The descriptor is no effect whose direct slot cannot be filled, and `P` holds of its contents and
of what its function slots give. -/
structure CopyStep (T : ClassTable) (P : Value → Prop) (d : Value) : Prop where
  fillable {x : Value} (at_hand : AtHand T d x) : Fillable T d
  content {x : Value} (at_hand : AtHand T d x) : P x
  behind {n : Nat} {g : Value} (held : Behind T d n g) {args : List Value} {w w' : World} {x : Value}
    (hw : w.classes = T) (run : (limit g args).runIn w = some (.ok x, w')) : P x

/-- **All effects with direct slots can be copied**, wherever in the tree they are: a copy with
something else in the slot can be made. Trees may go on forever behind their function slots. -/
def Copyable (T : ClassTable) (t : Value) : Prop :=
  ∃ P : Value → Prop, P t ∧ ∀ d, P (.tree (.suspended d)) → CopyStep T P d

/-- The function gives such trees. -/
def GivesCopyable (T : ClassTable) (g : Value) : Prop :=
  ∀ {args : List Value} {w w' : World} {x : Value}, w.classes = T →
    (limit g args).runIn w = some (.ok x, w') → Copyable T x

theorem Copyable.step {T : ClassTable} {d : Value} (h : Copyable T (.tree (.suspended d))) :
    CopyStep T (Copyable T) d := by
  obtain ⟨P, start, steps⟩ := h
  have step := steps d start
  exact ⟨step.fillable, fun at_hand => ⟨P, step.content at_hand, steps⟩,
    fun held _ _ _ _ hw run => ⟨P, step.behind held hw run, steps⟩⟩

/-! ### The two iterations side by side -/

namespace Postponed

variable {T : ClassTable} {algebra target d x x' : Value}

/-- Functions that go on with `F` are exchanged for ones that go on with `F'`. -/
def passing (T : ClassTable) (F F' : Value) : Exchange where
  Swaps C f f' := ∃ g g', C g g' ∧ GivesCopyable T g' ∧ f = .after F g ∧ f' = .after F' g'
  mono h := by
    rintro f f' ⟨g, g', hg, gives, hf, hf'⟩
    exact ⟨g, g', h _ _ hg, gives, hf, hf'⟩
  typeName := by
    rintro C f f' ⟨g, g', -, -, rfl, rfl⟩
    rfl
  left_ne := by
    rintro C f f' ⟨g, g', -, -, rfl, rfl⟩
    simp
  right_ne := by
    rintro C f f' ⟨g, g', -, -, rfl, rfl⟩
    simp

/-- Two ways to go on, one beside the other. -/
def sides (T : ClassTable) (F F' : Value) (observed : Prop) : Comparison :=
  { passing T F F' with classes := T, observed := observed }

theorem callers_sides {F F' : Value} {observed : Prop}
    (goes_on : ∀ n, (sides T F F' observed).Callers (Machine.call n) limit → ∀ {x x'},
      (sides T F F' observed).Rel x x' → Copyable T x' →
        (sides T F F' observed).Matched (sides T F F' observed).Rel (Machine.call n F [x])
          (limit F' [x'])) (n : Nat) :
    (sides T F F' observed).Callers (Machine.call n) limit := by
  refine Comparison.callers_call (fun n hc f f' args args' swap ha => ?_) n
  obtain ⟨g, g', hg, gives, rfl, rfl⟩ := swap
  have inner := (hc g g' args args' hg ha).and_right fun w w' x hw run => gives hw run
  rw [show Value.function (.after F' g') = Value.after F' g' from rfl, Value.after,
    Machine.limit_after]
  exact inner.bind fun x x' related => goes_on n hc related.1 related.2

theorem rel_later {F F' : Value} {observed : Prop} {n : Nat} {g g' : Value}
    (copyable : Copyable T (.tree (.suspended d))) (held : Behind T d n g')
    (h : (sides T F F' observed).Rel g g') :
    (sides T F F' observed).Rel (.after F g) (.after F' g') :=
  .swap ⟨g, g', h, fun hw run => copyable.step.behind held hw run, rfl, rfl⟩

/-- What has been put off can be started. -/
theorem faultOr_postponeSlots (d : Value) :
    (Tree.postponeSlots limit (starting algebra) target d).FaultOr T (Fillable T) := by
  have postponed : (fmap limit d (.frame (.postpone (starting algebra) target))).FaultOr T
      (Fillable T) :=
    (faultOr_fmap (C := fun _ _ => True) fun x _ => by
      rw [limit_postpone]
      exact Act.faultOr_pure trivial).mono fun _ refills => refills.fillable_right
  unfold Tree.postponeSlots
  split
  · split_ifs with effect
    · refine faultOr_slotOf.bind fun s slot => ?_
      cases kind : s.kind with
      | direct => exact postponed
      | function n =>
        -- There is nothing at hand in a function slot, so nothing is called.
        refine (faultOr_fmap (C := fun _ _ => True) fun x at_hand => ?_).mono fun _ refills =>
          refills.fillable_right
        cases at_hand with
        | content _ slot' direct _ =>
          exact (slotOf_exclusive slot' direct slot kind).elim
    · exact postponed
  · exact postponed

/-- What the iteration that puts off does with a descriptor. -/
theorem iterateLater_comesTo (d : Value) :
    ComesTo T (Tree.iterateLater limit (starting algebra) target (.tree (.suspended d)))
      (do limit algebra [← handed algebra target limit d]) := by
  refine .of_runs fun w hw => ?_
  change (Tree.postponeSlots limit (starting algebra) target d >>= fun v =>
    limit (starting algebra) [v]).runIn w = _
  unfold handed starting Value.after
  rw [bind_assoc, Act.runIn_bind, Act.runIn_bind]
  cases put : (Tree.postponeSlots limit (.function (.after algebra starter)) target d).runIn w with
  | none => rfl
  | some p =>
    obtain ⟨r, w₁⟩ := p
    rcases faultOr_postponeSlots d w hw r w₁ put with ⟨f, rfl⟩ | ⟨v, rfl, fillable, hw₁⟩
    · rfl
    · dsimp only
      rw [Machine.limit_after, Act.runIn_bind, Act.runIn_bind, runIn_limit_starter fillable hw₁]

/-- Within some depth. -/
theorem runIn_iterateLater_of_call (n : Nat) {w : World} {y : Except Signal Value × World}
    (hw : w.classes = T)
    (run : (Tree.iterateLater (Machine.call n) (starting algebra) target
      (.tree (.suspended d))).runIn w = some y) :
    (do Machine.call n algebra [← handed algebra target (Machine.call n) d]).runIn w = some y := by
  change (Tree.postponeSlots (Machine.call n) (starting algebra) target d >>= fun v =>
    Machine.call n (starting algebra) [v]).runIn w = _ at run
  -- What has been put off within the depth is what is put off without a limit.
  have put_limit : ∀ {z}, (Tree.postponeSlots (Machine.call n) (starting algebra) target d).runIn w =
      some z → (Tree.postponeSlots limit (starting algebra) target d).runIn w = some z :=
    (Tree.respects_postponeSlots (R := Act.convergence) Machine.tends_limit _ _
      _).runIn_limit
  unfold handed
  rw [bind_assoc, Act.runIn_bind]
  rw [Act.runIn_bind] at run
  cases put : (Tree.postponeSlots (Machine.call n) (starting algebra) target d).runIn w with
  | none => simp [put] at run
  | some p =>
    obtain ⟨r, w₁⟩ := p
    rw [put_limit put]
    rw [put] at run
    rcases faultOr_postponeSlots d w hw r w₁ (put_limit put) with ⟨f, rfl⟩ | ⟨v, rfl, fillable, hw₁⟩
    · exact run
    · dsimp only at run ⊢
      cases n with
      | zero => simp at run
      | succ m =>
        -- One call is for the composite of the algebra and the starter.
        have started : ∀ {z}, (Machine.call m starter [v]).runIn w₁ = some z →
            (startSlots (Machine.call (m + 1)) v).runIn w₁ = some z :=
          fun hz => runIn_startSlots_of_call m fillable hw₁ hz
        change (Machine.call m starter [v] >>= fun u => Machine.call m algebra [u]).runIn w₁ = _ at run
        rw [Act.runIn_bind] at run ⊢
        cases begun : (Machine.call m starter [v]).runIn w₁ with
        | none => simp [begun] at run
        | some q =>
          obtain ⟨s, w₂⟩ := q
          rw [started begun]
          rw [begun] at run
          cases s with
          | error s => exact run
          | ok u => exact Machine.runIn_call_of_le (Nat.le_succ m) run

variable (T algebra target) in
/-- The iteration that puts off on the left, the other one on the right. -/
def laterNow : Comparison := sides T (later algebra target) (now algebra target) True

variable (T algebra target) in
/-- The other way around. What is logged is compared from left to right only. -/
def nowLater : Comparison := sides T (now algebra target) (later algebra target) False

section

variable (ha : Quiet algebra) (ht : Quiet target)
include ha ht

/-- **What has been put off follows.** The induction is on the depth of calls: what is started within
some depth is the iteration over a content within a smaller one. -/
theorem matched_later_now (n : Nat) (hc : (laterNow T algebra target).Callers (Machine.call n) limit)
    (h : (laterNow T algebra target).Rel x x') (copyable : Copyable T x') :
    (laterNow T algebra target).Matched (laterNow T algebra target).Rel
      (Machine.call n (later algebra target) [x]) (limit (now algebra target) [x']) := by
  induction n generalizing x x' with
  | zero => exact .tooDeep
  | succ n ih =>
    have hcn := hc.of_succ
    have target_rel := ht.rel (laterNow T algebra target).toExchange
    rw [now, Machine.limit_frame]
    change Comparison.Matched _ _ (Tree.iterateLater (Machine.call n) (starting algebra) target x)
      (Tree.iterateIn limit algebra target x')
    cases h.shape with
    | tree t =>
      cases t with
      | done p => exact .leafIn hcn target_rel p
      | failed => exact .invoke hcn target_rel .empty .nil
      | @suspended d d' hd =>
        have step := copyable.step
        have handed_matched : (laterNow T algebra target).Matched (laterNow T algebra target).Rel
            (handed algebra target (Machine.call n) d) (fmap limit d' (now algebra target)) := by
          refine .fills hd (fills_handed T _ algebra target d) (fills_fmap T limit d' _)
            (fun _ => step.fillable) (fun y y' _ at_hand related => ?_)
            fun n g g' _ held related => rel_later copyable held related
          cases n with
          | zero => exact .tooDeep
          | succ n =>
            -- What is started is the iteration over the content, within one call less.
            rw [call_start]
            exact (ih hcn related (step.content at_hand)).of_runs fun _ _ _ run =>
              Machine.runIn_call_of_le (Nat.le_succ n) run
        exact (handed_matched.bind fun v v' hv =>
          hcn _ _ _ _ (ha.rel _) (.cons hv .nil)).of_runs fun w y hw run =>
            runIn_iterateLater_of_call n hw run
    | _ => exact .invoke hcn target_rel .empty .nil

/-- **What is evaluated follows** likewise. -/
theorem matched_now_later (n : Nat) (hc : (nowLater T algebra target).Callers (Machine.call n) limit)
    (h : (nowLater T algebra target).Rel x x') (copyable : Copyable T x') :
    (nowLater T algebra target).Matched (nowLater T algebra target).Rel
      (Machine.call n (now algebra target) [x]) (limit (later algebra target) [x']) := by
  induction n generalizing x x' with
  | zero => exact .tooDeep
  | succ n ih =>
    have hcn := hc.of_succ
    have target_rel := ht.rel (nowLater T algebra target).toExchange
    rw [later, Machine.limit_frame]
    change Comparison.Matched _ _ (Tree.iterateIn (Machine.call n) algebra target x)
      (Tree.iterateLater limit (starting algebra) target x')
    cases h.shape with
    | tree t =>
      cases t with
      | done p => exact .leafIn hcn target_rel p
      | failed => exact .invoke hcn target_rel .empty .nil
      | @suspended d d' hd =>
        have step := copyable.step
        have handed_matched : (nowLater T algebra target).Matched (nowLater T algebra target).Rel
            (fmap (Machine.call n) d (now algebra target)) (handed algebra target limit d') := by
          refine .fills hd (fills_fmap T _ d _) (fills_handed T limit algebra target d')
            (fun _ => step.fillable) (fun y y' _ at_hand related => ?_)
            fun n g g' _ held related => rel_later copyable held related
          -- On this side the contents are iterated over at once, so the depth is theirs.
          rw [limit_start]
          exact ih hcn related (step.content at_hand)
        exact .comesTo (.refl _) (iterateLater_comesTo d') (handed_matched.bind fun v v' hv =>
          hcn _ _ _ _ (ha.rel _) (.cons hv .nil))
    | _ => exact .invoke hcn target_rel .empty .nil

theorem callers_laterNow (n : Nat) : (laterNow T algebra target).Callers (Machine.call n) limit :=
  callers_sides (fun n hc _ _ h copyable => matched_later_now ha ht n hc h copyable) n

theorem callers_nowLater (n : Nat) : (nowLater T algebra target).Callers (Machine.call n) limit :=
  callers_sides (fun n hc _ _ h copyable => matched_now_later ha ht n hc h copyable) n

end

end Postponed

open Postponed in
/-- **To put off and to start at once is to evaluate.** From worlds that are alike, either iteration
ends if the other one does: with the same signal, or with values that differ in functions that go on
with the one or the other, and what has been written on the way, entry by entry, differs in such
functions only. To call values that differ in this way comes to the same. -/
theorem iterateLater_starting {T : ClassTable} {algebra target t : Value} (ha : Quiet algebra)
    (hta : Quiet target) (ht : Quiet t) (copyable : Copyable T t) :
    (∀ w w', (laterNow T algebra target).Alike w w' →
      Option.Rel (fun x x' => Ends (laterNow T algebra target).Rel x.1 x'.1 ∧
          (laterNow T algebra target).Alike x.2 x'.2)
        ((Tree.iterateLater limit (starting algebra) target t).runIn w)
        ((Tree.iterateIn limit algebra target t).runIn w')) ∧
      (laterNow T algebra target).Callers limit limit := by
  have there := Comparison.Matched.of_tends (K := laterNow T algebra target)
    (fun n => matched_later_now ha hta n (callers_laterNow ha hta n) (ht.rel _) copyable)
    (Machine.tends_limit _ _)
  have back := Comparison.Matched.of_tends (K := nowLater T algebra target)
    (fun n => matched_now_later ha hta n (callers_nowLater ha hta n) (ht.rel _) copyable)
    (Machine.tends_limit _ _)
  rw [later, now, Machine.limit_frame, Machine.limit_frame] at there back
  exact ⟨fun w w' alike => there.both back alike ⟨alike.right, alike.left, False.elim, False.elim⟩,
    Comparison.callers_limit (callers_laterNow ha hta)⟩

/-! In the witness the algebra answers a question, or writes a message to the log and goes on. -/

namespace Postponed

/-- Answers with a text, or logs the message and gives what follows. -/
def clerk : Value :=
  .function (.closure ["d"] (.cases (.var "d")
    [(("Ask", [("k", "answer")]), .call (.var "k") [.scalar (.str "hello")]),
      (("Say", [("m", "message"), ("rest", "next")]), .log (.var "m") (.var "rest"))] none) [])

theorem quiet_clerk : Quiet clerk := .of_shape (.function (.closure rfl .nil))

theorem quiet_echo : Quiet Dialogue.echo := .of_shape (.function (.closure rfl .nil))

theorem quiet_ask {g : Value} (h : Quiet g) : Quiet (Dialogue.ask g) :=
  .suspended (.of_shape (.descriptor _ (.cons ⟨rfl, h⟩ .nil)))

theorem quiet_list_target : Quiet (.target .list) := .of_shape (.target .list)

theorem copyable_pure {T : ClassTable} (v : Value) : Copyable T (.tree (Tree.pure v)) :=
  ⟨fun t => t = .tree (Tree.pure v), rfl, fun d same => by simp [Tree.pure] at same⟩

theorem copyable_suspended {T : ClassTable} {d : Value} (step : CopyStep T (Copyable T) d) :
    Copyable T (.tree (.suspended d)) := by
  refine ⟨fun t => t = .tree (.suspended d) ∨ Copyable T t, .inl rfl, fun e he => ?_⟩
  have weaken : CopyStep T (Copyable T) e := by
    rcases he with same | copyable
    · obtain rfl : e = d := by simpa using same
      exact step
    · exact copyable.step
  exact ⟨weaken.fillable, fun at_hand => .inr (weaken.content at_hand),
    fun held _ _ _ _ hw run => .inr (weaken.behind held hw run)⟩

open Dialogue in
theorem copyable_say (m : Value) {x : Value} (h : Copyable table x) : Copyable table (say m x) := by
  refine copyable_suspended ⟨fun _ => .effect (slotted_say m x) (holds_say m x), fun at_hand => ?_,
    fun held => absurd held not_behind_saying⟩
  rwa [eq_of_atHand_saying at_hand]

open Dialogue in
theorem copyable_ask_echo : Copyable table (ask echo) := by
  refine copyable_suspended ⟨fun at_hand => absurd at_hand not_atHand_asking,
    fun at_hand => absurd at_hand not_atHand_asking, fun held args w w' x hw run => ?_⟩
  obtain ⟨-, rfl⟩ := eq_of_behind_asking held
  match args with
  | [n] =>
    obtain ⟨same, -⟩ := (yields_echo n).of_run hw run
    obtain rfl : x = _ := by simpa using same
    exact copyable_say n (copyable_pure _)
  | [] | _ :: _ :: _ =>
    obtain ⟨same, -⟩ := (settles_echo (T := table) (by simp)).of_run hw run
    simp at same

end Postponed

open Postponed in
theorem iterateLater_starting_dialogue :
    (Quiet clerk ∧ Quiet (.target .list) ∧ Quiet (Dialogue.ask Dialogue.echo) ∧
        Copyable Dialogue.table (Dialogue.ask Dialogue.echo)) ∧
      Option.Rel (fun x x' => Ends (laterNow Dialogue.table clerk (.target .list)).Rel x.1 x'.1 ∧
          (laterNow Dialogue.table clerk (.target .list)).Alike x.2 x'.2)
        ((Tree.iterateLater limit (starting clerk) (.target .list)
          (Dialogue.ask Dialogue.echo)).runIn (.initial Dialogue.table))
        ((Tree.iterateIn limit clerk (.target .list) (Dialogue.ask Dialogue.echo)).runIn
          (.initial Dialogue.table)) :=
  ⟨⟨quiet_clerk, quiet_list_target, quiet_ask quiet_echo, copyable_ask_echo⟩,
    (iterateLater_starting quiet_clerk quiet_list_target (quiet_ask quiet_echo)
      copyable_ask_echo).1 _ _ ⟨rfl, rfl, fun _ => .nil, fun _ => rfl⟩⟩

/-! ### Where the two iterations differ

A copy is made before what has been put off is started, and another one when it has been started; an
iteration that evaluates makes one copy, when it has evaluated. This shows if the copy cannot be
made, and if a class is registered in the meantime. -/

namespace Torn

/-- The world that a computation leaves behind. -/
def after {α : Type} (a : Act α) (w : World) : World :=
  match a.runIn w with
  | some (_, w') => w'
  | none => w

/-- Gives what is in the slot. -/
def algebra : Value := .function (.closure ["d"] (.field (.var "d") "next") [])

/-- The finished tree with what an expression comes to, in which classes can be registered. -/
def finishing (e : Expr) : Value :=
  .tree (Tree.defer (.function (.closure [] e [("register", .function .register)])))

def noting : Expr := .log (.scalar (.str "thunk")) (.scalar (.int 1))

/-- `P` is an effect class by what it inherits, but it has a field of its own. -/
def extended : ClassTable :=
  declare [decl "C" ["Effect"] [("next", .name "K")] [.register],
    decl "P" ["C"] [("x", .name "int")] []]

/-- An instance of `P` before its own field counts. -/
def early : List (String × Value) := [("next", finishing noting)]

example : (Instance.make (extended.ref 2) early).runIn (.initial extended) =
    some (.ok (.descriptor (extended.ref 2) early), .initial extended) := by cbv

/-- The slot of `P` has been asked for. The registration of `P` fails, but its own field counts from
then on. -/
def torn : World :=
  after (registerClass (extended.ref 2)) (after (Act.slotOf (extended.ref 2)) (.initial extended))

/-- An instance of `P` with all fields of `B`, whose payload registers `P`. -/
def full : List (String × Value) :=
  [("y", .int 5), ("next", finishing (.bind "P" (.call (.var "register") [.cls "P"]) noting))]

example : (Instance.make (mixed.ref 3) full).runIn (.initial mixed) =
    some (.ok (.descriptor (mixed.ref 3) full), .initial mixed) := by cbv

/-- `A` has been registered, so `P` has the fields of `A`, until it is registered itself. -/
def narrowed : World := after (registerClass (mixed.ref 1)) (.initial mixed)

end Torn

open Torn Postponed in
/-- **Neither condition can be left out.** If a descriptor cannot be copied, the iteration that
evaluates runs the payload before it fails and the one that puts off does not. If the payload
registers a class, the copy that is made before may lack a field that the later one needs. -/
theorem iterateLater_starting_torn :
    (let t : Value := .tree (.suspended (.descriptor (extended.ref 2) early))
    ((Tree.iterateIn limit algebra (.target .list) t).runIn torn).map shown =
        some (.error (.fault .missingMember), [.str "thunk"]) ∧
      ((Tree.iterateLater limit (starting algebra) (.target .list) t).runIn torn).map shown =
        some (.error (.fault .missingMember), [])) ∧
    (let t : Value := .tree (.suspended (.descriptor (mixed.ref 3) full))
    ((Tree.iterateIn limit algebra (.target .list) t).runIn narrowed).map shown =
        some (.ok (.list [.int 1]), [.str "thunk"]) ∧
      ((Tree.iterateLater limit (starting algebra) (.target .list) t).runIn narrowed).map shown =
        some (.error (.fault .missingMember), [.str "thunk"])) := by
  -- A few calls within calls are enough. The starter is opened by its lemma.
  have evaluated : ∀ {t : Value} {w : World} {y},
      ((Tree.iterateIn (Machine.call 3) algebra (.target .list) t).runIn w).map shown = some y →
        ((Tree.iterateIn limit algebra (.target .list) t).runIn w).map shown = some y := by
    intro t w y h
    obtain ⟨x, run, rfl⟩ := Option.map_eq_some_iff.mp h
    rw [(Tree.respects_iterateIn (R := Act.convergence) Machine.tends_limit _ _ _).runIn_limit run]
    rfl
  have started : ∀ {d : Value} {w : World} {y},
      ((do
        let e ← Tree.postponeSlots (Machine.call 6) (starting algebra) (.target .list) d
        let v ← tryCatch (do let _ ← fmap (Machine.call 4) e refuse; pure e) fun s =>
          match s with
          | .abort => Act.abort
          | .fault _ => fmap (Machine.call 4) e start
        Machine.call 5 algebra [v] : Act Value).runIn w).map shown = some y →
      ((Tree.iterateLater limit (starting algebra) (.target .list)
        (.tree (.suspended d))).runIn w).map shown = some y := by
    intro d w y h
    obtain ⟨x, run, rfl⟩ := Option.map_eq_some_iff.mp h
    have unfolded : (Tree.iterateLater (Machine.call 6) (starting algebra) (.target .list)
      (.tree (.suspended d))).runIn w = some x := run
    rw [(Tree.respects_iterateLater (R := Act.convergence) Machine.tends_limit _ _
      _).runIn_limit unfolded]
    rfl
  exact ⟨⟨evaluated (by cbv), started (by cbv)⟩, evaluated (by cbv), started (by cbv)⟩

end EffectTrees
