import EffectTrees.Proofs.Analysis.Walk
import EffectTrees.Proofs.Elimination.Immediate

/-!
# What an analysis says of a run

An analysis calls function slots with the unknown argument, and a run calls them with arguments that
it chooses. One tree is *simulated* by another (`Simulated`) if it goes the same way and says the
same wherever it says anything: finished trees have values that agree, descriptors are of the same
class with fields that agree, and a function slot that gives a tree for the unknown argument gives a
tree that is simulated by what the other one gives for every argument. Values *agree* (`Agrees`) if
the second equals the first but where the first one holds the unknown argument.

If a tree is simulated by itself and its analysis finds a value, each run of the tree performs just
the effects of the trace, one by one, and comes to that value, but for what is not known
(`Analysis.runs_of_analyzes`). This holds for every way to perform effects that gives what a direct
slot holds and calls a function slot with arguments of its choice (`ActsOut`).

The invariant of the proof relates the tree that the analysis has come to and the tree that the run
has come to: the one is simulated by the other.
-/

namespace EffectTrees

open Machine (limit)

variable {T : ClassTable}

/-! ### Agreement -/

/-- **The second value agrees with the first**: they are equal but where the first one holds the
unknown argument. -/
inductive Agrees (T : ClassTable) : Value → Value → Prop where
  | unknown (v : Value) : Agrees T .poison v
  | refl (v : Value) : Agrees T v v
  | equal {v v' : Value} (equal : v.equal? T v' = .ok true) : Agrees T v v'
  | list {items items' : List Value} (each : List.Forall₂ (Agrees T) items items') :
      Agrees T (.list items) (.list items')
  | tuple {items items' : List Value} (each : List.Forall₂ (Agrees T) items items') :
      Agrees T (.tuple items) (.tuple items')
  | resolved {v v' : Value} (value : Agrees T v v') :
      Agrees T (.payload (.resolved v)) (.payload (.resolved v'))
  | done {p p' : Payload} (payload : Agrees T (.payload p) (.payload p')) :
      Agrees T (.tree (.done p)) (.tree (.done p'))
  | suspended {d d' : Value} (descriptor : Agrees T d d') :
      Agrees T (.tree (.suspended d)) (.tree (.suspended d'))
  | pure {v v' : Value} (value : Agrees T v v') : Agrees T (.plain (.pure v)) (.plain (.pure v'))
  | free {d d' : Value} (descriptor : Agrees T d d') :
      Agrees T (.plain (.free d)) (.plain (.free d'))
  | descriptor {c : ClassRef} {own own' : List (String × Value)} {names : List String}
      (compared : T.compared? c.id = some names)
      (members : ∀ n ∈ names, Option.Rel (Agrees T) (T.memberOf? c.id own .scalar n)
        (T.memberOf? c.id own' .scalar n)) :
      Agrees T (.descriptor c own) (.descriptor c own')
  | analysis {r r' : Option Value} {trace trace' : List Value} (result : Option.Rel (Agrees T) r r')
      (each : List.Forall₂ (Agrees T) trace trace') :
      Agrees T (.analysis r trace) (.analysis r' trace')
  | slot {n n' k k' a a' : Value} (name : Agrees T n n') (kind : Agrees T k k')
      (arity : Agrees T a a') : Agrees T (.slot n k a) (.slot n' k' a')
  | snoc {i i' l l' : Value} (init : Agrees T i i') (last : Agrees T l l') :
      Agrees T (.snoc i l) (.snoc i' l')
  | cons {h h' t t' : Value} (head : Agrees T h h') (tail : Agrees T t t') :
      Agrees T (.cons h t) (.cons h' t')

/-- The fields besides the slot agree, as far as instances are given them. -/
def FieldsAgree (T : ClassTable) (c : ClassRef) (s : Slot) (own own' : List (String × Value)) :
    Prop :=
  ∀ fields, T.fields? c.id = some fields → ∀ f ∈ fields, f.isGiven → f.name ≠ s.name →
    Option.Rel (Agrees T) (T.memberOf? c.id own .scalar f.name)
      (T.memberOf? c.id own' .scalar f.name)

/-- **The entry of a trace announces an effect**: they are of the same class, and their fields
besides the slot agree. -/
inductive Announces (T : ClassTable) : Value → Value → Prop where
  | fields {c : ClassRef} {own own' : List (String × Value)} {s : Slot}
      (slot : T.slotOf c.id = .ok s) (agree : FieldsAgree T c s own own') :
      Announces T (.descriptor c own) (.descriptor c own')

/-- Erasing the slot of a descriptor does not change what it announces. -/
theorem Erased.announces {c : ClassRef} {own own' : List (String × Value)} {s : Slot} {e : Value}
    (erased : Erased T (.descriptor c own) e) (slot : T.slotOf c.id = .ok s)
    (agree : FieldsAgree T c s own own') : Announces T e (.descriptor c own') := by
  obtain ⟨fill, slotted, rfl⟩ := erased.exists_slotted slot
  refine .fields slot fun fields listed f hf given other => ?_
  rw [Instance.memberOf?_copy_given (slotted.fills .unit) listed hf given other]
  exact agree fields listed f hf given other

/-! ### Simulation -/

/-- The first tree is simulated by the second one, if what follows is related. -/
inductive Simulated.Step (T : ClassTable) (S : Value → Value → Prop) : Value → Value → Prop where
  | failed (t : Value) : Step T S (.tree .failed) t
  | noValue {p : Payload} (value : (p.resolve limit).Yields T none) (t : Value) :
      Step T S (.tree (.done p)) t
  | value {p q : Payload} {v v' : Value} (left : (p.resolve limit).Yields T (some v))
      (right : (q.resolve limit).Yields T (some v')) (agree : Agrees T v v') :
      Step T S (.tree (.done p)) (.tree (.done q))
  | direct {c : ClassRef} {own own' : List (String × Value)} {s : Slot} {x y : Value}
      (effect : c.isEffect) (slot : T.slotOf c.id = .ok s) (kind : s.kind = .direct)
      (fields : FieldsAgree T c s own own') (holds : SlotHolds T c own s x)
      (holds' : SlotHolds T c own' s y) (content : S x y) :
      Step T S (.tree (.suspended (.descriptor c own))) (.tree (.suspended (.descriptor c own')))
  | dependent {c : ClassRef} {own own' : List (String × Value)} {s : Slot} {n : Nat} {g h : Value}
      (effect : c.isEffect) (slot : T.slotOf c.id = .ok s) (kind : s.kind = .function n)
      (fields : FieldsAgree T c s own own') (holds : SlotHolds T c own s g)
      (holds' : SlotHolds T c own' s h)
      (nothing : (probe (limit g (List.replicate n .poison))).Yields T none) :
      Step T S (.tree (.suspended (.descriptor c own))) (.tree (.suspended (.descriptor c own')))
  | function {c : ClassRef} {own own' : List (String × Value)} {s : Slot} {n : Nat} {g h x : Value}
      (effect : c.isEffect) (slot : T.slotOf c.id = .ok s) (kind : s.kind = .function n)
      (fields : FieldsAgree T c s own own') (holds : SlotHolds T c own s g)
      (holds' : SlotHolds T c own' s h) (gives : (limit g (List.replicate n .poison)).Yields T x)
      (contents : ∀ args, args.length = n → ∃ y, (limit h args).Yields T y ∧ S x y) :
      Step T S (.tree (.suspended (.descriptor c own))) (.tree (.suspended (.descriptor c own')))

/-- **The first tree is simulated by the second one.** -/
def Simulated (T : ClassTable) (p t : Value) : Prop :=
  ∃ S, (∀ p t, S p t → Simulated.Step T S p t) ∧ S p t

namespace Simulated

theorem Step.mono {R S : Value → Value → Prop} (hRS : ∀ p t, R p t → S p t) {p t : Value}
    (h : Step T R p t) : Step T S p t := by
  cases h with
  | failed t => exact .failed t
  | noValue value t => exact .noValue value t
  | value left right agree => exact .value left right agree
  | direct effect slot kind fields holds holds' content =>
    exact .direct effect slot kind fields holds holds' (hRS _ _ content)
  | dependent effect slot kind fields holds holds' nothing =>
    exact .dependent effect slot kind fields holds holds' nothing
  | function effect slot kind fields holds holds' gives contents =>
    refine .function effect slot kind fields holds holds' gives fun args hargs => ?_
    obtain ⟨y, yields, related⟩ := contents args hargs
    exact ⟨y, yields, hRS _ _ related⟩

theorem step {p t : Value} (h : Simulated T p t) : Step T (Simulated T) p t := by
  obtain ⟨S, closed, hpt⟩ := h
  exact (closed p t hpt).mono fun _ _ h => ⟨S, closed, h⟩

theorem of_step {p t : Value} (h : Step T (Simulated T) p t) : Simulated T p t :=
  ⟨Step T (Simulated T), fun _ _ h => h.mono fun _ _ h => h.step, h⟩

theorem exists_tree {p t : Value} (h : Simulated T p t) : ∃ u, p = .tree u := by
  cases h.step <;> exact ⟨_, rfl⟩

theorem known {p t : Value} (h : Simulated T p t) : p.isPoison = false := by
  obtain ⟨u, rfl⟩ := h.exists_tree
  rfl

/-- The analysis of a tree that is simulated stays among such trees. -/
theorem follows : Analysis.Follows T Analysis.anyLocator fun p => ∃ t, Simulated T p t where
  forces p hp := by
    obtain ⟨t, hpt⟩ := hp
    cases hpt.step with
    | noValue value _ => exact ⟨_, value.settles⟩
    | value left _ _ => exact ⟨_, left.settles⟩
  steps d hd := by
    obtain ⟨t, hdt⟩ := hd
    cases hdt.step with
    | @direct c own own' s x y effect slot kind _ holds _ content =>
      refine ⟨_, ((yields_locate_direct effect slot kind holds).probe content.known).settles,
        fun v hv => ?_⟩
      obtain rfl : x = v := by simpa using hv
      exact ⟨y, content⟩
    | dependent effect slot kind _ holds _ nothing =>
      exact ⟨_, (yields_probe_locate_function effect slot kind holds nothing).settles,
        fun v hv => by simp at hv⟩
    | @function c own own' s n g h x effect slot kind _ holds _ gives contents =>
      -- What the slot gives for the unknown argument is simulated by what the other slot gives for
      -- any arguments, say for the same one.
      obtain ⟨y, -, related⟩ := contents (List.replicate n .poison) (by simp)
      have located := settles_locate_function effect slot kind holds gives.settles
      refine ⟨_, ((Act.settles_ok_iff.mp located).probe related.known).settles, fun v hv => ?_⟩
      obtain rfl : x = v := by simpa using hv
      exact ⟨y, related⟩

end Simulated

/-! ### Performing effects -/

/-- The descriptor is that of an effect which a run of the tree may come to. -/
inductive Occurs (T : ClassTable) : Value → Value → Prop where
  | here {d : Value} : Occurs T (.tree (.suspended d)) d
  | direct {d x d' : Value} (atHand : AtHand T d x) (rest : Occurs T x d') :
      Occurs T (.tree (.suspended d)) d'
  | function {d g y d' : Value} {n : Nat} {args : List Value} (behind : Behind T d n g)
      (length : args.length = n) (called : (limit g args).Yields T y) (rest : Occurs T y d') :
      Occurs T (.tree (.suspended d)) d'

/-- **A way to perform an effect.** What a direct slot holds is given. A function slot is called
with arguments that are chosen as the world is, and what it gives is given. What else is done, such
as writing to the log, does not matter so long as the classes stay what they are. -/
inductive ActsOut (T : ClassTable) (perform : Value) : Value → Prop where
  | direct {c : ClassRef} {own : List (String × Value)} {s : Slot} {x : Value}
      (slot : T.slotOf c.id = .ok s) (kind : s.kind = .direct) (holds : SlotHolds T c own s x)
      (performs : (limit perform [.descriptor c own]).Yields T x) :
      ActsOut T perform (.descriptor c own)
  | function {c : ClassRef} {own : List (String × Value)} {s : Slot} {n : Nat} {g : Value}
      (slot : T.slotOf c.id = .ok s) (kind : s.kind = .function n) (holds : SlotHolds T c own s g)
      (performs : ∀ w, w.classes = T → ∃ args, args.length = n ∧ ∀ y, (limit g args).Yields T y →
        ∃ w', (limit perform [.descriptor c own]).runIn w = some (.ok y, w') ∧ w'.classes = T) :
      ActsOut T perform (.descriptor c own)

namespace ActsOut

variable {perform : Value} {c : ClassRef} {own : List (String × Value)} {s : Slot} {x : Value}

/-- Performing an effect gives what its direct slot holds. -/
theorem yields_direct (h : ActsOut T perform (.descriptor c own)) (slot : T.slotOf c.id = .ok s)
    (kind : s.kind = .direct) (holds : SlotHolds T c own s x) :
    (limit perform [.descriptor c own]).Yields T x := by
  cases h with
  | direct slot' _ holds' performs =>
    obtain rfl := slotOf_unique slot slot'
    obtain rfl := holds.unique holds'
    exact performs
  | function slot' kind' _ _ => exact (slotOf_exclusive slot kind slot' kind').elim

/-- Performing an effect gives what its function slot gives for some arguments. -/
theorem exists_args {n : Nat} (h : ActsOut T perform (.descriptor c own))
    (slot : T.slotOf c.id = .ok s) (kind : s.kind = .function n) (holds : SlotHolds T c own s x)
    {w : World} (hw : w.classes = T) :
    ∃ args, args.length = n ∧ ∀ y, (limit x args).Yields T y →
      ∃ w', (limit perform [.descriptor c own]).runIn w = some (.ok y, w') ∧ w'.classes = T := by
  cases h with
  | direct slot' kind' _ _ => exact (slotOf_exclusive slot' kind' slot kind).elim
  | function slot' kind' holds' performs =>
    obtain rfl := slotOf_unique slot slot'
    obtain rfl := holds.unique holds'
    obtain rfl := SlotKind.function.inj (kind.symm.trans kind')
    exact performs w hw

end ActsOut

namespace Analysis

open EffectTrees.Tree (Runs immediate fold)

variable {perform : Value}

/-- The outcome of a run that performs what the trace announces and comes to what agrees with `v`.
-/
def RunAsAnnounced (T : ClassTable) (perform t : Value) (w : World) (trace : List Value)
    (v : Value) : Prop :=
  ∃ effects r w', Runs perform t w effects (.ok r) w' ∧ List.Forall₂ (Announces T) trace effects ∧
    Agrees T v r

/-- An effect in front of a run. -/
theorem RunAsAnnounced.after {d next v e : Value} {w w₁ : World} {trace : List Value}
    (announces : Announces T e d)
    (performed : (limit perform [d]).runIn w = some (.ok next, w₁))
    (h : RunAsAnnounced T perform next w₁ trace v) :
    RunAsAnnounced T perform (.tree (.suspended d)) w (e :: trace) v := by
  obtain ⟨effects, r, w', runs, each, agree⟩ := h
  exact ⟨d :: effects, r, w', .step performed runs, .cons announces each, agree⟩

/-- A walk to a value is matched by a run of every tree that simulates. The induction is on the
walk, for all trees that simulate and all worlds. -/
theorem Walks.runAsAnnounced {p t v : Value} {stop : Stop} {trace : List Value}
    (walk : Walks T anyLocator p stop trace) (hstop : stop = .value v) (simulated : Simulated T p t)
    (acts : ∀ d, Occurs T t d → ActsOut T perform d) {w : World} (hw : w.classes = T) :
    RunAsAnnounced T perform t w trace v := by
  -- Each step of the walk is matched by performing one effect.
  induction walk generalizing t w with
  | failed => simp at hstop
  | noValue value => simp at hstop
  | noStep erased stepped => simp at hstop
  | value value =>
    obtain rfl := Stop.value.inj hstop
    cases simulated.step with
    | noValue value' _ => simpa using value.unique value'
    | value left right agree =>
      obtain rfl := by simpa using value.unique left
      obtain ⟨w', resolved, -⟩ := right w hw
      exact ⟨[], _, w', .value resolved, .nil, agree⟩
  | @step d e next stop trace erased stepped isKnown _ ih =>
    cases simulated.step with
    | @direct c own own' s x y effect slot kind fields holds holds' content =>
      obtain rfl := (yields_locate_direct effect slot kind holds).unique stepped
      have performs := (acts _ .here).yields_direct slot kind holds'
      obtain ⟨w₁, performed, hw₁⟩ := performs w hw
      refine RunAsAnnounced.after (erased.announces slot fields) performed
        (ih hstop content (fun d' hd' => acts d' ?_) hw₁)
      exact .direct (.content effect slot kind holds') hd'
    | dependent effect slot kind fields holds holds' nothing =>
      -- The analysis ends at such an effect, and this one has gone on.
      have stuck := yields_probe_locate_function effect slot kind holds nothing
      simpa using stuck.unique (stepped.probe (Value.isPoison_of_ne isKnown))
    | @function c own own' s n g h x effect slot kind fields holds holds' gives contents =>
      have located := settles_locate_function effect slot kind holds gives.settles
      obtain rfl : x = next := by simpa using located.unique stepped.settles
      -- The analysis has gone on with `g` on the unknown argument, and the run does so with `h` on
      -- the arguments that are chosen.
      obtain ⟨args, length, performs⟩ := (acts _ .here).exists_args slot kind holds' hw
      obtain ⟨y, called, related⟩ := contents args length
      obtain ⟨w₁, performed, hw₁⟩ := performs y called
      refine RunAsAnnounced.after (erased.announces slot fields) performed
        (ih hstop related (fun d' hd' => acts d' ?_) hw₁)
      exact .function (.slot effect slot kind holds') length called hd'

/-- **An analysis is sound for runs.** If a tree is simulated by itself and its analysis finds a
value, each run of the tree ends, performs one effect for each entry of the trace, in order, which
the entry announces, and comes to a value that agrees with the one that was found. -/
theorem runs_of_analyzes {t v : Value} {trace : List Value} (simulated : Simulated T t t)
    (acts : ∀ d, Occurs T t d → ActsOut T perform d)
    (analyzes : Analyzes T anyLocator t (some v) trace) (w : World) (hw : w.classes = T) :
    ∃ effects r w', (fold limit perform immediate t).runIn w = some (.ok r, w') ∧
      Runs perform t w effects (.ok r) w' ∧ List.Forall₂ (Announces T) trace effects ∧
      Agrees T v r := by
  obtain ⟨stop, walk, hresult⟩ := analyzes.walks Simulated.follows ⟨t, simulated⟩
  obtain ⟨effects, r, w', runs, each, agree⟩ :=
    walk.runAsAnnounced (Stop.eq_value_of_result hresult) simulated acts hw
  exact ⟨effects, r, w', runs.runIn_fold, runs, each, agree⟩

/-! ### A dialogue that takes place -/

open Dialogue

/-- Goes on with what is said, and answers what is asked. -/
def partner : Value :=
  .function (.closure ["effect"]
    (.cond (.cases (.var "effect") [(("Say", []), .scalar (.bool true))] none)
      (.log (.scalar (.str "heard")) (.field (.var "effect") "next"))
      (.log (.scalar (.str "asked"))
        (.call (.field (.var "effect") "answer") [.scalar (.int 5)]))) [])

theorem actsOut_saying (m x : Value) : ActsOut table partner (saying m x) := by
  refine .direct rfl rfl (holds_say m x) ?_
  rintro ⟨classes, asked, log, remarks⟩ hw
  obtain rfl : classes = table := hw
  rw [partner, Machine.limit_closure]
  exact ⟨_, rfl, rfl⟩

theorem actsOut_asking_echo : ActsOut table partner (asking echo) := by
  refine .function rfl rfl (holds_ask echo) ?_
  rintro ⟨classes, asked, log, remarks⟩ hw
  obtain rfl : classes = table := hw
  refine ⟨[.int 5], rfl, fun y hy => ?_⟩
  rw [partner, Machine.limit_closure]
  exact hy ⟨table, asked, .str "asked" :: log, remarks⟩ rfl

theorem fieldsAgree_say {m m' x x' : Value} (agree : Agrees table m m') :
    FieldsAgree table sayClass ⟨"next", .direct⟩ [("message", m), ("next", x)]
      [("message", m'), ("next", x')] := by
  rintro fields listed f hf - other
  obtain rfl := (Option.some.inj listed).symm
  rcases List.mem_cons.mp hf with rfl | hf
  · exact .some agree
  · obtain rfl := List.mem_singleton.mp hf
    simp at other

theorem simulated_say {m m' x x' : Value} (agree : Agrees table m m')
    (content : Simulated table x x') : Simulated table (say m x) (say m' x') :=
  .of_step (.direct rfl rfl rfl (fieldsAgree_say agree) (holds_say m x) (holds_say m' x') content)

theorem simulated_pure (v : Value) (known : v.isPoison = false) :
    Simulated T (.tree (Tree.pure v)) (.tree (Tree.pure v)) :=
  have yields : ((Payload.resolved v).resolve limit).Yields T (some v) :=
    (Act.yields_pure v).probe known
  .of_step (.value yields yields (.refl v))

theorem simulated_ask_echo : Simulated table (ask echo) (ask echo) := by
  refine .of_step (.function rfl rfl rfl ?_ (holds_ask echo) (holds_ask echo)
    (yields_echo .poison) fun args length => ?_)
  · rintro fields listed f hf - other
    obtain rfl := (Option.some.inj listed).symm
    obtain rfl := List.mem_singleton.mp hf
    simp at other
  · obtain ⟨n, rfl⟩ := List.length_eq_one_iff.mp length
    exact ⟨_, yields_echo n, simulated_say (.unknown n) (simulated_pure _ rfl)⟩

theorem occurs_say {m x d : Value} (h : Occurs table (say m x) d) :
    d = saying m x ∨ Occurs table x d := by
  cases h with
  | here => exact .inl rfl
  | direct atHand rest => exact .inr (eq_of_atHand_saying atHand ▸ rest)
  | function behind _ _ _ => exact absurd behind not_behind_saying

theorem occurs_ask_echo {d : Value} (h : Occurs table (ask echo) d) :
    d = asking echo ∨ ∃ n, Occurs table (say n (.tree (Tree.pure (.int 1)))) d := by
  cases h with
  | here => exact .inl rfl
  | direct atHand _ => exact absurd atHand not_atHand_asking
  | function behind length called rest =>
    obtain ⟨rfl, rfl⟩ := eq_of_behind_asking behind
    obtain ⟨n, rfl⟩ := List.length_eq_one_iff.mp length
    obtain rfl := (yields_echo n).unique called
    exact .inr ⟨n, rest⟩

theorem actsOut_of_occurs {m d : Value} (h : Occurs table (say m (ask echo)) d) :
    ActsOut table partner d := by
  rcases occurs_say h with rfl | h
  · exact actsOut_saying _ _
  rcases occurs_ask_echo h with rfl | ⟨n, h⟩
  · exact actsOut_asking_echo
  rcases occurs_say h with rfl | h
  · exact actsOut_saying _ _
  · cases h

theorem runs_of_analyzes_dialogue :
    Simulated table (say (.str "hello") (ask echo)) (say (.str "hello") (ask echo)) ∧
      (∀ d, Occurs table (say (.str "hello") (ask echo)) d → ActsOut table partner d) ∧
      Analyzes table anyLocator (say (.str "hello") (ask echo)) (some (.int 1))
        [saying (.str "hello") .unit, asking .unit, saying .poison .unit] ∧
      ∃ effects r w', (fold limit partner immediate (say (.str "hello") (ask echo))).runIn
          (.initial table) = some (.ok r, w') ∧
        Runs partner (say (.str "hello") (ask echo)) (.initial table) effects (.ok r) w' ∧
        List.Forall₂ (Announces table)
          [saying (.str "hello") .unit, asking .unit, saying .poison .unit] effects ∧
        Agrees table (.int 1) r := by
  have simulated : Simulated table (say (.str "hello") (ask echo))
      (say (.str "hello") (ask echo)) :=
    simulated_say (.refl _) simulated_ask_echo
  have acts (d) (hd : Occurs table (say (.str "hello") (ask echo)) d) : ActsOut table partner d :=
    actsOut_of_occurs hd
  have analyzes : Analyzes table anyLocator (say (.str "hello") (ask echo)) (some (.int 1))
      [saying (.str "hello") .unit, asking .unit, saying .poison .unit] :=
    analyzes_say (by simp [ask]) analyzes_ask_echo
  exact ⟨simulated, acts, analyzes, runs_of_analyzes simulated acts analyzes (.initial table) rfl⟩

end Analysis

end EffectTrees
