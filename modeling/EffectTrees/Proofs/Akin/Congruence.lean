import EffectTrees.Proofs.Akin.Builder
import EffectTrees.Proofs.Akin.Elimination
import EffectTrees.Proofs.Elimination.Target

/-!
# No operation tells akin trees apart

Whether a leaf is written as the value that its payload comes to, or as a computation of it, and as
which of the leaves of which nothing comes, is nothing that an operation can tell
(`akin_interchangeable`). Eliminations and analyses of akin trees end alike, with the same result;
what makes trees of trees makes akin trees of akin trees. So the difference cannot be made visible by
any number of operations, one after the other. Only what an analysis remarks upon may differ, since
remarks tell a failed tree from a value that is not known.

Callbacks are pure: they treat alike what the trees do not differ in. A callback that looks at the
functions in slots, and not at what these give, could tell akin trees apart. To give the alternative
of two trees, it is asked which node there is, so this is no operation of the kind.
-/

namespace EffectTrees

open Machine (limit call)
open Act (EndsLike)
open Comparison (identical)

variable {T : ClassTable} {E : Vocabulary T} {total : Prop} {A : Value → Prop}

/-! ### Interchangeable trees -/

/-- **The trees are interchangeable** for operations with pure callbacks: what is no tree comes out
the same, and trees come out akin. -/
structure Interchangeable (E : Vocabulary T) (total : Prop) (A : Value → Prop) (t t' : Value) :
    Prop where
  /-- Analyses have the same result and the same trace. -/
  analyze {stepper : Value}
    (pure : TreatsAlike T (Holding E (Akin E total A)) (Akin E total A) stepper) :
    EndsLike T Eq (Analysis.analyze limit stepper t) (Analysis.analyze limit stepper t')
  iterate {algebra : Value} (pure : TreatsAlikeWithin E (fun _ => Eq) algebra) :
    EndsLike T Eq (Tree.iterate limit algebra t) (Tree.iterate limit algebra t')
  iterateIn {algebra target : Value} (leaves : PureTarget T A target)
    (pure : TreatsAlikeWithin E (fun _ => Eq) algebra) :
    EndsLike T Eq (Tree.iterateIn limit algebra target t) (Tree.iterateIn limit algebra target t')
  iterateLater {algebra target : Value} (leaves : PureTarget T A target)
    (pure : TreatsAlikeWithin E (LikeWithin T) algebra) :
    EndsLike T Eq (Tree.iterateLater limit algebra target t)
      (Tree.iterateLater limit algebra target t')
  fold {M : Value → Value → Prop} {transform target : Value} (leaves : PureTarget T A target)
    (goesOn : Sequences E total A M target)
    (pure : TreatsAlike T (Holding E (Akin E total A)) M transform) :
    EndsLike T Eq (Tree.fold limit transform target t) (Tree.fold limit transform target t')
  retract {target : Value} (leaves : PureTarget T A target)
    (goesOn : Sequences E total A (Holding E (Akin E total A)) target) :
    EndsLike T Eq (Tree.retract limit target t) (Tree.retract limit target t')
  map {B : Value → Prop} {f : Value} (pure : TreatsAlike T (SameOf A) (SameOf B) f) :
    EndsLike T (Akin E total B) (t.invoke limit .map [f]) (t'.invoke limit .map [f])
  bind {B : Value → Prop} {f : Value} (pure : TreatsAlike T (SameOf A) (Akin E total B) f) :
    EndsLike T (Akin E total B) (t.invoke limit .bind [f]) (t'.invoke limit .bind [f])
  /-- The payloads answer, since not all of them are computed. -/
  ap {B D : Value → Prop} {u u' : Value} (answers : total)
    (pure : ∀ f, A f → TreatsAlike T (SameOf B) (SameOf D) f) (akin : Akin E total B u u') :
    EndsLike T (Akin E total D) (t.invoke limit .ap [u]) (t'.invoke limit .ap [u'])
  hoist {E' : Vocabulary T} {f : Value}
    (pure : TreatsAlike T (Holding E (Akin E total A)) (Holding E' (Akin E total A)) f) :
    EndsLike T (Akin E' total A) (Tree.hoist limit f t) (Tree.hoist limit f t')
  /-- Builders of the trees, with the same functions bound to them. -/
  build {fs : List Value} (pure : ∀ f ∈ fs, AkinContinuation E total A f) :
    EndsLike T (Akin E total A) ((fs.foldl Builder.bind (.of t)).build limit)
      ((fs.foldl Builder.bind (.of t')).build limit)

/-- **Akin trees are interchangeable.** -/
theorem akin_interchangeable {t t' : Value} (akin : Akin E total A t t') :
    Interchangeable E total A t t' where
  analyze := akin_analyze akin
  iterate := akin_iterate akin
  iterateIn := akin_iterateIn akin
  iterateLater := akin_iterateLater akin
  fold := akin_fold akin
  retract := akin_retract akin
  map := akin_map akin
  bind := akin_bind akin
  ap answers pure := fun h => akin_ap answers akin h pure
  hoist := akin_hoist akin
  build := akin_build akin

/-- A transformation that gives lists of one item. -/
theorem treatsAlike_returning {Q R : Value → Value → Prop} {h : Value} (hh : TreatsAlike T Q R h) :
    TreatsAlike T Q (Holding (Vocabulary.lists T) R) (TypedTarget.list.returning h) := by
  intro x x' related
  rw [TypedTarget.limit_returning, TypedTarget.limit_returning]
  refine (hh x x' related).bind fun y y' given => .pure ?_
  exact ⟨⟨_, rfl⟩, ⟨_, rfl⟩, .list (.cons given .nil)⟩

/-! ### Trees of a dialogue

In the witness the trees differ in what is behind a function slot, and lists of trees in what is at
hand. -/

namespace Dialogue

variable {R S : Value → Value → Prop} {d d' g g' m x x' v : Value} {own : List (String × Value)}
  {rest : Expr}

/-! #### Statements and questions side by side -/

theorem slotsAlike_saying (h : R x x') : SlotsAlike lines R S (saying m x) (saying m x') :=
  ⟨.inl ⟨m, x, rfl⟩, .inl ⟨m, x', rfl⟩, .slotted rfl
    (.cons ⟨rfl, fun _ => Exchange.identical_refl m⟩
      (.cons ⟨rfl, fun other => absurd rfl other⟩ .nil)) (.some h)⟩

theorem slotsAlike_asking (h : S g g') : SlotsAlike lines R S (asking g) (asking g') :=
  ⟨.inr ⟨g, rfl⟩, .inr ⟨g', rfl⟩, .slotted rfl (.cons ⟨rfl, fun other => absurd rfl other⟩ .nil)
    (.some h)⟩

/-- Two statements with the same message, or two questions. -/
theorem slotsAlike_cases {motive : Value → Value → Prop} (h : SlotsAlike lines R S d d')
    (say : ∀ m x x', R x x' → motive (saying m x) (saying m x'))
    (ask : ∀ g g', S g g' → motive (asking g) (asking g')) : motive d d' := by
  rcases h.has with ⟨m, x, rfl⟩ | ⟨g, rfl⟩
  · rcases h.has' with ⟨m', x', rfl⟩ | ⟨g', rfl⟩
    · cases h.slots with
      | slotted slot fields content =>
        cases slot
        cases fields with
        | cons message _ =>
          obtain rfl := Exchange.identical_iff.mp (message.2 (by simp))
          cases content with
          | some next => exact say m x x' next
      | other _ _ noSlot =>
        obtain ⟨f, none⟩ := noSlot _ _ rfl
        cases none
    -- Descriptors of different classes do not differ in their slots only.
    · cases h.slots with
      | other same => cases Exchange.identical_iff.mp same
  · rcases h.has' with ⟨m', x', rfl⟩ | ⟨g', rfl⟩
    · cases h.slots with
      | other same => cases Exchange.identical_iff.mp same
    · cases h.slots with
      | slotted slot fields content =>
        cases slot
        cases content with
        | some answer => exact ask g g' answer
      | other _ _ noSlot =>
        obtain ⟨f, none⟩ := noSlot _ _ rfl
        cases none

theorem akin_say (h : Akin lines total A x x') : Akin lines total A (say m x) (say m x') :=
  .suspended (slotsAlike_saying h)

theorem akin_ask (h : LikeBehind table (Akin lines total A) g g') :
    Akin lines total A (ask g) (ask g') := .suspended (slotsAlike_asking h)

/-! #### Pure callbacks -/

theorem treatsAlike_loud : TreatsAlike table (Holding lines R) (Holding lines R) loud := by
  intro d d' slots
  refine slotsAlike_cases (motive := fun d d' =>
    EndsLike table (Holding lines R) (limit loud [d]) (limit loud [d'])) slots ?_ ?_
  · intro m x x' h
    exact .of_yields (yields_loud_say rfl (holds_say m x)) (yields_loud_say rfl (holds_say m x'))
      (slotsAlike_saying h)
  · intro g g' h
    exact .of_yields yields_loud_ask yields_loud_ask (slotsAlike_asking h)

/-- The algebra that answers with a text. From statements it goes on as it is told. -/
def answering (rest : Expr) : Value :=
  .function (.closure ["d"] (.cases (.var "d")
    [(("Ask", [("k", "answer")]), .call (.var "k") [.scalar (.str "hello")]),
      (("Say", [("rest", "next")]), rest)] none) [])

/-- What the case comes to that applies is what the whole comes to. -/
theorem comesTo_of_case {a b : Act Value}
    (applies : Act.ComesTo table a ((do return some (← b)) >>= fun r =>
      match r with
      | some v => pure v
      | none => return .null)) : Act.ComesTo table a b := by
  simpa using applies

theorem comesTo_answering_ask (call : Caller) (f : Function) :
    Act.ComesTo table ((answering rest).apply call [asking (.function f)])
      (call (.function f) [.str "hello"]) := by
  refine comesTo_of_case (.of_runs ?_)
  rintro ⟨classes, asked, log, remarks⟩ rfl
  rfl

theorem comesTo_answering_say (call : Caller) :
    Act.ComesTo table ((answering rest).apply call [saying m x])
      (rest.eval call [("rest", x), ("d", saying m x)]) := by
  refine comesTo_of_case (.of_runs ?_)
  rintro ⟨classes, asked, log, remarks⟩ rfl
  rfl

/-- It treats descriptors alike if it goes on alike from what follows statements. -/
theorem treatsAlikeWithin_answering {C : Nat → Value → Value → Prop}
    (goesOn : ∀ n m x x', C (n + 1) x x' →
      (identical table).Matched Eq (rest.eval (call n) [("rest", x), ("d", saying m x)])
        (rest.eval limit [("rest", x'), ("d", saying m x')])) :
    TreatsAlikeWithin lines C (answering rest) := by
  intro n d d' slots
  cases n with
  | zero => exact .tooDeep
  | succ n =>
    rw [Machine.call_succ, Machine.limit_eq]
    refine slotsAlike_cases (motive := fun d d' => (identical table).Matched Eq
      ((answering rest).apply (call n) [d]) ((answering rest).apply limit [d'])) slots ?_ ?_
    · intro m x x' next
      exact .comesTo (comesTo_answering_say _) (comesTo_answering_say _) (goesOn n m x x' next)
    · intro g g' like
      obtain ⟨f, f', rfl, rfl⟩ := like.functions
      refine .comesTo (comesTo_answering_ask _ f) (comesTo_answering_ask _ f') ?_
      exact (like.same [.str "hello"]).of_runs fun _ _ _ run =>
        Machine.runIn_call_of_le (Nat.le_succ n) run

/-- The rest is a value already. -/
theorem treatsAlikeWithin_answering_now :
    TreatsAlikeWithin lines (fun _ => Eq) (answering (.var "rest")) := by
  refine treatsAlikeWithin_answering ?_
  rintro n m x _ rfl
  exact .pure rfl

/-- The rest has been put off, and is started. -/
theorem treatsAlikeWithin_answering_later :
    TreatsAlikeWithin lines (LikeWithin table) (answering (.call (.var "rest") [])) := by
  refine treatsAlikeWithin_answering ?_
  intro n m x x' like
  obtain ⟨f, f', rfl, rfl⟩ := like.functions
  exact (like.same []).of_runs fun _ _ _ run => Machine.runIn_call_of_le (Nat.le_succ n) run

/-! #### Two trees -/

/-- Says the answer and finishes with a value that is to be computed. -/
def echoLater : Value :=
  .function (.closure ["n"] (.library "Suspended" [.make "Say"
    [("message", .var "n"), ("next", .library "defer" [.lambda [] (.scalar (.int 1))])]]) [])

/-- Both echoes say the answer, or fail for the number of answers. -/
theorem likeBehind_echo : LikeBehind table (Akin lines total Quiet) echoLater echo := by
  intro args
  -- The one computes its last value on demand, the other one has it.
  by_cases length : args.length = 1
  · obtain ⟨n, rfl⟩ := List.length_eq_one_iff.mp length
    let thunk : Value := .function (.closure [] (.scalar (.int 1)) [("n", n)])
    have later : (limit echoLater [n]).Yields table (say n (.tree (Tree.defer thunk))) := by
      rintro ⟨classes, asked, log, remarks⟩ hw
      obtain rfl : classes = table := hw
      rw [echoLater, Machine.limit_closure]
      exact ⟨_, rfl, rfl⟩
    have computed : (limit thunk []).Yields table (.int 1) := by
      rw [Machine.limit_closure]
      exact Act.yields_pure _
    exact .of_yields later (yields_echo n) (akin_say (.defer computed rfl (.scalar _)))
  · have settles : (limit echoLater args).Settles table
        (some (.error (.fault (.expression .arity)))) := by
      rw [echoLater, Machine.limit_closure, if_neg (by simpa using Ne.symm length)]
      exact Act.settles_fail _
    exact .of_settles settles (settles_echo length) (.some (.error _))

/-- A dialogue that hesitates before it ends. -/
def hesitant : Value := say (.str "hi") (ask echoLater)

/-- The dialogue that does not. -/
def prompt : Value := say (.str "hi") (ask echo)

theorem akin_hesitant : Akin lines total Quiet hesitant prompt :=
  akin_say (akin_ask likeBehind_echo)

theorem treatsAlike_echo : TreatsAlike table (SameOf A) (Akin lines total Quiet) echo := by
  rintro v _ ⟨rfl, -⟩
  exact .of_yields (yields_echo v) (yields_echo v) (akin_say (.pure (.scalar _)))

theorem akinContinuation_echo : AkinContinuation lines total Quiet echo := by
  refine ⟨(· = echo), ?_, rfl⟩
  rintro g rfl v v' same
  exact (treatsAlike_echo v v' same).imp fun _ _ => .tree

/-- Gives a value twice. -/
def twice : Value := .function (.closure ["n"] (.list [.var "n", .var "n"]) [])

/-- A function that is to be computed. -/
def lateIdentity : Value := .tree (Tree.defer (.function (.delayed .identity (.frame .identity))))

theorem akin_lateIdentity :
    Akin E total Quiet lateIdentity (.tree (Tree.pure (.frame .identity))) := by
  refine .defer ?_ rfl (.of_shape (.function (.frame .identity)))
  rw [Machine.limit_eq]
  exact Act.yields_pure _

/-- Alternatives, where it is known that there is none, or is found out. -/
def knownAbsent : Value :=
  .tree (.suspended (.list [.tree .failed, .tree (Tree.pure .poison), .tree (Tree.pure (.int 1))]))

def foundAbsent : Value :=
  .tree (.suspended (.list [.tree (Tree.pure .poison), .tree Tree.treachery,
    .tree (Tree.pure (.int 1))]))

theorem akin_absent : Akin (Vocabulary.lists T) total Quiet knownAbsent foundAbsent := by
  have aborts : (limit (.function .betray) []).Settles T (some (.error .abort)) := by
    rw [Machine.limit_eq]
    exact Act.settles_throw .abort
  have first : Akin (Vocabulary.lists T) total Quiet (.tree .failed) (.tree (Tree.pure .poison)) :=
    .of_hopeless .failed hopeless_poison
  have second : Akin (Vocabulary.lists T) total Quiet (.tree (Tree.pure .poison))
      (.tree Tree.treachery) := .of_hopeless hopeless_poison (hopeless_defer aborts)
  exact .suspended ⟨⟨_, rfl⟩, ⟨_, rfl⟩,
    .list (.cons first (.cons second (.cons (.pure (.scalar _)) .nil)))⟩

end Dialogue

open Dialogue in
theorem akin_interchangeable_dialogue :
    Akin lines True Quiet hesitant prompt ∧
      EndsLike table Eq (Analysis.analyze limit Analysis.anyLocator hesitant)
        (Analysis.analyze limit Analysis.anyLocator prompt) ∧
      EndsLike table Eq (Tree.iterate limit (answering (.var "rest")) hesitant)
        (Tree.iterate limit (answering (.var "rest")) prompt) ∧
      EndsLike table Eq (Tree.iterateIn limit (answering (.var "rest")) (.target .list) hesitant)
        (Tree.iterateIn limit (answering (.var "rest")) (.target .list) prompt) ∧
      EndsLike table Eq
        (Tree.iterateLater limit (answering (.call (.var "rest") [])) (.target .list) hesitant)
        (Tree.iterateLater limit (answering (.call (.var "rest") [])) (.target .list) prompt) ∧
      EndsLike table Eq
        (Tree.fold limit (TypedTarget.list.returning Analysis.anyLocator) (.target .list) hesitant)
        (Tree.fold limit (TypedTarget.list.returning Analysis.anyLocator) (.target .list) prompt) ∧
      EndsLike table (Akin lines True Quiet)
        (hesitant.invoke limit .map [twice]) (prompt.invoke limit .map [twice]) ∧
      EndsLike table (Akin lines True Quiet) (hesitant.invoke limit .bind [echo])
        (prompt.invoke limit .bind [echo]) ∧
      EndsLike table (Akin lines True Quiet) (Tree.hoist limit loud hesitant)
        (Tree.hoist limit loud prompt) ∧
      EndsLike table (Akin lines True Quiet)
        (([echo].foldl Builder.bind (.of hesitant)).build limit)
        (([echo].foldl Builder.bind (.of prompt)).build limit) ∧
      -- For functions that trees result in, and for trees of lists.
      EndsLike table (Akin lines True Quiet) (lateIdentity.invoke limit .ap [hesitant])
        ((Value.tree (Tree.pure (.frame .identity))).invoke limit .ap [prompt]) ∧
      EndsLike table Eq (Tree.retract limit (.target .list) knownAbsent)
        (Tree.retract limit (.target .list) foundAbsent) := by
  have akin : Akin lines True Quiet hesitant prompt := akin_hesitant
  have same := akin_interchangeable akin
  have late : Akin lines True Quiet lateIdentity _ := akin_lateIdentity
  have functions := akin_interchangeable late
  have alternatives : Akin (Vocabulary.lists table) True Quiet knownAbsent foundAbsent := akin_absent
  have lists := akin_interchangeable alternatives
  refine ⟨akin, same.analyze (treatsAlike_locator .effect),
    same.iterate treatsAlikeWithin_answering_now,
    same.iterateIn pureTarget_list treatsAlikeWithin_answering_now,
    same.iterateLater pureTarget_list treatsAlikeWithin_answering_later,
    same.fold pureTarget_list sequences_list (treatsAlike_returning (treatsAlike_locator .effect)),
    same.map (treatsAlike_quiet (.of_shape (.function (.closure rfl .nil)))),
    same.bind treatsAlike_echo, same.hoist treatsAlike_loud, same.build ?_,
    functions.ap trivial (fun _ => treatsAlike_quiet) akin,
    lists.retract pureTarget_list sequences_list⟩
  intro f mem
  obtain rfl := List.mem_singleton.mp mem
  exact akinContinuation_echo

end EffectTrees
