import EffectTrees.Proofs.Analysis.Compositional
import EffectTrees.Proofs.Tree.Hoist

/-!
# The analysis of rewritten trees

A rewriting of descriptors may give an effect another class and another payload. As long as it
leaves the content of the slot alone, and what it makes of the rest does not depend on that content
(`KeepsSlots`), an analysis cannot tell whether a tree has been rewritten: the analysis of the
rewritten tree has the same result, and its trace is the trace of the tree itself, rewritten effect
by effect (`Analysis.analyze_hoist`).

To hoist the rewriting works along direct slots at once, and behind function slots when they are
called, in the way in which binding does. One step of a walk through the tree is one step of the walk
through the rewritten one (`hoist_step`), and where the one cannot go on the other cannot either
(`hoist_noStep`). What is recorded has the unit in its slot. The rewriting keeps the unit as it keeps
any other content, so it does not matter whether an effect is rewritten before it is erased or
afterwards (`KeepsSlots.rewritten`).
-/

namespace EffectTrees

open Machine (limit)

variable {T : ClassTable} {total : Prop}

/-! ### Effects that are the same but for their slots -/

/-- The two descriptors are of one class and have the same payload, whatever is in their slots. -/
def Kindred (T : ClassTable) : Value → Value → Prop :=
  Renews T (fun _ _ => True) fun _ _ _ => True

/-- The two descriptors are of one class and have the same payload, and the same in their slots. -/
def SameEffect (T : ClassTable) : Value → Value → Prop := Renews T Eq fun _ => Eq

/-- The descriptor is an effect with a slot of the kind that can be filled, and `x` is in it. -/
inductive Contains (T : ClassTable) (kind : SlotKind) (x : Value) : Value → Prop where
  | slot {c : ClassRef} {own : List (String × Value)} {s : Slot}
      {fill : Value → List (String × Value)} (slotted : Slotted T c own s fill)
      (same : s.kind = kind) (holds : SlotHolds T c own s x) :
      Contains T kind x (.descriptor c own)

variable {kind : SlotKind} {d d' d'' e x y : Value}

theorem Renews.kindred {C : Value → Value → Prop} {B : Nat → Value → Value → Prop}
    (h : Renews T C B d d') : Kindred T d d' :=
  h.mono (fun _ _ _ _ => trivial) fun _ _ _ _ _ => trivial

theorem Kindred.symm (h : Kindred T d d') : Kindred T d' d := (Renews.swap h).kindred

theorem Kindred.trans (h : Kindred T d d') (h' : Kindred T d' d'') : Kindred T d d'' :=
  (Renews.comp h h').kindred

/-- Kindred effects with the same content are the same. -/
theorem Kindred.same (h : Kindred T d d') (hd : Contains T kind x d) (hd' : Contains T kind x d') :
    SameEffect T d d' := by
  cases hd with
  | slot slotted same holds =>
    cases hd' with
    | slot slotted' same' holds' =>
      cases h with
      | direct effect slot direct payload left right _ =>
        obtain rfl := slotOf_unique slotted.slot slot
        obtain rfl := slotOf_unique slotted'.slot slot
        obtain rfl := holds.unique left
        obtain rfl := holds'.unique right
        exact .direct effect slot direct payload left right rfl
      | function effect slot function payload left right _ =>
        obtain rfl := slotOf_unique slotted.slot slot
        obtain rfl := slotOf_unique slotted'.slot slot
        obtain rfl := holds.unique left
        obtain rfl := holds'.unique right
        exact .function effect slot function payload left right rfl

/-- What is put into the slot of an effect is found there, and nothing else about the effect
changes. -/
theorem Slotted.kindred_fill {c : ClassRef} {own : List (String × Value)} {s : Slot}
    {fill : Value → List (String × Value)} (h : Slotted T c own s fill)
    (holds : SlotHolds T c own s x) (y : Value) :
    Kindred T (.descriptor c own) (.descriptor c (fill y)) ∧
      Contains T s.kind y (.descriptor c (fill y)) := by
  refine ⟨?_, .slot (h.refill y) rfl (h.holds_fill y)⟩
  cases kind : s.kind with
  | direct =>
    have refills : Refills T (fun _ z => z = y) (fun _ => y) (.descriptor c own) _ :=
      .direct h kind holds rfl
    exact (Renews.of_refills refills).kindred
  | function n =>
    have refills : Refills T (fun _ z => z = y) (fun _ => y) (.descriptor c own) _ :=
      .function h kind holds
    exact (Renews.of_refills refills).kindred

/-! ### Rewritings that keep slots -/

/-- **A rewriting that keeps slots.** It is for certain effects, and which ones depends on their class
and their payload alone. It gives an effect whose slot is of the same kind, with the very content of
the original's, and whose class and payload depend on those of the original alone. -/
structure KeepsSlots (T : ClassTable) (E : Value → Prop) (g : Value) : Prop where
  kindred {d d' : Value} : E d → Kindred T d d' → E d'
  rewrites {kind : SlotKind} {d x : Value} : E d → Contains T kind x d →
    ∃ d', (limit g [d]).Yields T d' ∧ Contains T kind x d'
  uniform {d₁ d₂ d₁' d₂' : Value} : E d₁ → E d₂ → Kindred T d₁ d₂ →
    (limit g [d₁]).Yields T d₁' → (limit g [d₂]).Yields T d₂' → Kindred T d₁' d₂'

variable {E : Value → Prop} {g : Value}

/-- Hoisting rewrites a descriptor and fills its slot with what is hoisted. -/
theorem Refills.yields_hoist (refills : Refills T (fun x y => (Tree.hoist limit g x).Yields T y)
    (.after (.frame (.hoist g))) d' d'') (rewritten : (limit g [d]).Yields T d') :
    (Tree.hoist limit g (.tree (.suspended d))).Yields T (.tree (.suspended d'')) := by
  refine yields_hoist_suspended rewritten (refills.yields_fmap fun x y hxy => ?_)
  rw [Machine.limit_frame]
  exact hxy

/-- What is recorded of the rewritten effect is what the rewriting makes of the record. -/
def Recorded (T : ClassTable) (g e e' : Value) : Prop :=
  ∃ r, (limit g [e]).Yields T r ∧ SameEffect T r e'

/-- **To rewrite and to erase commute.** The rewritten effect has in its slot what hoisting makes of
the content: of a tree at once, and behind a function when it is called. -/
theorem KeepsSlots.rewritten (keeps : KeepsSlots T E g) (has : E e) (erased : Erased T d e)
    (contains : Contains T kind x d) (now : kind = .direct → (Tree.hoist limit g x).Yields T y) :
    ∃ d' e', (Tree.hoist limit g (.tree (.suspended d))).Yields T (.tree (.suspended d')) ∧
      Erased T d' e' ∧ Recorded T g e e' ∧ (kind = .direct → Contains T kind y d') ∧
      ∀ n, kind = .function n → Contains T kind (.after (.frame (.hoist g)) x) d' := by
  obtain ⟨slotted, rfl, holds⟩ := contains
  obtain ⟨fill, slotted', rfl⟩ := erased.exists_slotted slotted.slot
  obtain ⟨kin, unitLeft⟩ := slotted'.kindred_fill holds .unit
  have hasOriginal := keeps.kindred has kin.symm
  obtain ⟨d₁, rewritten, contains₁⟩ := keeps.rewrites hasOriginal (.slot slotted rfl holds)
  -- The rewriting makes the same of the effect and of its record, but for what is in the slot.
  obtain ⟨r, record, unitRight⟩ := keeps.rewrites has unitLeft
  have kin₁ := keeps.uniform hasOriginal has kin rewritten record
  obtain ⟨slotted₁, same₁, holds₁⟩ := contains₁
  rename_i c₁ own₁ s₁ fill₁
  obtain ⟨kinUnit, unit₁⟩ := slotted₁.kindred_fill holds₁ .unit
  have recorded : Recorded T g _ (.descriptor c₁ (fill₁ .unit)) :=
    ⟨r, record, (kin₁.symm.trans kinUnit).same unitRight (same₁ ▸ unit₁)⟩
  cases kind₁ : s₁.kind with
  | direct =>
    have direct := same₁.symm.trans kind₁
    have refills := Refills.direct (F := .after (.frame (.hoist g)))
      (C := fun x y => (Tree.hoist limit g x).Yields T y) slotted₁ kind₁ holds₁ (now direct)
    refine ⟨_, _, refills.yields_hoist rewritten, slotted₁.erased_fill _, recorded, fun _ => ?_,
      fun n function => ?_⟩
    · exact .slot (slotted₁.refill _) same₁ (slotted₁.holds_fill _)
    · simp [direct] at function
  | function n =>
    have function := same₁.symm.trans kind₁
    have refills := Refills.function (F := .after (.frame (.hoist g)))
      (C := fun x y => (Tree.hoist limit g x).Yields T y) slotted₁ kind₁ holds₁
    refine ⟨_, _, refills.yields_hoist rewritten, slotted₁.erased_fill _, recorded,
      fun direct => ?_, fun n _ => ?_⟩
    · simp [direct] at function
    · exact .slot (slotted₁.refill _) same₁ (slotted₁.holds_fill _)

namespace Analysis

variable {next next' : Value}

/-- **One step of a walk** is one step of the walk through the rewritten tree. -/
theorem hoist_step (keeps : KeepsSlots T E g) (hd : Sound T total (.tree (.suspended d)))
    (has : E e) (erased : Erased T d e) (stepped : (limit anyLocator [d]).Yields T next)
    (known : next ≠ .poison) (hoisted : (Tree.hoist limit g next).Yields T next') :
    ∃ d' e', (Tree.hoist limit g (.tree (.suspended d))).Yields T (.tree (.suspended d')) ∧
      Erased T d' e' ∧ Recorded T g e e' ∧ (limit anyLocator [d']).Yields T next' := by
  obtain ⟨c, own, s, fill, x, rfl, rfl, slotted, holds, along⟩ := step_cases hd erased stepped known
  rcases along with ⟨kind, rfl⟩ | ⟨n, kind, gives⟩
  · -- Along a direct slot the tree is rewritten before the walk comes there.
    obtain ⟨d', e', hoists, erased', recorded, contains, -⟩ :=
      keeps.rewritten has erased (.slot slotted kind holds) fun _ => hoisted
    obtain ⟨slotted', kind', holds'⟩ := contains rfl
    exact ⟨_, e', hoists, erased', recorded,
      yields_locate_direct slotted'.effect slotted'.slot kind' holds'⟩
  · -- Behind a function slot it is rewritten by the call that the walk makes.
    obtain ⟨d', e', hoists, erased', recorded, -, contains⟩ :=
      keeps.rewritten (y := x) has erased (.slot slotted kind holds) nofun
    obtain ⟨slotted', kind', holds'⟩ := contains n rfl
    refine ⟨_, e', hoists, erased', recorded, ?_⟩
    rw [← Act.settles_ok_iff]
    refine settles_locate_function slotted'.effect slotted'.slot kind' holds' ?_
    rw [limit_after_hoist]
    exact (gives.bind hoisted).settles

/-- Where a walk depends on its input, so does the walk through the rewritten tree. -/
theorem hoist_noStep (keeps : KeepsSlots T E g) (hd : Sound T total (.tree (.suspended d)))
    (has : E e) (erased : Erased T d e) (stepped : (probe (limit anyLocator [d])).Yields T none) :
    ∃ d' e', (Tree.hoist limit g (.tree (.suspended d))).Yields T (.tree (.suspended d')) ∧
      Erased T d' e' ∧ Recorded T g e e' ∧ (probe (limit anyLocator [d'])).Yields T none := by
  obtain ⟨c, own, s, fill, x, n, rfl, rfl, slotted, holds, kind, nothing⟩ :=
    noStep_cases hd erased stepped
  obtain ⟨d', e', hoists, erased', recorded, -, contains⟩ :=
    keeps.rewritten (y := x) has erased (.slot slotted kind holds) nofun
  obtain ⟨slotted', kind', holds'⟩ := contains n rfl
  refine ⟨_, e', hoists, erased', recorded, ?_⟩
  refine yields_probe_locate_function slotted'.effect slotted'.slot kind' holds' ?_
  rw [limit_after_hoist]
  -- Hoisting leaves the unknown argument alone, so nothing comes of the call after all.
  exact Act.yields_probe_bind_none nothing Act.yields_probe_poison

/-! ### Walks through the rewritten tree -/

/-- A walk is a walk through the rewritten tree that stops in the same way. -/
theorem Walks.hoist (keeps : KeepsSlots T E g) {t : Value} {stop : Stop} {trace : List Value}
    (walk : Walks T anyLocator t stop trace) (ht : Sound T total t) (has : ∀ e ∈ trace, E e) :
    ∃ t' trace', (Tree.hoist limit g t).Yields T t' ∧ t' ≠ .poison ∧
      Walks T anyLocator t' stop trace' ∧ List.Forall₂ (Recorded T g) trace trace' := by
  induction walk with
  | failed => exact ⟨_, [], Act.yields_pure _, by simp, .failed, .nil⟩
  | value value => exact ⟨_, [], Act.yields_pure _, by simp, .value value, .nil⟩
  | noValue value => exact ⟨_, [], Act.yields_pure _, by simp, .noValue value, .nil⟩
  | @step d e next stop trace erased stepped isKnown _ ih =>
    have hnext : Sound T total next := Sound.follows.of_stepped ht stepped isKnown
    obtain ⟨next', trace', hoisted, known', walks, records⟩ :=
      ih hnext fun e' he' => has e' (List.mem_cons_of_mem e he')
    obtain ⟨d', e', hoists, erased', recorded, stepped'⟩ :=
      hoist_step keeps ht (has e List.mem_cons_self) erased stepped isKnown hoisted
    exact ⟨_, e' :: trace', hoists, by simp, .step erased' stepped' known' walks,
      .cons recorded records⟩
  | @noStep d e erased stepped =>
    obtain ⟨d', e', hoists, erased', recorded, stepped'⟩ :=
      hoist_noStep keeps ht (has e List.mem_cons_self) erased stepped
    exact ⟨_, [e'], hoists, by simp, .noStep erased' stepped', .cons recorded .nil⟩

/-- **Rewriting does not change what analysis finds.** If the analysis of a sound tree has a result,
or none, and finds certain effects on its way, the analysis of the rewritten tree has the same result
and finds these effects rewritten. -/
theorem analyze_hoist (keeps : KeepsSlots T E g) {t : Value} (ht : Sound T total t)
    {result : Option Value} {trace : List Value}
    (analyzes : Analyzes T anyLocator t result trace) (has : ∀ e ∈ trace, E e) :
    ∃ t' trace', (Tree.hoist limit g t).Yields T t' ∧ Analyzes T anyLocator t' result trace' ∧
      List.Forall₂ (Recorded T g) trace trace' := by
  obtain ⟨stop, walk, rfl⟩ := analyzes.walks Sound.follows ht
  obtain ⟨t', trace', hoisted, -, walk', records⟩ := walk.hoist keeps ht has
  exact ⟨t', trace', hoisted, walk'.analyzes, records⟩

end Analysis

/-! ### A dialogue that gets louder -/

namespace Dialogue

/-- Statements and questions. -/
inductive Spoken : Value → Prop where
  | say {own : List (String × Value)} {m x : Value}
      (message : table.memberOf? sayClass.id own .scalar "message" = some m)
      (next : SlotHolds table sayClass own ⟨"next", .direct⟩ x) :
      Spoken (.descriptor sayClass own)
  | ask {own : List (String × Value)} {x : Value}
      (answer : SlotHolds table askClass own ⟨"answer", .function 1⟩ x) :
      Spoken (.descriptor askClass own)

theorem sameMessage {own own' : List (String × Value)}
    (h : SamePayload table sayClass ⟨"next", .direct⟩ own own') :
    table.memberOf? sayClass.id own .scalar "message" =
      table.memberOf? sayClass.id own' .scalar "message" :=
  h _ rfl ⟨"message", none, true, false⟩ (by simp) rfl (by simp)

theorem keepsSlots_loud : KeepsSlots table Spoken loud where
  kindred {d d'} spoken kin := by
    cases spoken with
    | say message next =>
      cases kin with
      | direct _ slot _ payload _ holds' _ =>
        cases slot
        exact .say ((sameMessage payload).symm.trans message) holds'
      | function _ slot kind => cases slot; cases kind
    | ask answer =>
      cases kin with
      | direct _ slot kind => cases slot; cases kind
      | function _ slot _ _ _ holds' _ =>
        cases slot
        exact .ask holds'
  rewrites {kind d x} spoken contains := by
    cases contains with
    | slot slotted same holds =>
      cases spoken with
      | say message next =>
        obtain rfl := slotOf_unique slotted.slot rfl
        exact ⟨_, yields_loud_say message holds, .slot (slotted_say _ x) same (holds_say _ x)⟩
      | ask answer =>
        obtain rfl := slotOf_unique slotted.slot rfl
        exact ⟨_, yields_loud_ask, .slot slotted same holds⟩
  uniform {d₁ d₂ d₁' d₂'} spoken₁ spoken₂ kin rewritten₁ rewritten₂ := by
    cases kin with
    | list each => cases spoken₁
    | direct effect slot kind payload holds₁ holds₂ =>
      cases spoken₁ with
      | say message₁ next₁ =>
        cases spoken₂ with
        | say message₂ next₂ =>
          cases slot
          -- Both have the same message, and get as loud.
          have same := Option.some.inj (message₁.symm.trans ((sameMessage payload).trans message₂))
          obtain rfl := (yields_loud_say message₁ holds₁).unique rewritten₁
          obtain rfl := (yields_loud_say message₂ holds₂).unique rewritten₂
          rw [same]
          exact ((slotted_say _ _).kindred_fill (holds_say _ _) _).1
      | ask answer => cases slot; cases kind
    | function effect slot kind payload holds₁ holds₂ =>
      cases spoken₁ with
      | say message next => cases slot; cases kind
      | ask answer =>
        obtain rfl := yields_loud_ask.unique rewritten₁
        obtain rfl := yields_loud_ask.unique rewritten₂
        exact .function effect slot kind payload holds₁ holds₂ trivial

end Dialogue

namespace Analysis

open Dialogue

theorem analyze_hoist_dialogue :
    KeepsSlots table Spoken loud ∧ Sound table True (say (.str "hello") (ask echo)) ∧
      Analyzes table anyLocator (say (.str "hello") (ask echo)) (some (.int 1))
        [saying (.str "hello") .unit, asking .unit, saying .poison .unit] ∧
      ∃ t' trace', (Tree.hoist limit loud (say (.str "hello") (ask echo))).Yields table t' ∧
        Analyzes table anyLocator t' (some (.int 1)) trace' ∧
        List.Forall₂ (Recorded table loud)
          [saying (.str "hello") .unit, asking .unit, saying .poison .unit] trace' := by
  have sound : Sound table True (say (.str "hello") (ask echo)) := sound_say sound_ask_echo
  have analyzes : Analyzes table anyLocator (say (.str "hello") (ask echo)) (some (.int 1))
      [saying (.str "hello") .unit, asking .unit, saying .poison .unit] :=
    analyzes_say (by simp [ask]) analyzes_ask_echo
  refine ⟨keepsSlots_loud, sound, analyzes, analyze_hoist keepsSlots_loud sound analyzes ?_⟩
  intro e he
  simp only [List.mem_cons, List.not_mem_nil, or_false] at he
  rcases he with rfl | rfl | rfl
  · exact .say rfl rfl
  · exact .ask rfl
  · exact .say rfl rfl

end Analysis

end EffectTrees
