import EffectTrees.Proofs.Exchange.Likeness
import EffectTrees.Proofs.Tree.Hoist
import EffectTrees.Proofs.Tree.Monad

/-!
# Trees that differ in how their leaves are written

Whether a leaf has a value can be known, or it can be found out by computing its payload. Two trees
of the descriptors of a vocabulary are *akin* (`Akin`) if they differ in this respect only:

* leaves come to the same on probation, be it a value or nothing (`Tree.outcome`),
* descriptors agree in all but their slots (`SlotsAlike`), whose contents are akin, and function
  slots give akin trees, or end alike without one, whatever their arguments (`LikeBehind`).

A finished tree whose content is computed on demand is akin to the one that has the content
(`Akin.defer`), and trees of which nothing comes are akin to each other (`Akin.of_hopeless`): the
failed tree, the tree with the unknown argument for its value, and the one whose computation aborts.

Trees go on behind function slots without an end, so the relation is the greatest one that is its
own justification. The values of leaves are of a kind `A`; with `total`, leaves do come to a value
or to nothing.
-/

namespace EffectTrees

open Machine (limit)
open Act (EndsLike Yields)
open Comparison (identical)

variable {T : ClassTable} {E : Vocabulary T} {total : Prop} {A B : Value → Prop}
  {R S : Value → Value → Prop} {d d' f f' g g' t u v : Value}

/-! ### What the relation is made of -/

/-- The same value, which is of the kind. -/
def SameOf (A : Value → Prop) (v v' : Value) : Prop := v = v' ∧ A v

theorem SameOf.symm {v v' : Value} (h : SameOf A v v') : SameOf A v' v := by
  obtain ⟨rfl, hv⟩ := h
  exact ⟨rfl, hv⟩

/-- An outcome and the same outcome, if values are the same. -/
theorem eq_of_sameOf {r r' : Option Value} (h : Option.Rel (SameOf A) r r') : r' = r := by
  cases h with
  | some same => rw [same.1]
  | none => rfl

theorem sameOf_symm {r r' : Option Value} (h : Option.Rel (SameOf A) r r') :
    Option.Rel (SameOf A) r' r := by
  cases h with
  | some same => exact .some same.symm
  | none => exact .none

/-- The functions give related values, or end alike without one, whatever the arguments. -/
def LikeBehind (T : ClassTable) (R : Value → Value → Prop) (g g' : Value) : Prop :=
  ∀ args, EndsLike T R (limit g args) (limit g' args)

theorem LikeBehind.mono (hRS : ∀ x y, R x y → S x y) (h : LikeBehind T R g g') :
    LikeBehind T S g g' :=
  fun args => (h args).imp hRS

/-- **Descriptors of the vocabulary that differ in their slots only**: contents at hand are related
by `R`, and the functions of function slots by `S`. -/
structure SlotsAlike (E : Vocabulary T) (R S : Value → Value → Prop) (d d' : Value) : Prop where
  has : E.Has d
  has' : E.Has d'
  slots : (identical T).Slots R S d d'

/-- The slots hold what is related by `R`, behind a function slot whatever the arguments. -/
abbrev Holding (E : Vocabulary T) (R : Value → Value → Prop) : Value → Value → Prop :=
  SlotsAlike E R (LikeBehind T R)

namespace Tree

/-- A tree without pending effects. -/
inductive IsLeaf : Tree → Prop where
  | done (p : Payload) : IsLeaf (.done p)
  | failed : IsLeaf .failed

/-- What a leaf comes to on probation. -/
def outcome (call : Caller) : Tree → Act (Option Value)
  | .done p => p.resolve call
  | _ => Pure.pure none

end Tree

/-! ### Akin trees -/

/-- Two trees are leaves that come to the same, or they have descriptors with related contents. What
a function slot gives may also be the unknown argument. -/
inductive Akin.Step (E : Vocabulary T) (total : Prop) (A : Value → Prop)
    (R : Value → Value → Prop) : Value → Value → Prop where
  | poison : Step E total A R .poison .poison
  | leaf {t t' : Tree} (left : t.IsLeaf) (right : t'.IsLeaf)
      (alike : EndsLike T (Option.Rel (SameOf A)) (t.outcome limit) (t'.outcome limit))
      (answers : total → ∃ r, (t.outcome limit).Yields T r) :
      Step E total A R (.tree t) (.tree t')
  | suspended {d d' : Value} (slots : Holding E R d d') :
      Step E total A R (.tree (.suspended d)) (.tree (.suspended d'))

/-- **Akin trees.** -/
def Akin (E : Vocabulary T) (total : Prop) (A : Value → Prop) (t u : Value) : Prop :=
  ∃ R, (∀ t u, R t u → Akin.Step E total A R t u) ∧ R t u

/-! ### Descriptors side by side -/

/-- Descriptors of a vocabulary with their slots filled anew are of the vocabulary. -/
theorem Vocabulary.has_refilled (has : E.Has d) (refilled : Refilled T d d') : E.Has d' := by
  obtain ⟨F, refills⟩ := refilled
  exact E.refill has refills

namespace SlotsAlike

variable {R' S' : Value → Value → Prop} {c c' : Caller}

theorem mono (h : SlotsAlike E R S d d') (hR : ∀ x y, R x y → R' x y)
    (hS : ∀ x y, S x y → S' x y) : SlotsAlike E R' S' d d' :=
  ⟨h.has, h.has', h.slots.mono hR hS⟩

theorem symm (h : SlotsAlike E R S d d') :
    SlotsAlike E (fun y x => R x y) (fun y x => S x y) d' d :=
  ⟨h.has', h.has, h.slots.symm⟩

/-- **To map over descriptors** that differ in their slots, given how the contents are changed. -/
theorem fmap (h : SlotsAlike E R S d d')
    (content : ∀ x x', R x x' → (identical T).Matched R' (c f [x]) (c' f' [x']))
    (behind : ∀ g g', S g g' → S' (.function (.after f g)) (.function (.after f' g'))) :
    (identical T).Matched (SlotsAlike E R' S') (EffectTrees.fmap c d f)
      (EffectTrees.fmap c' d' f') := by
  refine (Comparison.Matched.fmap_refilled h.slots content behind).imp ?_
  rintro e e' ⟨filled, refilled, refilled'⟩
  exact ⟨E.has_refilled h.has refilled, E.has_refilled h.has' refilled', filled.slots⟩

end SlotsAlike

/-! ### Trees side by side -/

namespace Akin

theorem Step.mono (hRS : ∀ x y, R x y → S x y) (h : Step E total A R t u) :
    Step E total A S t u := by
  cases h with
  | poison => exact .poison
  | leaf left right alike answers => exact .leaf left right alike answers
  | suspended slots => exact .suspended (slots.mono hRS fun _ _ => LikeBehind.mono hRS)

theorem step (h : Akin E total A t u) : Step E total A (Akin E total A) t u := by
  obtain ⟨R, closed, related⟩ := h
  exact (closed t u related).mono fun x y hxy => ⟨R, closed, hxy⟩

theorem of_step (h : Step E total A (Akin E total A) t u) : Akin E total A t u :=
  ⟨Step E total A (Akin E total A), fun _ _ h => h.mono fun _ _ akin => akin.step, h⟩

theorem poison : Akin E total A .poison .poison := .of_step .poison

theorem leaf {t t' : Tree} (left : t.IsLeaf) (right : t'.IsLeaf)
    (alike : EndsLike T (Option.Rel (SameOf A)) (t.outcome limit) (t'.outcome limit))
    (answers : total → ∃ r, (t.outcome limit).Yields T r) :
    Akin E total A (.tree t) (.tree t') := .of_step (.leaf left right alike answers)

/-- Trees whose descriptors have akin contents are akin. -/
theorem suspended {d d' : Value} (slots : Holding E (Akin E total A) d d') :
    Akin E total A (.tree (.suspended d)) (.tree (.suspended d')) := .of_step (.suspended slots)

theorem Step.symm (h : Step E total A R t u) : Step E total A (fun y x => R x y) u t := by
  cases h with
  | poison => exact .poison
  | leaf left right alike answers =>
    refine .leaf right left (alike.symm.imp fun _ _ => sameOf_symm) fun yes => ?_
    obtain ⟨r, yields⟩ := answers yes
    exact ⟨r, alike.yields (fun _ _ => eq_of_sameOf) yields⟩
  | suspended slots =>
    exact .suspended (slots.symm.mono (fun _ _ => id) fun _ _ behind args => (behind args).symm)

theorem symm (h : Akin E total A t u) : Akin E total A u t := by
  obtain ⟨R, closed, related⟩ := h
  exact ⟨fun u t => R t u, fun u t hut => (closed t u hut).symm, related⟩

theorem isPoison_eq (h : Akin E total A t u) : t.isPoison = u.isPoison := by
  cases h.step <;> rfl

/-! ### Leaves that are akin -/

/-- Leaves that come to the same value or nothing. -/
theorem of_yields {t t' : Tree} {r : Option Value} (left : t.IsLeaf) (right : t'.IsLeaf)
    (ht : (t.outcome limit).Yields T r) (ht' : (t'.outcome limit).Yields T r)
    (kind : ∀ v, r = some v → A v) : Akin E total A (.tree t) (.tree t') := by
  refine .leaf left right (.of_yields ht ht' ?_) fun _ => ⟨r, ht⟩
  cases r with
  | none => exact .none
  | some v => exact .some ⟨rfl, kind v rfl⟩

/-- **Absence that is known and absence that is found out.** Trees of which nothing comes are
akin. -/
theorem of_hopeless (ht : Hopeless T t) (hu : Hopeless T u) : Akin E total A t u := by
  have leaf : ∀ {t}, Hopeless T t →
      ∃ l : Tree, t = .tree l ∧ l.IsLeaf ∧ (l.outcome limit).Yields T none := by
    intro t ht
    cases ht with
    | failed => exact ⟨.failed, rfl, .failed, Act.yields_pure _⟩
    | done nothing => exact ⟨_, rfl, .done _, nothing⟩
  obtain ⟨l, rfl, left, nothing⟩ := leaf ht
  obtain ⟨l', rfl, right, nothing'⟩ := leaf hu
  exact .of_yields left right nothing nothing' nofun

theorem failed : Akin E total A (.tree .failed) (.tree .failed) := .of_hopeless .failed .failed

/-- **A value that is computed on demand and the value itself.** -/
theorem defer {thunk : Value} (gives : (limit thunk []).Yields T v) (known : v.isPoison = false)
    (kind : A v) : Akin E total A (.tree (Tree.defer thunk)) (.tree (Tree.pure v)) :=
  .of_yields (.done _) (.done _) (gives.probe known) ((Act.yields_pure v).probe known) fun _ same =>
    Option.some.inj same ▸ kind

theorem pure (kind : A v) : Akin E total A (.tree (Tree.pure v)) (.tree (Tree.pure v)) := by
  by_cases known : v.isPoison
  · obtain rfl := Value.isPoison_iff.mp known
    exact .of_hopeless (.done Act.yields_probe_poison) (.done Act.yields_probe_poison)
  · have resolves := (Act.yields_pure (T := T) v).probe (by simpa using known)
    exact .of_yields (.done _) (.done _) resolves resolves fun _ same =>
      Option.some.inj same ▸ kind

end Akin

/-- The tree with the unknown argument for its value is one of which nothing comes. -/
theorem hopeless_poison : Hopeless T (.tree (Tree.pure .poison)) := .done Act.yields_probe_poison

/-- So is the tree whose computation aborts. -/
theorem hopeless_defer {thunk : Value} (aborts : (limit thunk []).Settles T (some (.error .abort))) :
    Hopeless T (.tree (Tree.defer thunk)) :=
  .done (Act.settles_ok_iff.mp aborts.probe)

/-- A descriptor differs from itself in its slots at most. -/
theorem slotsAlike_self (has : E.Has d) (fillable : Fillable T d)
    (content : ∀ x, AtHand T d x → R x x) (behind : ∀ n g, Behind T d n g → S g g) :
    SlotsAlike E R S d d := by
  refine ⟨has, has, Comparison.slots_self ?_ content behind⟩
  rintro c own rfl
  cases fillable with
  | effect slotted holds => exact slotted.effect

/-- **Trees of the vocabulary** whose callbacks do not fail are akin to themselves. -/
theorem Over.akin (h : Over T E True t) : Akin E total (fun _ => True) t t := by
  refine ⟨fun t u => t = u ∧ Over T E True t, ?_, rfl, h⟩
  rintro t _ ⟨rfl, h⟩
  cases h.step with
  | failed => exact .leaf .failed .failed (.pure .none) fun _ => ⟨none, Act.yields_pure _⟩
  | @done p answers =>
    obtain ⟨o, settles, answers⟩ := answers trivial
    refine .leaf (.done p) (.done p) (.self settles.probe fun r _ => ?_) fun _ => ?_
    · cases r with
      | none => exact .none
      | some v => exact .some ⟨rfl, trivial⟩
    · rcases Payload.cases settles answers with ⟨v, -, resolved⟩ | nothing
      · exact ⟨_, resolved⟩
      · exact ⟨_, nothing⟩
  | @suspended d has steady holds =>
    refine .suspended (slotsAlike_self has steady.fillable (fun x hx => ⟨rfl, holds.atHand x hx⟩) ?_)
    intro n g hg args
    -- A function slot settles, so it ends like itself, with a tree of the vocabulary if with any.
    obtain ⟨o, settles, -⟩ := steady.settles n g hg args
    refine .self settles fun v same => ⟨rfl, holds.behind n g hg args v ?_⟩
    exact Act.settles_ok_iff.mp (same ▸ settles)

end EffectTrees
