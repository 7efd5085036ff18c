import EffectTrees.Proofs.Akin.Tree
import EffectTrees.Proofs.Exchange.Filling

/-!
# The applicative and the monad

To apply a tree of functions to a tree of arguments is an operation of its own, which looks at both
trees at once. It agrees with the monad: to apply `tf` to `tx` is to bind to `tf` the function that
maps over `tx` what it is given (`ap_coincides_bind`). Both give trees that *coincide* (`Coincide`)
or end with the same signal. Trees coincide if they are the same leaf, or have descriptors that
differ in their slots at most, where contents coincide and function slots end alike on all
arguments.

The functions that are applied may abort, and they may fail. So function slots of the results need
not answer, which is why trees are compared by how they end behind function slots, and not by what
they give there.

* What frames make of one tree coincides if it does for the leaves (`Bears.coincide`): what is at
  hand is gone through by induction, and the rest when a function slot is called.
* To map over a tree comes to a tree or fails (`Bears.responds_map`). So it never aborts, and the
  probation that binding adds to it does not matter (`endsAs_guarded`).
-/

namespace EffectTrees

open Machine (limit)
open Act (EndsLike EndsAs Yields FaultOr)
open Comparison (identical)

variable {T : ClassTable} {A B : Value → Prop} {P R S : Value → Value → Prop} {k k' : Frame}
  {d f f' g h t u x : Value} {p q : Payload}

/-! ### Trees and their results -/

/-- The value is a tree that holds values with the property, whose callbacks settle, and whose
payloads answer with values of the kind `A` if with any. -/
inductive Bears.Step (T : ClassTable) (A P : Value → Prop) : Value → Prop where
  | failed : Step T A P (.tree .failed)
  | done {p : Payload} {o : Ending Value} (settles : (p.force limit).Settles T o)
      (answers : o.Answers) (kind : ∀ v, (p.resolve limit).Yields T (some v) → A v) :
      Step T A P (.tree (.done p))
  | suspended {d : Value} (contents : ∀ x, AtHand T d x → P x)
      (behind : ∀ n g, Behind T d n g → ∀ args, ∃ o, (limit g args).Settles T o ∧
        ∀ v, o = some (.ok v) → v = .poison ∨ P v) : Step T A P (.tree (.suspended d))

/-- **Trees that bear results of a kind.** Their slots hold such trees. Function slots give such
trees or abort, and may fail for some arguments. -/
def Bears (T : ClassTable) (A : Value → Prop) (t : Value) : Prop :=
  ∃ P, (∀ t, P t → Bears.Step T A P t) ∧ P t

namespace Bears

theorem Step.mono {P Q : Value → Prop} (hPQ : ∀ x, P x → Q x) (h : Step T A P t) :
    Step T A Q t := by
  cases h with
  | failed => exact .failed
  | done settles answers kind => exact .done settles answers kind
  | suspended contents behind =>
    refine .suspended (fun x hx => hPQ x (contents x hx)) fun n g hg args => ?_
    obtain ⟨o, settles, values⟩ := behind n g hg args
    exact ⟨o, settles, fun v hv => (values v hv).imp_right (hPQ v)⟩

theorem step (h : Bears T A t) : Step T A (Bears T A) t := by
  obtain ⟨P, closed, ht⟩ := h
  exact (closed t ht).mono fun u hu => ⟨P, closed, hu⟩

theorem of_step (h : Step T A (Bears T A) t) : Bears T A t :=
  ⟨Step T A (Bears T A), fun _ h => h.mono fun _ bears => bears.step, h⟩

theorem sound (h : Bears T A t) : Sound T False t := by
  refine ⟨Bears T A, fun t h => ?_, h⟩
  cases h.step with
  | failed => exact .failed
  | done settles answers kind => exact .done settles False.elim
  | suspended contents behind =>
    refine .suspended contents (fun n g hg args => ?_) False.elim
    obtain ⟨o, settles, values⟩ := behind n g hg args
    exact ⟨o, settles, False.elim, values⟩

/-- A property of trees follows if it goes from what is at hand in a tree over to the tree. -/
theorem induction {motive : Value → Prop} (ht : Bears T A t) (failed : motive (.tree .failed))
    (done : ∀ p, Bears T A (.tree (.done p)) → motive (.tree (.done p)))
    (suspended : ∀ d, Bears T A (.tree (.suspended d)) →
      (∀ x, AtHand T d x → motive x) → motive (.tree (.suspended d))) : motive t := by
  induction ht.sound.ready with
  | failed => exact failed
  | done settles ends => exact done _ ht
  | suspended atHand fillable ih =>
    refine suspended _ ht fun x hx => ih x hx ?_
    cases ht.step with
    | suspended contents behind => exact contents x hx

end Bears

/-! ### Trees that coincide -/

/-- Two values are the same, or trees whose descriptors differ in their slots at most. -/
inductive Coincide.Step (T : ClassTable) (R : Value → Value → Prop) : Value → Value → Prop where
  | refl (t : Value) : Step T R t t
  | suspended {d d' : Value} (slots : (identical T).Slots R (LikeBehind T R) d d') :
      Step T R (.tree (.suspended d)) (.tree (.suspended d'))

/-- **Trees that coincide.** -/
def Coincide (T : ClassTable) (t u : Value) : Prop :=
  ∃ R, (∀ t u, R t u → Coincide.Step T R t u) ∧ R t u

theorem Coincide.Step.mono (hRS : ∀ x y, R x y → S x y) (h : Step T R t u) : Step T S t u := by
  cases h with
  | refl => exact .refl t
  | suspended slots => exact .suspended (slots.mono hRS fun _ _ => LikeBehind.mono hRS)

theorem Coincide.step (h : Coincide T t u) : Coincide.Step T (Coincide T) t u := by
  obtain ⟨R, closed, related⟩ := h
  exact (closed t u related).mono fun x y hxy => ⟨R, closed, hxy⟩

theorem Coincide.refl (t : Value) : Coincide T t t :=
  ⟨Eq, fun _ _ same => same ▸ .refl _, rfl⟩

/-- Trees that coincide as far as they have been gone through, with functions behind function slots
that are related by `P`. -/
inductive Coinciding (T : ClassTable) (P : Value → Value → Prop) : Value → Value → Prop where
  | coincide {t u : Value} (h : Coincide T t u) : Coinciding T P t u
  | suspended {C : Value → Value → Prop} {d d' : Value}
      (contents : ∀ x y, C x y → Coinciding T P x y) (slots : (identical T).Slots C P d d') :
      Coinciding T P (.tree (.suspended d)) (.tree (.suspended d'))

/-- If the functions give such trees, the trees coincide. -/
theorem Coinciding.to_coincide
    (behind : ∀ g g', P g g' → LikeBehind T (Coinciding T P) g g') (h : Coinciding T P t u) :
    Coincide T t u := by
  refine ⟨Coinciding T P, ?_, h⟩
  intro t u h
  cases h with
  | coincide h => exact h.step.mono fun _ _ => .coincide
  | suspended contents slots => exact .suspended (slots.mono contents behind)

theorem Coincide.exists_tree (h : Coincide T t u) (isTree : ∃ l, u = .tree l) :
    ∃ l, t = .tree l := by
  cases h.step with
  | refl => exact isTree
  | suspended slots => exact ⟨_, rfl⟩

/-! ### One descriptor, two functions -/

/-- **To map two functions over one descriptor**, which do the same to what is at hand. -/
theorem endsLike_fmap (content : ∀ x, AtHand T d x → EndsLike T R (limit f [x]) (limit f' [x]))
    (behind : ∀ n g, Behind T d n g → S (.function (.after f g)) (.function (.after f' g))) :
    EndsLike T ((identical T).Slots R S) (fmap limit d f) (fmap limit d f') := by
  by_cases effect : ∀ c own, d = .descriptor c own → c.isEffect
  · have self : (identical T).Slots (fun x x' => x = x' ∧ AtHand T d x)
        (fun g g' => g = g' ∧ ∃ n, Behind T d n g) d d :=
      Comparison.slots_self effect (fun x hx => ⟨rfl, hx⟩) fun n g hg => ⟨rfl, n, hg⟩
    have there := Comparison.Matched.fmap_of (E := R) (F := S) self
      (by rintro x _ ⟨rfl, hx⟩; exact (content x hx).follows)
      (by rintro g _ ⟨rfl, n, hg⟩; exact behind n g hg)
    have back := Comparison.Matched.fmap_of (E := fun y x => R x y) (F := fun y x => S x y) self
      (by rintro x _ ⟨rfl, hx⟩; exact (content x hx).symm.follows)
      (by rintro g _ ⟨rfl, n, hg⟩; exact behind n g hg)
    exact .of_matched (there.imp fun _ _ filled => filled.slots) back
  · -- What is no effect has no slots, and the functions are not called.
    simp only [not_forall] at effect
    obtain ⟨c, own, rfl, other⟩ := effect
    have fails : ∀ f, fmap limit (.descriptor c own) f = Act.fail (.noSlots c.name) := fun f =>
      fmap_of_not_effect (by simpa using other)
    rw [fails, fails]
    exact .of_settles (Act.settles_fail _) (Act.settles_fail _) (.some (.error _))

/-- **Frames that make coinciding trees of leaves** make coinciding trees. -/
theorem Bears.coincide (hk : k.Traverses) (hk' : k'.Traverses)
    (leaves : ∀ p, Bears T A (.tree (.done p)) →
      EndsLike T (Coincide T) (k.run limit (.tree (.done p))) (k'.run limit (.tree (.done p))))
    (poison : EndsLike T (Coincide T) (k.run limit .poison) (k'.run limit .poison))
    (ht : Bears T A t) : EndsLike T (Coincide T) (k.run limit t) (k'.run limit t) := by
  -- Behind function slots, the frames go on from functions that give trees with such results.
  let P : Value → Value → Prop := fun g g' => ∃ inner, g = .function (.after (.frame k) inner) ∧
    g' = .function (.after (.frame k') inner) ∧ ∀ args, ∃ o, (limit inner args).Settles T o ∧
      ∀ v, o = some (.ok v) → v = .poison ∨ Bears T A v
  -- What is at hand is gone through by induction, and gives trees that coincide up to `P`.
  have gone : ∀ t, Bears T A t →
      EndsLike T (Coinciding T P) (k.run limit t) (k'.run limit t) := by
    intro t ht
    refine ht.induction (motive := fun t => EndsLike T (Coinciding T P) (k.run limit t)
      (k'.run limit t)) ?_ ?_ ?_
    · rw [hk.failed, hk'.failed]
      exact .pure (.coincide (.refl _))
    · exact fun p hp => (leaves p hp).imp fun _ _ => .coincide
    · intro d hd ih
      rw [hk.suspended, hk'.suspended]
      simp only [← Machine.limit_frame] at ih
      have filled := endsLike_fmap (S := P) ih fun n g hg => ?_
      · exact filled.bind fun _ _ slots => .pure (.suspended (fun _ _ => id) slots)
      · cases hd.step with
        | suspended contents behind => exact ⟨g, rfl, rfl, behind n g hg⟩
  refine (gone t ht).imp fun _ _ h => h.to_coincide ?_
  rintro _ _ ⟨inner, rfl, rfl, bears⟩ args
  obtain ⟨o, settles, values⟩ := bears args
  have alike : EndsLike T (fun v v' => v = v' ∧ (v = .poison ∨ Bears T A v)) (limit inner args)
      (limit inner args) := .self settles fun v hv => ⟨rfl, values v hv⟩
  -- Functions that are related by `P` go on from one and the same function, and `gone` applies anew.
  rw [Machine.limit_after, Machine.limit_after]
  refine alike.bind ?_
  rintro v _ ⟨rfl, rfl | hv⟩
  · simp only [Machine.limit_frame]
    exact poison.imp fun _ _ => .coincide
  · simp only [Machine.limit_frame]
    exact gone v hv

/-! ### Endings of leaves and trees -/

namespace Act

/-- **To finish with what a function gives** settles on a tree or a fault. -/
theorem Settles.guarded_finish {a : Act Value} {r : Except Signal Value}
    (h : a.Settles T (some r)) :
    ∃ r' : Except Signal Value,
      (guarded do return .tree (Tree.pure (← a))).Settles T (some r') ∧ r' ≠ .error .abort ∧
        ∀ u, r' = .ok u → ∃ t, u = .tree t := by
  match r with
  | .ok v =>
    have finished : (do return Value.tree (Tree.pure (← a))).Yields T (.tree (Tree.pure v)) :=
      (settles_ok_iff.mp h).bind (yields_pure _)
    exact ⟨.ok (.tree (Tree.pure v)), (guarded_known finished rfl).settles, by simp,
      fun u same => ⟨_, (Except.ok.inj same).symm⟩⟩
  | .error .abort =>
    have nothing := h.probe_bind_abort fun v => pure (.tree (Tree.pure v))
    exact ⟨.ok (.tree .failed), (guarded_none nothing).settles, by simp,
      fun u same => ⟨_, (Except.ok.inj same).symm⟩⟩
  | .error (.fault f) =>
    exact ⟨.error (.fault f), (h.bind_error _).probe.bind_error _, by simp, nofun⟩

end Act

/-- **Frames that come to trees at leaves, or fail,** do so on trees. -/
theorem Bears.responds (hk : k.Traverses)
    (leaves : ∀ p, Bears T A (.tree (.done p)) →
      (k.run limit (.tree (.done p))).Responds T fun u => ∃ t, u = .tree t)
    (ht : Bears T A t) : (k.run limit t).Responds T fun u => ∃ t, u = .tree t := by
  refine ht.induction (motive := fun t => (k.run limit t).Responds T fun u => ∃ t, u = .tree t)
    ?_ leaves fun d _ ih => ?_
  · rw [hk.failed]
    exact Act.responds_pure ⟨_, rfl⟩
  · rw [hk.suspended]
    simp only [← Machine.limit_frame] at ih
    exact (responds_fmap ih).bind fun d' _ => Act.responds_pure ⟨_, rfl⟩

/-! ### Applying and binding -/

/-- The function returns, aborts or fails, on each value of the kind. -/
def Applicable (T : ClassTable) (A : Value → Prop) (g : Value) : Prop :=
  ∀ v, A v → ∃ r, (limit g [v]).Settles T (some r)

/-- A leaf that bears results of a kind comes to one of them, or to nothing. -/
theorem Bears.resolve (hp : Bears T A (.tree (.done p))) :
    (∃ v, A v ∧ (p.resolve limit).Yields T (some v)) ∨ (p.resolve limit).Yields T none := by
  cases hp.step with
  | done settles answers kind =>
    rcases Payload.cases settles answers with ⟨v, -, value⟩ | nothing
    · exact .inl ⟨v, kind v value, value⟩
    · exact .inr nothing

/-- To map an applicable function comes to a tree, or fails. -/
theorem Bears.responds_map (hg : Applicable T A g) (ht : Bears T A t) :
    (t.invoke limit .map [g]).Responds T fun u => ∃ t, u = .tree t := by
  refine ht.responds (Frame.traverses_map g) fun p hp => ?_
  rcases hp.resolve with ⟨v, hv, value⟩ | nothing
  · obtain ⟨r, settles⟩ := hg v hv
    obtain ⟨r', finishes, noAbort, isTree⟩ := settles.guarded_finish
    exact value.start_responds (finishes.responds noAbort isTree)
  · exact (mapping_none nothing).responds ⟨_, rfl⟩

/-- To map an applicable function ends like itself. -/
theorem Bears.endsLike_map (hg : Applicable T A g) (ht : Bears T A t) :
    EndsLike T (Coincide T) (t.invoke limit .map [g]) (t.invoke limit .map [g]) := by
  have traverses := Frame.traverses_map g
  refine ht.coincide traverses traverses (fun p hp => ?_)
    (.self (Act.settles_throw .abort) fun x _ => .refl x)
  rcases hp.resolve with ⟨v, hv, value⟩ | nothing
  · obtain ⟨r, settles⟩ := hg v hv
    obtain ⟨r', finishes, -⟩ := settles.guarded_finish
    exact .self (value.bind_settles finishes) fun u _ => .refl u
  · exact .of_yields (mapping_none nothing) (mapping_none nothing) (.refl _)

/-- To apply a leaf to a leaf computes both payloads, and maps if the first one has a function. -/
theorem Tree.ap_done_done (call : Caller) (p q : Payload) :
    (Tree.done p).ap call (.tree (.done q)) = p.resolve call >>= fun r =>
      match r with
      | some g => (Tree.done q).map call g
      | none => q.resolve call >>= fun _ => Pure.pure (.tree .failed) := by
  refine congrArg (p.resolve call >>= ·) (funext fun r => ?_)
  cases r with
  | none => rfl
  | some g =>
    refine congrArg (q.resolve call >>= ·) (funext fun v => ?_)
    cases v <;> rfl

/-- **A leaf is applied** to a tree as the function that it comes to is mapped over the tree. If it
comes to nothing, so does what is applied. -/
theorem Bears.ap_leaf {r : Option Value} {b : Act Value} (hr : (p.resolve limit).Yields T r)
    (hx : Bears T A x)
    (like : EndsLike T R (match r with
      | some g => x.invoke limit .map [g]
      | none => pure (.tree .failed)) b) :
    EndsLike T R ((Value.tree (.done p)).invoke limit .ap [x]) b := by
  cases hx.step with
  | failed =>
    -- The payload is not computed.
    cases r with
    | none => exact like
    | some g => exact like
  | suspended contents behind =>
    refine .start hr ?_
    cases r with
    | none => exact like
    | some g => exact like
  | @done q =>
    change EndsLike T R ((Tree.done p).ap limit (.tree (.done q))) b
    rw [Tree.ap_done_done]
    refine .start hr ?_
    cases r with
    | some g => exact like
    | none =>
      -- The payload of the argument is computed all the same, and what it comes to is dropped.
      rcases hx.resolve with ⟨v, -, value⟩ | nothing
      · exact .start value like
      · exact .start nothing like

/-- **To apply is to bind.** To apply a tree of functions to a tree, and to bind to it the function
that maps over the tree what it is given, end alike, with trees that coincide. They do end, with a
tree or by a fault. -/
theorem ap_coincides_bind {tf tx : Value} (hf : Bears T (Applicable T A) tf) (hx : Bears T A tx)
    (composes : ∀ g, EndsAs T (limit h [g]) (tx.invoke limit .map [g])) :
    EndsLike T (Coincide T) (tf.invoke limit .ap [tx]) (tf.invoke limit .bind [h]) ∧
      (tf.invoke limit .ap [tx]).Responds T fun u => ∃ t, u = .tree t := by
  have traverses := Frame.traverses_ap tx
  refine ⟨hf.coincide traverses (Frame.traverses_bind h) (fun p hp => ?_)
    (.self (Act.settles_throw .abort) fun x _ => .refl x), hf.responds traverses fun p hp => ?_⟩
  · rcases hp.resolve with ⟨g, hg, value⟩ | nothing
    · -- To map comes to a tree or fails, so it does not matter that it is bound on probation.
      have mapped : EndsAs T (guarded (limit h [g])) (tx.invoke limit .map [g]) :=
        endsAs_guarded (composes g) (hx.responds_map hg).faultOr (by rintro _ ⟨t, rfl⟩; rfl)
      have right := (hx.endsLike_map hg).endsAs_right mapped
      exact hx.ap_leaf value (EndsLike.symm (.start value right.symm))
    · have bound := binding_none (f := h) nothing
      exact hx.ap_leaf nothing (.of_yields (Act.yields_pure _) bound (.refl _))
  · rcases hp.resolve with ⟨g, hg, value⟩ | nothing
    · have applied := hx.ap_leaf value (hx.endsLike_map hg)
      exact applied.responds (hx.responds_map hg) fun _ _ => Coincide.exists_tree
    · have applied := hx.ap_leaf nothing (.pure (Coincide.refl (T := T) (.tree .failed)))
      exact applied.responds (Act.responds_pure ⟨_, rfl⟩) fun _ _ => Coincide.exists_tree

/-! ### Applying in a dialogue -/

open Dialogue

/-- Trees of a vocabulary whose callbacks do not fail bear results of any kind there is. -/
theorem Over.bears {E : Vocabulary T} (h : Over T E True t) : Bears T (fun _ => True) t := by
  refine ⟨Over T E True, fun t h => ?_, h⟩
  cases h.step with
  | failed => exact .failed
  | done answers =>
    obtain ⟨o, settles, answers⟩ := answers trivial
    exact .done settles answers fun _ _ => trivial
  | suspended has steady holds =>
    refine .suspended holds.atHand fun n g hg args => ?_
    obtain ⟨o, settles, -⟩ := steady.settles n g hg args
    exact ⟨o, settles, fun v hv => .inr
      (holds.behind n g hg args v (Act.settles_ok_iff.mp (hv ▸ settles)))⟩

theorem bears_pure {v : Value} (hv : A v) : Bears T A (.tree (Tree.pure v)) := by
  refine .of_step (.done (Act.settles_pure v) (.inl ⟨v, rfl⟩) fun u resolves => ?_)
  obtain rfl := resolves.of_probe.unique (Act.yields_pure v)
  exact hv

theorem bears_say {m : Value} (hx : Bears table A x) : Bears table A (say m x) := by
  refine .of_step (.suspended (fun y hy => ?_) fun _ _ hg => absurd hg not_behind_saying)
  rw [eq_of_atHand_saying hy]
  exact hx

/-- Maps over a tree what it is given. -/
def mapOver (t : Value) : Value :=
  .function (.closure ["g"] (.library "map" [.var "t", .var "g"]) [("t", t)])

theorem limit_mapOver (t g : Value) : limit (mapOver t) [g] = t.invoke limit .map [g] := by
  rw [mapOver, Machine.limit_closure]
  rfl

/-- A statement with a function behind it is applied to a question. -/
theorem ap_coincides_bind_dialogue :
    Bears table (Applicable table fun _ => True)
        (say (.str "hello") (.tree (Tree.pure (.frame .identity)))) ∧
      Bears table (fun _ => True) (ask echo) ∧
      (∀ g, EndsAs table (limit (mapOver (ask echo)) [g])
        ((ask echo).invoke limit .map [g])) ∧
      EndsLike table (Coincide table)
        ((say (.str "hello") (.tree (Tree.pure (.frame .identity)))).invoke limit .ap [ask echo])
        ((say (.str "hello") (.tree (Tree.pure (.frame .identity)))).invoke limit .bind
          [mapOver (ask echo)]) ∧
      ((say (.str "hello") (.tree (Tree.pure (.frame .identity)))).invoke limit .ap
        [ask echo]).Responds table fun u => ∃ t, u = .tree t := by
  have applicable : Applicable table (fun _ => True) (.frame .identity) := by
    intro v _
    rw [Machine.limit_frame]
    exact ⟨_, Act.settles_pure v⟩
  have functions := bears_say (m := .str "hello") (bears_pure applicable)
  have arguments : Bears table (fun _ => True) (ask echo) := over_ask_echo.bears
  have maps := fun g => Act.EndsAs.of_eq (T := table) (limit_mapOver (ask echo) g)
  exact ⟨functions, arguments, maps, ap_coincides_bind functions arguments maps⟩

end EffectTrees
