import EffectTrees.Proofs.Depth.Limit
import EffectTrees.Proofs.Descriptor.Slotted
import EffectTrees.Proofs.Exchange.Value

/-!
# Computations side by side

Two computations are *matched* if the second one can follow the first one: from worlds that are
alike, to each run of the first one there is a run of the second one with a related outcome, and the
worlds that they leave behind are alike again (`Comparison.Matched`).

Worlds are alike if they have the classes that the comparison is made for. If what is written counts,
the same remarks have been made in both, and what has been logged differs in functions that are
exchanged only.

The lemmas take computations apart, two at a time, in the order in which they run.
-/

namespace EffectTrees

open Machine (limit call)

/-- What two computations are compared for: the functions that are exchanged, the classes that there
are, and whether what is written counts. -/
structure Comparison extends Exchange where
  classes : ClassTable
  observed : Prop

namespace Comparison

/-- The worlds are the same to a program. -/
structure Alike (K : Comparison) (w w' : World) : Prop where
  left : w.classes = K.classes
  right : w'.classes = K.classes
  log : K.observed → List.Forall₂ K.Rel w.log w'.log
  remarks : K.observed → w.remarks = w'.remarks

/-- **The second computation follows the first one.** -/
def Matched (K : Comparison) {α β : Type} (Q : α → β → Prop) (a : Act α) (b : Act β) : Prop :=
  ∀ w w', K.Alike w w' → ∀ r w₁, a.runIn w = some (r, w₁) →
    ∃ r' w₁', b.runIn w' = some (r', w₁') ∧ K.Alike w₁ w₁' ∧ Ends Q r r'

/-- To call a function that differs in functions only, with arguments that do, comes to the same. -/
def Callers (K : Comparison) (c c' : Caller) : Prop :=
  ∀ f f' args args', K.Rel f f' → List.Forall₂ K.Rel args args' →
    K.Matched K.Rel (c f args) (c' f' args')

variable {K : Comparison} {α β γ δ : Type} {Q Q' : α → β → Prop} {P : γ → δ → Prop}
  {a a' : Act α} {b b' : Act β} {v v' w w' : Value}

namespace Matched

/-! ### The parts of computations -/

protected theorem pure {x : α} {y : β} (h : Q x y) : K.Matched Q (pure x) (pure y) := by
  intro w w' alike r w₁ hr
  obtain ⟨rfl, rfl⟩ : .ok x = r ∧ w = w₁ := by simpa using hr
  exact ⟨_, _, rfl, alike, .ok h⟩

protected theorem throw (s : Signal) : K.Matched Q (throw s) (throw s) := by
  intro w w' alike r w₁ hr
  obtain ⟨rfl, rfl⟩ : .error s = r ∧ w = w₁ := by simpa using hr
  exact ⟨_, _, rfl, alike, .error s⟩

protected theorem fail (f : Fault) : K.Matched Q (Act.fail f) (Act.fail f) := .throw (.fault f)

protected theorem abort : K.Matched Q Act.abort Act.abort := .throw .abort

/-- What does not end within the depth that it is granted is followed by anything. -/
protected theorem tooDeep : K.Matched Q Act.tooDeep b := by
  intro w w' _ r w₁ hr
  simp at hr

theorem imp (h : ∀ x y, Q x y → Q' x y) (hab : K.Matched Q a b) : K.Matched Q' a b := by
  intro w w' alike r w₁ hr
  obtain ⟨r', w₁', hr', alike', ends⟩ := hab w w' alike r w₁ hr
  exact ⟨r', w₁', hr', alike', ends.imp h⟩

protected theorem bind {f : α → Act γ} {g : β → Act δ} (hab : K.Matched Q a b)
    (hfg : ∀ x y, Q x y → K.Matched P (f x) (g y)) : K.Matched P (a >>= f) (b >>= g) := by
  intro w w' alike r w₂ hr
  rw [Act.runIn_bind] at hr
  match ha : a.runIn w with
  | none => simp [ha] at hr
  | some (.error s, w₁) =>
    obtain ⟨rfl, rfl⟩ : .error s = r ∧ w₁ = w₂ := by simpa [ha] using hr
    obtain ⟨r', w₁', hb, alike', ends⟩ := hab w w' alike _ _ ha
    cases ends
    exact ⟨_, _, by rw [Act.runIn_bind, hb], alike', .error s⟩
  | some (.ok x, w₁) =>
    obtain ⟨r', w₁', hb, alike', ends⟩ := hab w w' alike _ _ ha
    cases ends with
    | ok values =>
      rw [ha] at hr
      obtain ⟨r₂, w₂', hg, alike₂, ends⟩ := hfg _ _ values _ _ alike' _ _ hr
      exact ⟨r₂, w₂', by rw [Act.runIn_bind, hb]; exact hg, alike₂, ends⟩

protected theorem tryCatch {f : Signal → Act α} {g : Signal → Act β} (hab : K.Matched Q a b)
    (hfg : ∀ s, K.Matched Q (f s) (g s)) : K.Matched Q (tryCatch a f) (tryCatch b g) := by
  intro w w' alike r w₂ hr
  rw [Act.runIn_tryCatch] at hr
  match ha : a.runIn w with
  | none => simp [ha] at hr
  | some (.ok x, w₁) =>
    obtain ⟨rfl, rfl⟩ : .ok x = r ∧ w₁ = w₂ := by simpa [ha] using hr
    obtain ⟨r', w₁', hb, alike', ends⟩ := hab w w' alike _ _ ha
    cases ends with
    | ok values => exact ⟨_, _, by rw [Act.runIn_tryCatch, hb], alike', .ok values⟩
  | some (.error s, w₁) =>
    obtain ⟨r', w₁', hb, alike', ends⟩ := hab w w' alike _ _ ha
    cases ends
    rw [ha] at hr
    obtain ⟨r₂, w₂', hg, alike₂, ends⟩ := hfg s _ _ alike' _ _ hr
    exact ⟨r₂, w₂', by rw [Act.runIn_tryCatch, hb]; exact hg, alike₂, ends⟩

protected theorem mapM {f : α → Act γ} {g : β → Act δ} {xs : List α} {ys : List β}
    (h : List.Forall₂ Q xs ys) (hfg : ∀ x y, Q x y → K.Matched P (f x) (g y)) :
    K.Matched (List.Forall₂ P) (xs.mapM f) (ys.mapM g) := by
  induction h with
  | nil => exact .pure .nil
  | cons head _ ih =>
    rw [List.mapM_cons, List.mapM_cons]
    exact (hfg _ _ head).bind fun _ _ first => ih.bind fun _ _ rest => .pure (.cons first rest)

/-- The values on the left are ones that the computation on the left gives. -/
theorem and_left {R : α → Prop} (hab : K.Matched Q a b)
    (given : ∀ w w' x, w.classes = K.classes → a.runIn w = some (.ok x, w') → R x) :
    K.Matched (fun x y => R x ∧ Q x y) a b := by
  intro w w' alike r w₁ hr
  obtain ⟨r', w₁', hr', alike', ends⟩ := hab w w' alike r w₁ hr
  refine ⟨r', w₁', hr', alike', ?_⟩
  cases ends with
  | ok values => exact .ok ⟨given _ _ _ alike.left hr, values⟩
  | error s => exact .error s

/-- The values on the right are ones that the computation on the right gives. -/
theorem and_right {R : β → Prop} (hab : K.Matched Q a b)
    (given : ∀ w w' y, w.classes = K.classes → b.runIn w = some (.ok y, w') → R y) :
    K.Matched (fun x y => Q x y ∧ R y) a b := by
  intro w w' alike r w₁ hr
  obtain ⟨r', w₁', hr', alike', ends⟩ := hab w w' alike r w₁ hr
  refine ⟨r', w₁', hr', alike', ?_⟩
  cases ends with
  | ok values => exact .ok ⟨values, given _ _ _ alike.right hr'⟩
  | error s => exact .error s

/-- What ends as a computation that is followed is followed too. -/
theorem of_runs (hab : K.Matched Q a b)
    (runs : ∀ w x, w.classes = K.classes → a'.runIn w = some x → a.runIn w = some x) :
    K.Matched Q a' b :=
  fun w w' alike r w₁ hr => hab w w' alike r w₁ (runs w _ alike.left hr)

theorem of_tends {as : Nat → Act α} (h : ∀ n, K.Matched Q (as n) b) (ha : Act.Tends as a) :
    K.Matched Q a b := by
  intro w w' alike r w₁ hr
  obtain ⟨n, hn⟩ := ha.exists_runIn hr
  exact h n w w' alike r w₁ hn

/-- If each of two computations follows the other one, they end alike or not at all. -/
theorem both {K' : Comparison} {Q' : β → α → Prop} (there : K.Matched Q a b)
    (back : K'.Matched Q' b a) {w w' : World} (alike : K.Alike w w') (alike' : K'.Alike w' w) :
    Option.Rel (fun x y => Ends Q x.1 y.1 ∧ K.Alike x.2 y.2) (a.runIn w) (b.runIn w') := by
  cases left : a.runIn w with
  | some x =>
    obtain ⟨r', w₁', run, after, ends⟩ := there w w' alike x.1 x.2 left
    rw [run]
    exact .some ⟨ends, after⟩
  | none =>
    cases right : b.runIn w' with
    | none => exact .none
    | some y =>
      obtain ⟨_, _, run, _⟩ := back w' w alike' y.1 y.2 right
      simp [left] at run

protected theorem probe {a b : Act Value} {R : Value → Value → Prop} (hab : K.Matched R a b)
    (hR : ∀ x y, R x y → x.isPoison = y.isPoison) :
    K.Matched (Option.Rel R) (probe a) (probe b) := by
  refine .tryCatch (hab.bind fun x y related => ?_) fun s => ?_
  · rw [← hR x y related]
    split
    · exact .abort
    · exact .pure (.some related)
  · cases s with
    | abort => exact .pure .none
    | fault f => exact .fail f

/-! ### Classes, faults, and what is written -/

protected theorem classes {f : ClassTable → Act α} {g : ClassTable → Act β}
    (h : K.Matched Q (f K.classes) (g K.classes)) :
    K.Matched Q (Act.classes >>= f) (Act.classes >>= g) := by
  intro w w' alike r w₁ hr
  rw [Act.runIn_bind, Act.runIn_classes, alike.left] at hr
  obtain ⟨r', w₁', hr', ends⟩ := h w w' alike r w₁ hr
  exact ⟨r', w₁', by rw [Act.runIn_bind, Act.runIn_classes, alike.right]; exact hr', ends⟩

protected theorem ofFault {r : Except Fault α} {r' : Except Fault β} (h : Ends Q r r') :
    K.Matched Q (Act.ofFault r) (Act.ofFault r') := by
  cases h with
  | ok values => exact .pure values
  | error f => exact .fail f

protected theorem ofSignal {r : Except Signal α} {r' : Except Signal β} (h : Ends Q r r') :
    K.Matched Q (Act.ofSignal r) (Act.ofSignal r') := by
  cases h with
  | ok values => exact .pure values
  | error s => exact .throw s

protected theorem remark (r : Remark) : K.Matched Eq (Act.remark r) (Act.remark r) := by
  intro w w' alike x w₁ hr
  rw [Act.runIn_remark] at hr
  obtain ⟨rfl, rfl⟩ := by simpa using hr
  exact ⟨_, _, Act.runIn_remark r w', ⟨alike.left, alike.right, alike.log,
    fun observed => congrArg (r :: ·) (alike.remarks observed)⟩, .ok rfl⟩

theorem runIn_modify (f : World → World) (w : World) :
    (modify f : Act Unit).runIn w = some (.ok (), f w) := rfl

protected theorem log (h : K.Rel v v') : K.Matched Eq (Act.log v) (Act.log v') := by
  refine .classes ((Matched.ofFault h.display_ends).bind fun x y shown => ?_)
  intro w w' alike r w₁ hr
  rw [runIn_modify] at hr
  obtain ⟨rfl, rfl⟩ := by simpa using hr
  exact ⟨_, _, runIn_modify _ w', ⟨alike.left, alike.right,
    fun observed => .cons shown (alike.log observed), alike.remarks⟩, .ok rfl⟩

protected theorem refuse (requirement : Requirement) (h : K.Rel v v') :
    K.Matched Q (Act.refuse requirement v) (Act.refuse requirement v') := by
  refine .classes ((Matched.ofFault (Q := Eq) ?_).bind fun x y same => same ▸ .fail _)
  rw [h.write_eq]
  exact Ends.refl _

protected theorem equal (h : K.Rel v v') (h' : K.Rel w w') :
    K.Matched Eq (Act.equal v w) (Act.equal v' w') := by
  refine .classes (.ofSignal (Q := Eq) ?_)
  rw [h.equal?_eq _ _ h']
  exact Ends.refl _

protected theorem slotOf (c : ClassRef) :
    K.Matched (fun s s' => s = s' ∧ K.classes.slotOf c.id = .ok s) (Act.slotOf c) (Act.slotOf c) := by
  intro w w' alike r w₁ hr
  rw [runIn_slotOf, alike.left] at hr
  cases hs : K.classes.slotOf c.id with
  | error f =>
    rw [hs] at hr
    obtain ⟨rfl, rfl⟩ := by simpa using hr
    exact ⟨_, _, by rw [runIn_slotOf, alike.right, hs], alike, .error _⟩
  | ok s =>
    rw [hs] at hr
    obtain ⟨rfl, rfl⟩ := by simpa using hr
    exact ⟨_, { w' with asked := w'.asked.add c.id }, by rw [runIn_slotOf, alike.right, hs],
      ⟨rfl, alike.right, alike.log, alike.remarks⟩, .ok ⟨rfl, rfl⟩⟩

end Matched

end Comparison

end EffectTrees
