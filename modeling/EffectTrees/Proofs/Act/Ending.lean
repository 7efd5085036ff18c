import Mathlib.Data.List.Forall2
import EffectTrees.Program
import EffectTrees.Proofs.Depth.Convergence

/-!
# Endings at given classes

What a computation comes to depends on the world through its classes alone, unless it registers one.
So it is described at a given table `T` of classes, by what it does from *every* world that has
these classes, whatever has been logged, remarked or asked for there:

* `Act.Settles T a o` — `a` ends as `o`, and leaves the classes as they are;
* `Act.Yields T a v` — `a` gives the value `v`, and leaves the classes as they are;
* `Act.FaultOr T Q a` — `a` ends by a fault or with a value that has the property `Q`, if it ends,
  and leaves the classes as they are with such a value;
* `Act.Responds T Q a` — `a` does end in one of these ways;
* `Act.Lost T a` — `a` gives no value and does not abort either: if it ends at all, it is by a
  fault;
* `Act.EndsAs T a b` — `a` and `b` end alike.

A callback that settles is a function of its arguments. The lemmas take a sequence of computations
apart in the order in which they run (`Act.Yields.bind`, `Act.Yields.bind_settles`,
`Act.FaultOr.bind`, `Act.Lost.bind`).
-/

namespace EffectTrees

/-- How a computation ends, with a value or with a signal; nothing if it does not end. -/
abbrev Ending (α : Type) := Option (Except Signal α)

namespace Ending

variable {α : Type}

/-- What becomes of an outcome on probation: an abort, and the unknown argument, give nothing. -/
def onProbation : Ending Value → Ending (Option Value)
  | none => none
  | some (.error (.fault f)) => some (.error (.fault f))
  | some (.error .abort) => some (.ok none)
  | some (.ok v) => some (.ok (if v.isPoison then none else some v))

/-- The computation returns or aborts. -/
def Answers (o : Ending α) : Prop := (∃ v, o = some (.ok v)) ∨ o = some (.error .abort)

end Ending

namespace Act

variable {α β : Type} {T : ClassTable}

/-- From every world with the classes `T`, the outcome is `o` and the classes stay `T`. -/
def Settles (T : ClassTable) (a : Act α) (o : Ending α) : Prop :=
  ∀ w, w.classes = T → (a.runIn w).map Prod.fst = o ∧ ∀ x, a.runIn w = some x → x.2.classes = T

/-- From every world with the classes `T`, the value is `v` and the classes stay `T`. -/
def Yields (T : ClassTable) (a : Act α) (v : α) : Prop :=
  ∀ w, w.classes = T → ∃ w', a.runIn w = some (.ok v, w') ∧ w'.classes = T

/-- From every world with the classes `T`, the computation ends by a fault, if it ends, or with a
value that has the property and the classes `T`. -/
def FaultOr (T : ClassTable) (Q : α → Prop) (a : Act α) : Prop :=
  ∀ w, w.classes = T → ∀ r w', a.runIn w = some (r, w') →
    (∃ f, r = .error (.fault f)) ∨ ∃ v, r = .ok v ∧ Q v ∧ w'.classes = T

/-- From every world with the classes `T`, the computation fails or does not end. -/
def Lost (T : ClassTable) (a : Act α) : Prop :=
  ∀ w, w.classes = T → ∀ r w', a.runIn w = some (r, w') → ∃ f, r = .error (.fault f)

/-! ### How the three notions are related -/

theorem settles_ok_iff {a : Act α} {v : α} : a.Settles T (some (.ok v)) ↔ a.Yields T v := by
  refine ⟨fun h w hw => ?_, fun h w hw => ?_⟩
  · obtain ⟨hr, hc⟩ := h w hw
    cases hx : a.runIn w with
    | none => simp [hx] at hr
    | some x =>
      obtain ⟨r, w'⟩ := x
      obtain rfl : r = .ok v := by simpa [hx] using hr
      exact ⟨w', rfl, hc _ hx⟩
  · obtain ⟨w', hr, hc⟩ := h w hw
    exact ⟨by rw [hr]; rfl, fun x hx => by
      obtain rfl : (.ok v, w') = x := by simpa [hr] using hx
      exact hc⟩

theorem Yields.settles {a : Act α} {v : α} (h : a.Yields T v) : a.Settles T (some (.ok v)) :=
  settles_ok_iff.mpr h

/-- A run from a world with the classes `T` shows the outcome. -/
theorem Settles.of_run {a : Act α} {o : Ending α} (h : a.Settles T o) {w w' : World}
    {r : Except Signal α} (hw : w.classes = T) (hr : a.runIn w = some (r, w')) :
    o = some r ∧ w'.classes = T := by
  obtain ⟨ho, hc⟩ := h w hw
  exact ⟨by rw [← ho, hr]; rfl, hc _ hr⟩

/-- A value that one run gives is given from every world with the classes `T`. -/
theorem Settles.yields_of_run {a : Act α} {o : Ending α} (h : a.Settles T o) {w w' : World} {v : α}
    (hw : w.classes = T) (hr : a.runIn w = some (.ok v, w')) :
    a.Yields T v ∧ o = some (.ok v) ∧ w'.classes = T := by
  obtain ⟨rfl, hw'⟩ := h.of_run hw hr
  exact ⟨settles_ok_iff.mp h, rfl, hw'⟩

theorem Settles.unique {a : Act α} {o o' : Ending α} (h : a.Settles T o) (h' : a.Settles T o') :
    o = o' := by
  rw [← (h (.initial T) rfl).1, (h' (.initial T) rfl).1]

theorem Yields.unique {a : Act α} {v v' : α} (h : a.Yields T v) (h' : a.Yields T v') : v = v' := by
  simpa using h.settles.unique h'.settles

theorem Yields.of_run {a : Act α} {v : α} (h : a.Yields T v) {w w' : World}
    {r : Except Signal α} (hw : w.classes = T) (hr : a.runIn w = some (r, w')) :
    r = .ok v ∧ w'.classes = T := by
  obtain ⟨ho, hc⟩ := h.settles.of_run hw hr
  exact ⟨by simpa using ho.symm, hc⟩

/-- What gives a value is not lost. -/
theorem Yields.not_lost {a : Act α} {v : α} (h : a.Yields T v) : ¬ a.Lost T := by
  intro hl
  obtain ⟨w', hr, -⟩ := h (.initial T) rfl
  obtain ⟨f, hf⟩ := hl (.initial T) rfl _ _ hr
  simp at hf

theorem Settles.lost_of_fault {a : Act α} {f : Fault}
    (h : a.Settles T (some (.error (.fault f)))) : a.Lost T := fun w hw r w' hr => by
  obtain ⟨ho, -⟩ := h.of_run hw hr
  exact ⟨f, by simpa using ho.symm⟩

theorem Settles.lost_of_none {a : Act α} (h : a.Settles T none) : a.Lost T :=
  fun w hw r w' hr => by simpa using (h.of_run hw hr).1

theorem Yields.faultOr {a : Act α} {v : α} {Q : α → Prop} (h : a.Yields T v) (hv : Q v) :
    a.FaultOr T Q := fun w hw r w' hr => by
  obtain ⟨rfl, hw'⟩ := h.of_run hw hr
  exact .inr ⟨v, rfl, hv, hw'⟩

theorem Lost.faultOr {a : Act α} {Q : α → Prop} (h : a.Lost T) : a.FaultOr T Q :=
  fun w hw r w' hr => .inl (h w hw r w' hr)

theorem FaultOr.mono {a : Act α} {P Q : α → Prop} (h : a.FaultOr T P) (hPQ : ∀ v, P v → Q v) :
    a.FaultOr T Q := fun w hw r w' hr => by
  rcases h w hw r w' hr with hf | ⟨v, rfl, hv, hw'⟩
  · exact .inl hf
  · exact .inr ⟨v, rfl, hPQ v hv, hw'⟩

/-- If no value has the property, the computation is lost. -/
theorem FaultOr.lost {a : Act α} {Q : α → Prop} (h : a.FaultOr T Q) (none : ∀ v, ¬ Q v) :
    a.Lost T := fun w hw r w' hr => by
  rcases h w hw r w' hr with hf | ⟨v, -, hv, -⟩
  · exact hf
  · exact absurd hv (none v)

/-! ### Sequences -/

theorem settles_pure (v : α) : (pure v : Act α).Settles T (some (.ok v)) :=
  fun w hw => ⟨rfl, fun x hx => by simp at hx; simp [← hx, hw]⟩

theorem yields_pure (v : α) : (pure v : Act α).Yields T v := settles_ok_iff.mp (settles_pure v)

theorem settles_throw (s : Signal) : (throw s : Act α).Settles T (some (.error s)) :=
  fun w hw => ⟨rfl, fun x hx => by simp at hx; simp [← hx, hw]⟩

theorem settles_fail (f : Fault) : (fail f : Act α).Settles T (some (.error (.fault f))) :=
  settles_throw (.fault f)

theorem lost_fail (f : Fault) : (fail f : Act α).Lost T := (settles_fail f).lost_of_fault

theorem Yields.bind {a : Act α} {f : α → Act β} {x : α} {y : β} (ha : a.Yields T x)
    (hf : (f x).Yields T y) : (a >>= f).Yields T y := fun w hw => by
  obtain ⟨w', hr, hw'⟩ := ha w hw
  rw [runIn_bind, hr]
  exact hf w' hw'

theorem Yields.bind_settles {a : Act α} {f : α → Act β} {x : α} {o : Ending β} (ha : a.Yields T x)
    (hf : (f x).Settles T o) : (a >>= f).Settles T o := fun w hw => by
  obtain ⟨w', hr, hw'⟩ := ha w hw
  rw [runIn_bind, hr]
  exact hf w' hw'

theorem Yields.bind_lost {a : Act α} {f : α → Act β} {x : α} (ha : a.Yields T x)
    (hf : (f x).Lost T) : (a >>= f).Lost T := fun w hw r w'' hr => by
  obtain ⟨w', hx, hw'⟩ := ha w hw
  rw [runIn_bind, hx] at hr
  exact hf w' hw' r w'' hr

theorem Lost.bind {a : Act α} (ha : a.Lost T) (f : α → Act β) : (a >>= f).Lost T :=
  fun w hw r w' hr => by
    rw [runIn_bind] at hr
    cases hx : a.runIn w with
    | none => simp [hx] at hr
    | some x =>
      obtain ⟨s, w₁⟩ := x
      obtain ⟨g, rfl⟩ := ha w hw s w₁ hx
      rw [hx] at hr
      obtain ⟨rfl, rfl⟩ : (.error (.fault g)) = r ∧ w₁ = w' := by simpa using hr
      exact ⟨g, rfl⟩

theorem faultOr_pure {v : α} {Q : α → Prop} (h : Q v) : (pure v : Act α).FaultOr T Q :=
  (yields_pure v).faultOr h

theorem faultOr_fail {Q : α → Prop} (f : Fault) : (fail f : Act α).FaultOr T Q :=
  (lost_fail f).faultOr

theorem FaultOr.bind {P : α → Prop} {Q : β → Prop} {a : Act α} {f : α → Act β}
    (ha : a.FaultOr T P) (hf : ∀ x, P x → (f x).FaultOr T Q) : (a >>= f).FaultOr T Q :=
  fun w hw r w' hr => by
    rw [runIn_bind] at hr
    cases hx : a.runIn w with
    | none => simp [hx] at hr
    | some x =>
      obtain ⟨s, w₁⟩ := x
      rw [hx] at hr
      rcases ha w hw s w₁ hx with ⟨g, rfl⟩ | ⟨x, rfl, hQ, hw₁⟩
      · obtain ⟨rfl, -⟩ : (.error (.fault g)) = r ∧ w₁ = w' := by simpa using hr
        exact .inl ⟨g, rfl⟩
      · exact hf x hQ w₁ hw₁ r w' hr

/-- A run of a sequence has runs of its parts. -/
theorem exists_runs_of_bind {a : Act α} {f : α → Act β} {w w' : World} {y : β}
    (run : (a >>= f).runIn w = some (.ok y, w')) :
    ∃ x w₁, a.runIn w = some (.ok x, w₁) ∧ (f x).runIn w₁ = some (.ok y, w') := by
  rw [runIn_bind] at run
  match first : a.runIn w with
  | none => simp [first] at run
  | some (.error s, w₁) => simp [first] at run
  | some (.ok x, w₁) => exact ⟨x, w₁, rfl, by rwa [first] at run⟩

/-- As many values are given as there are computations. -/
theorem length_of_mapM {γ : Type} {f : γ → Act β} {xs : List γ} {w w' : World} {ys : List β}
    (run : (xs.mapM f).runIn w = some (.ok ys, w')) : ys.length = xs.length := by
  induction xs generalizing w w' ys with
  | nil =>
    obtain ⟨rfl, -⟩ : [] = ys ∧ w = w' := by simpa using run
    rfl
  | cons x xs ih =>
    rw [List.mapM_cons] at run
    obtain ⟨y, w₁, -, run⟩ := exists_runs_of_bind run
    obtain ⟨ys', w₂, rest, run⟩ := exists_runs_of_bind run
    obtain ⟨rfl, -⟩ : y :: ys' = ys ∧ w₂ = w' := by simpa using run
    rw [List.length_cons, List.length_cons, ih rest]

theorem Yields.mapM {γ : Type} {C : γ → β → Prop} {f : γ → Act β} {xs : List γ} {ys : List β}
    (h : List.Forall₂ C xs ys) (hf : ∀ x y, C x y → (f x).Yields T y) :
    (xs.mapM f).Yields T ys := by
  induction h with
  | nil => exact yields_pure []
  | cons hxy _ ih =>
    rw [List.mapM_cons]
    exact (hf _ _ hxy).bind (ih.bind (yields_pure _))

theorem FaultOr.mapM {γ : Type} {C : γ → β → Prop} {f : γ → Act β} {xs : List γ}
    (hf : ∀ x ∈ xs, (f x).FaultOr T (C x)) : (xs.mapM f).FaultOr T (List.Forall₂ C xs) := by
  induction xs with
  | nil => exact faultOr_pure .nil
  | cons x xs ih =>
    rw [List.mapM_cons]
    have rest := ih fun z hz => hf z (List.mem_cons_of_mem x hz)
    exact (hf x List.mem_cons_self).bind fun y hy => rest.bind fun ys hys =>
      faultOr_pure (.cons hy hys)

/-- A signal ends a sequence. -/
theorem Settles.bind_error {a : Act α} {s : Signal} (h : a.Settles T (some (.error s)))
    (f : α → Act β) : (a >>= f).Settles T (some (.error s)) := by
  intro w hw
  obtain ⟨outcome, classes⟩ := h w hw
  obtain ⟨⟨r, w'⟩, run, rfl⟩ := Option.map_eq_some_iff.mp outcome
  rw [runIn_bind, run]
  refine ⟨rfl, fun x hx => ?_⟩
  obtain rfl := Option.some.inj hx
  exact classes _ run

/-- A computation that does not end goes on to nothing. -/
theorem Settles.bind_none {a : Act α} (h : a.Settles T none) (f : α → Act β) :
    (a >>= f).Settles T none := by
  intro w hw
  have endless : a.runIn w = none := Option.map_eq_none_iff.mp (h w hw).1
  rw [runIn_bind, endless]
  exact ⟨rfl, fun x hx => by cases hx⟩

/-! ### Sequences that settle -/

/-- A sequence settles if its parts do. -/
theorem Settles.exists_bind {a : Act α} {f : α → Act β} {o : Ending α} (ha : a.Settles T o)
    (hf : ∀ x, o = some (.ok x) → ∃ o', (f x).Settles T o') : ∃ o', (a >>= f).Settles T o' := by
  match o with
  | none => exact ⟨_, ha.bind_none f⟩
  | some (.error s) => exact ⟨_, ha.bind_error f⟩
  | some (.ok x) =>
    obtain ⟨o', rest⟩ := hf x rfl
    exact ⟨o', (settles_ok_iff.mp ha).bind_settles rest⟩

theorem exists_settles_mapM {γ : Type} {f : γ → Act β} (xs : List γ)
    (hf : ∀ x ∈ xs, ∃ o, (f x).Settles T o) : ∃ o, (xs.mapM f).Settles T o := by
  induction xs with
  | nil => exact ⟨_, settles_pure []⟩
  | cons x xs ih =>
    obtain ⟨⟨o, head⟩, each⟩ := List.forall_mem_cons.mp hf
    obtain ⟨o', rest⟩ := ih each
    rw [List.mapM_cons]
    exact head.exists_bind fun y _ => rest.exists_bind fun ys _ => ⟨_, settles_pure (y :: ys)⟩

/-- What a sequence of parts that settle gives is given by the parts. -/
theorem yields_bind_iff {a : Act α} {f : α → Act β} {o : Ending α} {y : β} (ha : a.Settles T o)
    (hf : ∀ x, ∃ o', (f x).Settles T o') :
    (a >>= f).Yields T y ↔ ∃ x, a.Yields T x ∧ (f x).Yields T y := by
  constructor
  · intro h
    -- One run shows what the parts give, since they give the same in every world.
    obtain ⟨w', run, -⟩ := h (.initial T) rfl
    obtain ⟨x, w₁, first, rest⟩ := exists_runs_of_bind run
    obtain ⟨yields, -, classes⟩ := ha.yields_of_run rfl first
    obtain ⟨o', settles⟩ := hf x
    exact ⟨x, yields, (settles.yields_of_run classes rest).1⟩
  · rintro ⟨x, first, rest⟩
    exact first.bind rest

theorem yields_mapM_iff {γ : Type} {f : γ → Act β} {xs : List γ} {ys : List β}
    (hf : ∀ x ∈ xs, ∃ o, (f x).Settles T o) :
    (xs.mapM f).Yields T ys ↔ List.Forall₂ (fun x y => (f x).Yields T y) xs ys := by
  refine ⟨fun h => ?_, fun h => .mapM h fun _ _ given => given⟩
  induction xs generalizing ys with
  | nil =>
    obtain rfl := h.unique (yields_pure [])
    exact .nil
  | cons x xs ih =>
    obtain ⟨⟨o, head⟩, each⟩ := List.forall_mem_cons.mp hf
    obtain ⟨o', rest⟩ := exists_settles_mapM xs each
    have tail : ∀ y, ∃ o, (xs.mapM f >>= fun ys => pure (y :: ys) : Act (List β)).Settles T o :=
      fun y => rest.exists_bind fun ys _ => ⟨_, settles_pure (y :: ys)⟩
    rw [List.mapM_cons, yields_bind_iff head tail] at h
    obtain ⟨y, first, h⟩ := h
    rw [yields_bind_iff rest fun ys => ⟨_, settles_pure (y :: ys)⟩] at h
    obtain ⟨ys', others, h⟩ := h
    obtain rfl := h.unique (yields_pure (y :: ys'))
    exact .cons first (ih each others)

/-! ### Computations that respond -/

variable {Q : α → Prop}

/-- **The computation ends**, with a value that has the property or by a fault. -/
structure Responds (T : ClassTable) {α : Type} (Q : α → Prop) (a : Act α) : Prop where
  faultOr : a.FaultOr T Q
  ends : ∀ w, w.classes = T → ∃ x, a.runIn w = some x

theorem responds_pure {v : α} (h : Q v) : (pure v : Act α).Responds T Q :=
  ⟨faultOr_pure h, fun _ _ => ⟨_, rfl⟩⟩

theorem Yields.responds {a : Act α} {v : α} (h : a.Yields T v) (hv : Q v) : a.Responds T Q :=
  ⟨h.faultOr hv, fun w hw => by
    obtain ⟨w', run, -⟩ := h w hw
    exact ⟨_, run⟩⟩

theorem responds_fail (f : Fault) : (fail f : Act α).Responds T Q :=
  ⟨faultOr_fail f, fun _ _ => ⟨_, rfl⟩⟩

theorem Responds.bind {Q' : β → Prop} {a : Act α} {f : α → Act β} (ha : a.Responds T Q)
    (hf : ∀ x, Q x → (f x).Responds T Q') : (a >>= f).Responds T Q' := by
  refine ⟨ha.faultOr.bind fun x hx => (hf x hx).faultOr, fun w hw => ?_⟩
  obtain ⟨⟨r, w'⟩, run⟩ := ha.ends w hw
  rw [runIn_bind, run]
  match r, ha.faultOr w hw r w' run with
  | .ok x, .inr ⟨v, same, hv, hw'⟩ =>
    obtain rfl := Except.ok.inj same
    exact (hf x hv).ends w' hw'
  | .error s, _ => exact ⟨_, rfl⟩

/-- A start that gives a value. -/
theorem Yields.start_responds {Q' : β → Prop} {a : Act α} {f : α → Act β} {x : α}
    (ha : a.Yields T x) (hf : (f x).Responds T Q') : (a >>= f).Responds T Q' := by
  refine (ha.responds (Q := fun y => y = x) rfl).bind ?_
  rintro _ rfl
  exact hf

theorem Responds.mapM {γ : Type} {C : γ → β → Prop} {f : γ → Act β} {xs : List γ}
    (hf : ∀ x ∈ xs, (f x).Responds T (C x)) : (xs.mapM f).Responds T (List.Forall₂ C xs) := by
  induction xs with
  | nil => exact responds_pure .nil
  | cons x xs ih =>
    rw [List.mapM_cons]
    have rest := ih fun z hz => hf z (List.mem_cons_of_mem x hz)
    exact (hf x List.mem_cons_self).bind fun y hy => rest.bind fun ys hys =>
      responds_pure (.cons hy hys)

/-- What settles on an outcome responds, unless it aborts. -/
theorem Settles.responds {a : Act α} {r : Except Signal α} (h : a.Settles T (some r))
    (noAbort : r ≠ .error .abort) (hQ : ∀ v, r = .ok v → Q v) : a.Responds T Q := by
  refine ⟨?_, fun w hw => ?_⟩
  · match r with
    | .ok v => exact (settles_ok_iff.mp h).faultOr (hQ v rfl)
    | .error (.fault f) => exact h.lost_of_fault.faultOr
    | .error .abort => exact absurd rfl noAbort
  · obtain ⟨x, run, -⟩ := Option.map_eq_some_iff.mp (h w hw).1
    exact ⟨x, run⟩

end Act

/-! ### Probation -/

namespace Act

/-- From `w` the computation gives the known value `v`. -/
def Gives (a : Act Value) (w : World) (v : Value) (w' : World) : Prop :=
  a.runIn w = some (.ok v, w') ∧ v ≠ .poison

/-- From `w` the computation aborts or gives the unknown argument. -/
def GivesNothing (a : Act Value) (w w' : World) : Prop :=
  a.runIn w = some (.error .abort, w') ∨ a.runIn w = some (.ok .poison, w')

end Act

theorem Value.isPoison_iff {v : Value} : v.isPoison = true ↔ v = .poison := by
  cases v <;> simp [isPoison]

theorem Value.isPoison_of_ne {v : Value} (known : v ≠ .poison) : v.isPoison = false := by
  simpa [← Value.isPoison_iff] using known

theorem Ending.of_onProbation {o : Ending Value} {v : Value}
    (h : o.onProbation = some (.ok (some v))) : o = some (.ok v) ∧ v ≠ .poison := by
  match o with
  | none => simp [onProbation] at h
  | some (.error .abort) => simp [onProbation] at h
  | some (.error (.fault f)) => simp [onProbation] at h
  | some (.ok u) =>
    obtain ⟨known, rfl⟩ : u.isPoison = false ∧ u = v := by simpa [onProbation] using h
    exact ⟨rfl, fun hu => by simp [hu, Value.isPoison] at known⟩

theorem runIn_probe (a : Act Value) (w : World) :
    (probe a).runIn w =
      match a.runIn w with
      | none => none
      | some (r, w') => (Ending.onProbation (some r)).map fun r' => (r', w') := by
  unfold probe
  rw [Act.runIn_tryCatch, Act.runIn_bind]
  match a.runIn w with
  | none => rfl
  | some (.error .abort, w') => rfl
  | some (.error (.fault f), w') => rfl
  | some (.ok v, w') => cases hv : v.isPoison <;> simp [hv, Ending.onProbation]

theorem Act.Gives.probe {a : Act Value} {w w' : World} {v : Value} (h : a.Gives w v w') :
    (probe a).runIn w = some (.ok (some v), w') := by
  simp [runIn_probe, h.1, Ending.onProbation, Value.isPoison_of_ne h.2]

theorem Act.GivesNothing.probe {a : Act Value} {w w' : World} (h : a.GivesNothing w w') :
    (probe a).runIn w = some (.ok none, w') := by
  rcases h with h | h <;> simp [runIn_probe, h, Ending.onProbation, Value.isPoison]

theorem runIn_probe_fault {a : Act Value} {w w' : World} {f : Fault}
    (h : a.runIn w = some (.error (.fault f), w')) :
    (probe a).runIn w = some (.error (.fault f), w') := by
  simp [runIn_probe, h, Ending.onProbation]

/-- How a computation on probation may end, and what it did then. -/
theorem probe_cases {a : Act Value} {w w' : World} {r : Except Signal (Option Value)}
    (h : (probe a).runIn w = some (r, w')) :
    (∃ v, r = .ok (some v) ∧ a.Gives w v w') ∨ (r = .ok none ∧ a.GivesNothing w w') ∨
      ∃ f, r = .error (.fault f) ∧ a.runIn w = some (.error (.fault f), w') := by
  rw [runIn_probe] at h
  match hx : a.runIn w with
  | none => simp [hx] at h
  | some (.error .abort, w₁) =>
    obtain ⟨rfl, rfl⟩ : .ok none = r ∧ w₁ = w' := by simpa [hx, Ending.onProbation] using h
    exact .inr (.inl ⟨rfl, .inl hx⟩)
  | some (.error (.fault f), w₁) =>
    obtain ⟨rfl, rfl⟩ : .error (.fault f) = r ∧ w₁ = w' := by
      simpa [hx, Ending.onProbation] using h
    exact .inr (.inr ⟨f, rfl, rfl⟩)
  | some (.ok v, w₁) =>
    obtain ⟨rfl, rfl⟩ : .ok (if v.isPoison then none else some v) = r ∧ w₁ = w' := by
      simpa [hx, Ending.onProbation] using h
    by_cases hv : v = .poison
    · exact .inr (.inl ⟨by simp [hv, Value.isPoison], .inr (hv ▸ hx)⟩)
    · exact .inl ⟨v, by simp [Value.isPoison_of_ne hv], hx, hv⟩

namespace Act

variable {T : ClassTable}

theorem Settles.probe {a : Act Value} {o : Ending Value} (h : a.Settles T o) :
    (probe a).Settles T o.onProbation := fun w hw => by
  rw [runIn_probe]
  cases hr : a.runIn w with
  | none =>
    have ho : o = none := by rw [← (h w hw).1, hr]; rfl
    simp [ho, Ending.onProbation]
  | some x =>
    obtain ⟨r, w'⟩ := x
    obtain ⟨rfl, hw'⟩ := h.of_run hw hr
    refine ⟨?_, fun x hx => ?_⟩
    · change ((Ending.onProbation (some r)).map fun r' => (r', w')).map Prod.fst = _
      cases Ending.onProbation (some r) <;> rfl
    · obtain ⟨r', -, rfl⟩ := Option.map_eq_some_iff.mp hx
      exact hw'

theorem Yields.probe {a : Act Value} {v : Value} (h : a.Yields T v) (known : v.isPoison = false) :
    (probe a).Yields T (some v) := by
  have := h.settles.probe
  simpa only [Ending.onProbation, known, Bool.false_eq_true, if_false, settles_ok_iff] using this

theorem Yields.of_probe {a : Act Value} {v : Value} (h : (EffectTrees.probe a).Yields T (some v)) :
    a.Yields T v := fun w hw => by
  obtain ⟨w', hr, hw'⟩ := h w hw
  rcases probe_cases hr with ⟨v', hv, gives⟩ | ⟨hv, -⟩ | ⟨f, hf, -⟩
  · obtain rfl : v = v' := by simpa using hv
    exact ⟨w', gives.1, hw'⟩
  · simp at hv
  · simp at hf

theorem Lost.probe {a : Act Value} (h : a.Lost T) : (EffectTrees.probe a).Lost T :=
  fun w hw r w' hr => by
    rw [runIn_probe] at hr
    cases hx : a.runIn w with
    | none => simp [hx] at hr
    | some x =>
      obtain ⟨s, w₁⟩ := x
      obtain ⟨f, rfl⟩ := h w hw s w₁ hx
      obtain ⟨rfl, rfl⟩ : (.error (.fault f)) = r ∧ w₁ = w' := by
        simpa [hx, Ending.onProbation] using hr
      exact ⟨f, rfl⟩

theorem FaultOr.probe {a : Act Value} {Q : Value → Prop} (h : a.FaultOr T Q)
    (known : ∀ v, Q v → v.isPoison = false) :
    (EffectTrees.probe a).FaultOr T fun r => ∃ v, r = some v ∧ Q v := fun w hw r w' hr => by
  rcases probe_cases hr with ⟨v, rfl, hv, -⟩ | ⟨rfl, aborts | poison⟩ | ⟨f, rfl, -⟩
  · rcases h w hw _ _ hv with ⟨f, hf⟩ | ⟨v', hv', hQ, hw'⟩
    · simp at hf
    · obtain rfl : v = v' := by simpa using hv'
      exact .inr ⟨some v, rfl, ⟨v, rfl, hQ⟩, hw'⟩
  · rcases h w hw _ _ aborts with ⟨f, hf⟩ | ⟨v, hv, -⟩
    · simp at hf
    · simp at hv
  · rcases h w hw _ _ poison with ⟨f, hf⟩ | ⟨v, hv, hQ, -⟩
    · simp at hf
    · obtain rfl : Value.poison = v := by simpa using hv
      simpa [Value.isPoison] using known _ hQ
  · exact .inl ⟨f, rfl⟩

/-- On probation, nothing comes of a computation that aborts or gives the unknown argument. -/
theorem yields_probe_none_iff {a : Act Value} :
    (EffectTrees.probe a).Yields T none ↔
      ∀ w, w.classes = T → ∃ w', a.GivesNothing w w' ∧ w'.classes = T := by
  refine ⟨fun h w hw => ?_, fun h w hw => ?_⟩
  · obtain ⟨w', hr, hw'⟩ := h w hw
    rcases probe_cases hr with ⟨v, hv, -⟩ | ⟨-, nothing⟩ | ⟨f, hf, -⟩
    · simp at hv
    · exact ⟨w', nothing, hw'⟩
    · simp at hf
  · obtain ⟨w', nothing, hw'⟩ := h w hw
    exact ⟨w', nothing.probe, hw'⟩

/-- Nothing comes of a sequence if nothing comes of its start, and of what follows on the unknown
argument. -/
theorem yields_probe_bind_none {a : Act Value} {f : Value → Act Value}
    (ha : (EffectTrees.probe a).Yields T none)
    (hf : (EffectTrees.probe (f .poison)).Yields T none) :
    (EffectTrees.probe (a >>= f)).Yields T none := by
  rw [yields_probe_none_iff] at ha hf ⊢
  intro w hw
  -- An abort ends the sequence, and the unknown argument is passed on to `f`.
  obtain ⟨w', aborts | poison, hw'⟩ := ha w hw
  · refine ⟨w', .inl ?_, hw'⟩
    rw [runIn_bind, aborts]
  · obtain ⟨w'', nothing, hw''⟩ := hf w' hw'
    refine ⟨w'', ?_, hw''⟩
    unfold GivesNothing at nothing ⊢
    rw [runIn_bind, poison]
    exact nothing

/-- Nothing comes of a sequence whose start aborts. -/
theorem Settles.probe_bind_abort {a : Act Value} (h : a.Settles T (some (.error .abort)))
    (f : Value → Act Value) : (EffectTrees.probe (a >>= f)).Yields T none := by
  rw [yields_probe_none_iff]
  intro w hw
  obtain ⟨outcome, classes⟩ := h w hw
  obtain ⟨⟨r, w'⟩, hr, rfl⟩ := Option.map_eq_some_iff.mp outcome
  refine ⟨w', .inl ?_, classes _ hr⟩
  rw [runIn_bind, hr]

/-- A start that gives a value does not matter on probation. -/
theorem Yields.probe_bind {α : Type} {a : Act α} {f : α → Act Value} {x : α} {r : Option Value}
    (ha : a.Yields T x) (hf : (EffectTrees.probe (f x)).Yields T r) :
    (EffectTrees.probe (a >>= f)).Yields T r := fun w hw => by
  obtain ⟨w', hx, hw'⟩ := ha w hw
  have hr := hf w' hw'
  rw [runIn_probe] at hr ⊢
  rw [runIn_bind, hx]
  exact hr

theorem yields_probe_poison : (EffectTrees.probe (pure .poison)).Yields T none := by
  rw [probe_poison]
  exact yields_pure none

theorem yields_probe_abort : (EffectTrees.probe abort).Yields T none := by
  rw [probe_abort]
  exact yields_pure none

/-- A computation that settles gives a value that is known, or nothing, or does not answer. -/
theorem Settles.cases {a : Act Value} {o : Ending Value} (h : a.Settles T o) :
    (∃ v, o = some (.ok v) ∧ v.isPoison = false ∧ a.Yields T v) ∨
      (EffectTrees.probe a).Yields T none ∨ (¬ o.Answers ∧ a.Lost T) := by
  match o with
  | none => exact .inr (.inr ⟨by simp [Ending.Answers], h.lost_of_none⟩)
  | some (.error .abort) => exact .inr (.inl (settles_ok_iff.mp h.probe))
  | some (.error (.fault f)) => exact .inr (.inr ⟨by simp [Ending.Answers], h.lost_of_fault⟩)
  | some (.ok v) =>
    cases hv : v.isPoison with
    | true =>
      obtain rfl := Value.isPoison_iff.mp hv
      exact .inr (.inl (settles_ok_iff.mp h.probe))
    | false => exact .inl ⟨v, rfl, hv, settles_ok_iff.mp h⟩

/-! ### Computations with calls up to a depth -/

theorem FaultOr.of_limit {α : Type} {as : Nat → Act α} {a : Act α} {Q : α → Prop}
    (h : a.FaultOr T Q) (ha : Tends as a) (n : Nat) : (as n).FaultOr T Q :=
  fun w hw r w' hr => h w hw r w' (ha.runIn_limit hr)

theorem FaultOr.limit {α : Type} {as : Nat → Act α} {a : Act α} {Q : α → Prop}
    (h : ∀ n, (as n).FaultOr T Q) (ha : Tends as a) : a.FaultOr T Q := fun w hw r w' hr => by
  obtain ⟨n, hn⟩ := ha.exists_runIn hr
  exact h n w hw r w' hn

/-! ### Computations that end alike -/

/-- From every world with the classes `T` the two computations have the same outcome and leave the
same classes behind. -/
def EndsAs (T : ClassTable) (a b : Act α) : Prop :=
  ∀ w, w.classes = T → (a.runIn w).map (fun x => (x.1, x.2.classes)) =
    (b.runIn w).map (fun x => (x.1, x.2.classes))

namespace EndsAs

variable {α : Type} {a b : Act α}

theorem of_eq (h : a = b) : EndsAs T a b := fun _ _ => by rw [h]

theorem of_yields {v : α} (ha : a.Yields T v) (hb : b.Yields T v) : EndsAs T a b :=
  fun w hw => by
    obtain ⟨w₁, hr₁, hw₁⟩ := ha w hw
    obtain ⟨w₂, hr₂, hw₂⟩ := hb w hw
    rw [hr₁, hr₂]
    simp [hw₁, hw₂]

theorem symm (h : EndsAs T a b) : EndsAs T b a := fun w hw => (h w hw).symm

/-- Each run of the one computation is matched by a run of the other. -/
theorem exists_run (h : EndsAs T a b) {w w' : World} {r : Except Signal α} (hw : w.classes = T)
    (hr : a.runIn w = some (r, w')) :
    ∃ w'', b.runIn w = some (r, w'') ∧ w''.classes = w'.classes := by
  have hb := h w hw
  rw [hr] at hb
  cases hx : b.runIn w with
  | none => simp [hx] at hb
  | some x =>
    obtain ⟨r', w''⟩ := x
    obtain ⟨rfl, hc⟩ : r = r' ∧ w'.classes = w''.classes := by simpa [hx] using hb
    exact ⟨w'', rfl, hc.symm⟩

theorem yields {v : α} (h : EndsAs T a b) (hb : b.Yields T v) : a.Yields T v := fun w hw => by
  obtain ⟨w', hr, hw'⟩ := hb w hw
  obtain ⟨w'', ha, hc⟩ := h.symm.exists_run hw hr
  exact ⟨w'', ha, hc.trans hw'⟩

theorem faultOr {Q : α → Prop} (h : EndsAs T a b) (hb : b.FaultOr T Q) : a.FaultOr T Q :=
  fun w hw r w' hr => by
    obtain ⟨w'', hr', hc⟩ := h.exists_run hw hr
    rcases hb w hw r w'' hr' with hf | ⟨v, rfl, hv, hw''⟩
    · exact .inl hf
    · exact .inr ⟨v, rfl, hv, hc.symm.trans hw''⟩

theorem lost (h : EndsAs T a b) (hb : b.Lost T) : a.Lost T := fun w hw r w' hr => by
  obtain ⟨w'', hr', -⟩ := h.exists_run hw hr
  exact hb w hw r w'' hr'

theorem yields_probe_none {a b : Act Value} (h : EndsAs T a b)
    (hb : (EffectTrees.probe b).Yields T none) : (EffectTrees.probe a).Yields T none := by
  rw [yields_probe_none_iff] at hb ⊢
  intro w hw
  obtain ⟨w', nothing, hw'⟩ := hb w hw
  rcases nothing with aborts | poison
  · obtain ⟨w'', ha, hc⟩ := h.symm.exists_run hw aborts
    exact ⟨w'', .inl ha, hc.trans hw'⟩
  · obtain ⟨w'', ha, hc⟩ := h.symm.exists_run hw poison
    exact ⟨w'', .inr ha, hc.trans hw'⟩

end EndsAs

end Act

end EffectTrees
