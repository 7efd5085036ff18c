import EffectTrees.Act

/-!
# Runs and their convergence

A computation is a function of worlds; `Act.runIn` applies it. The meaning of calls is granted up to
a depth, so what an operation does is known through a sequence of computations, one for each depth.
At a given world such a sequence is undecided at first and then has one and the same outcome for
good:

* `Act.Tends as a` — at each world every `as n` is undecided or runs like `a`, and from some `n` on
  it does run like `a`.
* `Caller.Tends cs c` — the same for the meaning of calls.

The closure lemmas (`Act.Tends.bind`, `Act.Tends.tryCatch`, `Act.Tends.mapM`) say that convergence
is inherited by computations from their parts. With the constant tail of two callers it is also
monotonicity (`Caller.Tends.ofBelow`), so one pass over the operations settles both.
-/

namespace EffectTrees

namespace Act

variable {α β : Type}

/-- The outcome of a computation in a world, and the world that it leaves behind; nothing if it
does not end within the depth that it was granted. -/
def runIn (a : Act α) (w : World) : Option (Except Signal α × World) := StateT.run (ExceptT.run a) w

@[simp] theorem runIn_pure (x : α) (w : World) : (pure x : Act α).runIn w = some (.ok x, w) := rfl

@[simp] theorem runIn_throw (s : Signal) (w : World) :
    (throw s : Act α).runIn w = some (.error s, w) := rfl

@[simp] theorem runIn_abort (w : World) : (abort : Act α).runIn w = some (.error .abort, w) := rfl

@[simp] theorem runIn_fail (f : Fault) (w : World) :
    (fail f : Act α).runIn w = some (.error (.fault f), w) := rfl

@[simp] theorem runIn_tooDeep (w : World) : (tooDeep : Act α).runIn w = none := rfl

@[simp] theorem runIn_classes (w : World) : classes.runIn w = some (.ok w.classes, w) := rfl

@[simp] theorem runIn_remark (r : Remark) (w : World) :
    (remark r).runIn w = some (.ok (), { w with remarks := r :: w.remarks }) := rfl

theorem runIn_bind (a : Act α) (f : α → Act β) (w : World) :
    (a >>= f).runIn w =
      match a.runIn w with
      | none => none
      | some (.error s, w') => some (.error s, w')
      | some (.ok x, w') => (f x).runIn w' := by
  change (StateT.run (ExceptT.run a) w).bind _ = _
  unfold runIn
  cases StateT.run (ExceptT.run a) w with
  | none => rfl
  | some p =>
    obtain ⟨r, w'⟩ := p
    cases r <;> rfl

theorem runIn_tryCatch (a : Act α) (f : Signal → Act α) (w : World) :
    (tryCatch a f).runIn w =
      match a.runIn w with
      | none => none
      | some (.error s, w') => (f s).runIn w'
      | some (.ok x, w') => some (.ok x, w') := by
  change (StateT.run (ExceptT.run a) w).bind _ = _
  unfold runIn
  cases StateT.run (ExceptT.run a) w with
  | none => rfl
  | some p =>
    obtain ⟨r, w'⟩ := p
    cases r <;> rfl

/-- Computations that run alike in every world are the same. -/
theorem ext_runIn {a b : Act α} (h : ∀ w, a.runIn w = b.runIn w) : a = b := funext h

/-! ### Convergence -/

/-- At each world, every member of the sequence is undecided or runs like `a`, and from some member
on all run like `a`. -/
def Tends (as : Nat → Act α) (a : Act α) : Prop :=
  ∀ w, (∀ n, (as n).runIn w = none ∨ (as n).runIn w = a.runIn w) ∧
    ∃ N, ∀ n, N ≤ n → (as n).runIn w = a.runIn w

theorem tends_const (a : Act α) : Tends (fun _ => a) a :=
  fun _ => ⟨fun _ => .inr rfl, 0, fun _ _ => rfl⟩

/-- What holds of a sequence holds of each of its tails. -/
theorem Tends.tail {as : Nat → Act α} {a : Act α} (h : Tends as a) :
    Tends (fun n => as (n + 1)) a := fun w => by
  obtain ⟨below, N, reached⟩ := h w
  exact ⟨fun n => below (n + 1), N, fun n hn => reached (n + 1) (by omega)⟩

/-- A sequence tends to one computation at most. -/
theorem Tends.unique {as : Nat → Act α} {a b : Act α} (ha : Tends as a) (hb : Tends as b) :
    a = b := by
  refine ext_runIn fun w => ?_
  obtain ⟨-, N, hN⟩ := ha w
  obtain ⟨-, M, hM⟩ := hb w
  rw [← hN (max N M) (by omega), hM (max N M) (by omega)]

/-- What a member of the sequence comes to, the limit comes to. -/
theorem Tends.runIn_limit {as : Nat → Act α} {a : Act α} (h : Tends as a) {n : Nat} {w : World}
    {x : Except Signal α × World} (hx : (as n).runIn w = some x) : a.runIn w = some x := by
  rcases (h w).1 n with hn | hn
  · simp [hx] at hn
  · rw [← hn, hx]

/-- What the limit comes to, some member of the sequence comes to. -/
theorem Tends.exists_runIn {as : Nat → Act α} {a : Act α} (h : Tends as a) {w : World}
    {x : Except Signal α × World} (hx : a.runIn w = some x) : ∃ n, (as n).runIn w = some x := by
  obtain ⟨-, N, hN⟩ := h w
  exact ⟨N, by rw [hN N (Nat.le_refl N), hx]⟩

theorem Tends.bind {as : Nat → Act α} {a : Act α} {fs : Nat → α → Act β} {f : α → Act β}
    (ha : Tends as a) (hf : ∀ x, Tends (fun n => fs n x) (f x)) :
    Tends (fun n => as n >>= fs n) (a >>= f) := fun w => by
  obtain ⟨below, N, reached⟩ := ha w
  simp only [runIn_bind]
  -- Undecided members stay undecided. Once `as n` runs like `a`, the second part decides.
  refine ⟨fun n => ?_, ?_⟩
  · rcases below n with h | h <;> rw [h]
    · exact .inl rfl
    · match a.runIn w with
      | none => exact .inl rfl
      | some (.error s, w') => exact .inr rfl
      | some (.ok x, w') => exact (hf x w').1 n
  · match hr : a.runIn w with
    | none => exact ⟨N, fun n hn => by rw [reached n hn, hr]⟩
    | some (.error s, w') => exact ⟨N, fun n hn => by rw [reached n hn, hr]⟩
    | some (.ok x, w') =>
      obtain ⟨-, M, hM⟩ := hf x w'
      -- Both parts have to be decided, so the bound is the greater of the two.
      exact ⟨max N M, fun n hn => by rw [reached n (by omega), hr]; exact hM n (by omega)⟩

theorem Tends.tryCatch {as : Nat → Act α} {a : Act α} {fs : Nat → Signal → Act α}
    {f : Signal → Act α} (ha : Tends as a) (hf : ∀ s, Tends (fun n => fs n s) (f s)) :
    Tends (fun n => tryCatch (as n) (fs n)) (tryCatch a f) := fun w => by
  obtain ⟨below, N, reached⟩ := ha w
  simp only [runIn_tryCatch]
  refine ⟨fun n => ?_, ?_⟩
  · rcases below n with h | h <;> rw [h]
    · exact .inl rfl
    -- Only a signal hands over to the handler.
    · match a.runIn w with
      | none => exact .inl rfl
      | some (.error s, w') => exact (hf s w').1 n
      | some (.ok x, w') => exact .inr rfl
  · match hr : a.runIn w with
    | none => exact ⟨N, fun n hn => by rw [reached n hn, hr]⟩
    | some (.error s, w') =>
      obtain ⟨-, M, hM⟩ := hf s w'
      exact ⟨max N M, fun n hn => by rw [reached n (by omega), hr]; exact hM n (by omega)⟩
    | some (.ok x, w') => exact ⟨N, fun n hn => by rw [reached n hn, hr]⟩

theorem Tends.mapM {γ : Type} {fs : Nat → γ → Act β} {f : γ → Act β}
    (hf : ∀ x, Tends (fun n => fs n x) (f x)) (xs : List γ) :
    Tends (fun n => xs.mapM (fs n)) (xs.mapM f) := by
  induction xs with
  | nil => exact tends_const _
  | cons x xs ih =>
    simp only [List.mapM_cons]
    exact (hf x).bind fun _ => ih.bind fun _ => tends_const _

end Act

/-- What becomes of a computation on probation converges with the computation. -/
theorem Act.Tends.probe {as : Nat → Act Value} {a : Act Value} (ha : Tends as a) :
    Tends (fun n => probe (as n)) (probe a) :=
  Tends.tryCatch (ha.bind fun _ => tends_const _) fun _ => tends_const _

namespace Caller

/-- Every call converges. -/
def Tends (cs : Nat → Caller) (c : Caller) : Prop :=
  ∀ f args, Act.Tends (fun n => cs n f args) (c f args)

/-- What `c` decides, `c'` decides alike. -/
def Below (c c' : Caller) : Prop :=
  ∀ f args w, (c f args).runIn w = none ∨ (c f args).runIn w = (c' f args).runIn w

/-- A caller followed by one above it for good is a sequence that converges. -/
theorem Tends.ofBelow {c c' : Caller} (h : Below c c') :
    Tends (fun n => if n = 0 then c else c') c' := fun f args w =>
  -- The sequence is `c, c', c', …`, so only its first member can be undecided.
  ⟨fun n => by cases n with
    | zero => exact h f args w
    | succ n => exact .inr rfl, 1, fun n hn => by
      cases n with
      | zero => omega
      | succ n => rfl⟩

/-! ### Meanings of calls that are defined in terms of themselves -/

/-- In a sequence that grows, a later member decides all that an earlier one does, and alike. -/
theorem below_of_le {cs : Nat → Caller} (grows : ∀ n, Below (cs n) (cs (n + 1))) {n m : Nat}
    (h : n ≤ m) : Below (cs n) (cs m) := by
  induction h with
  | refl => exact fun f args w => .inr rfl
  | step _ ih =>
    intro f args w
    rcases ih f args w with hn | hn
    · exact .inl hn
    · rw [hn]
      exact grows _ f args w

/-- A sequence that grows converges. -/
theorem exists_tends {cs : Nat → Caller} (grows : ∀ n, Below (cs n) (cs (n + 1))) :
    ∃ c, Tends cs c := by
  have decided : ∀ f args w, ∃ o,
      (∀ n, (cs n f args).runIn w = none ∨ (cs n f args).runIn w = o) ∧
        ∃ N, ∀ n, N ≤ n → (cs n f args).runIn w = o := by
    intro f args w
    by_cases ends : ∃ N, (cs N f args).runIn w ≠ none
    · obtain ⟨N, ends⟩ := ends
      have same : ∀ n, N ≤ n → (cs n f args).runIn w = (cs N f args).runIn w := fun n hn =>
        ((below_of_le grows hn f args w).resolve_left ends).symm
      refine ⟨(cs N f args).runIn w, fun n => ?_, N, same⟩
      rcases Nat.le_total N n with hn | hn
      · exact .inr (same n hn)
      · exact below_of_le grows hn f args w
    · have undecided : ∀ n, (cs n f args).runIn w = none := fun n =>
        Classical.byContradiction fun h => ends ⟨n, h⟩
      exact ⟨none, fun n => .inl (undecided n), 0, fun n _ => undecided n⟩
  exact ⟨fun f args => ExceptT.mk fun w => (decided f args w).choose,
    fun f args w => (decided f args w).choose_spec⟩

/-- **Calls may be defined in terms of the calls inside them**, by any step that respects
convergence. -/
theorem exists_fixed {step : Caller → Caller}
    (respects : ∀ cs c, Tends cs c → Tends (fun n => step (cs n)) (step c)) :
    ∃ c, c = step c := by
  -- The calls within some depth, as the step defines them.
  let depths : Nat → Caller := Nat.rec (fun _ _ => Act.tooDeep) fun _ => step
  have grows : ∀ n, Below (depths n) (depths (n + 1)) := by
    intro n
    induction n with
    | zero => exact fun f args w => .inl rfl
    | succ n ih => exact fun f args w => (respects _ _ (.ofBelow ih) f args w).1 0
  obtain ⟨c, tends⟩ := exists_tends grows
  exact ⟨c, funext fun f => funext fun args =>
    (tends f args).tail.unique (respects _ _ tends f args)⟩

end Caller

end EffectTrees
