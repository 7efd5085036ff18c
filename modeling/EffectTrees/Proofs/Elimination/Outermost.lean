import EffectTrees.Proofs.Descriptor.Slotted
import EffectTrees.Proofs.Elimination.Immediate

/-!
# Outer effects first, and nothing unasked

An iteration that puts off what follows (`Tree.iterateLater`) leaves it to its algebra how far down a
tree it goes, and which way. Here the algebra logs each effect, with the unit in its slot, and goes
on as a guide says: a function slot is called with the answers that the guide gives, and after so
many effects the algebra stops and calls nothing any more.

* `Guide.descend` goes down the path that the answers choose, through at most so many effects. Each
  of them is logged before it is found out what follows, and nothing beside the path is looked at.
* `iterateLater_eq_descend` — the iteration does just this, so it logs the effects of the path,
  outermost first, as long as the guide does not stop; where it stops, the last effect is logged and
  that is all. To fold the tree into a target that goes on at once is to go down the same path.
* `Guide.Agrees` — a tree with the same path, and with anything at all in the slot of the effect
  where the algebra stops. The iteration does not tell it from the other one.

An algebra that counts and answers is no function that a program could define, for a program cannot
read the log. So the meaning of calls is any that is lawful (`Caller.Lawful`): what a function of the
program does is left open, and may depend on anything in the world. For the same reason the results
are about single worlds, and functions on the path may even register classes.
-/

namespace EffectTrees

/-- **What a function of the program does is left open**: it may be anything. All other values mean
what they mean for the machine. -/
def Caller.Lawful (call : Caller) : Prop :=
  ∀ f args, (∀ params body env, f ≠ .function (.closure params body env)) →
    call f args = f.apply call args

namespace Caller.Lawful

variable {call : Caller} (lawful : call.Lawful)
include lawful

theorem frame (k : Frame) (v : Value) : call (.frame k) [v] = k.run call v :=
  lawful _ _ (by simp [Value.frame])

theorem delayed (k : Frame) (v : Value) : call (.function (.delayed k v)) [] = k.run call v :=
  lawful _ _ (by simp)

theorem after (next inner : Value) (args : List Value) :
    call (.function (.after next inner)) args = (do call next [← call inner args]) :=
  lawful _ _ (by simp)

end Caller.Lawful

/-- The machine is one of the meanings of calls in question. -/
theorem Machine.lawful_limit : Caller.Lawful Machine.limit := fun f args _ => Machine.limit_eq f args

/-- The target goes on at once: a value is itself, and what is to follow is called with what there
is. -/
structure Target.GoesOn (call : Caller) (target : Value) : Prop where
  sequences : target.requireMember .bind = pure ()
  pure (v : Value) : target.invoke call .pure [v] = pure v
  bind (m : Value) (k : Frame) : target.invoke call .bind [m, .frame k] = call (.frame k) [m]

/-- What an algebra goes by: the answers that it gives to an effect with a function slot, the number
of effects that it has logged, the number after which it stops (if it ever does), and what it gives
then. -/
structure Guide where
  answers : World → Value → List Value
  logged : World → Nat
  bound : Option Nat
  stop : Value

namespace Guide

variable (guide : Guide) (call : Caller)

/-! ### Ways down a tree -/

/-- Logs an effect, with the unit in its slot. -/
def note (d : Value) : Act Value := do
  let e ← erase call d
  Act.log e
  return e

/-- What follows an effect that has been logged as `e`: what `direct` makes of the content of a
direct slot, or what a function slot gives for the answers. -/
def choose (direct : Value → Act Value) (e d : Value) : Act Value :=
  match d with
  | .descriptor c _ => do
    let s ← Act.slotOf c
    let x ← d.lookup s.name
    match s.kind with
    | .direct => direct x
    | .function _ => do call x (guide.answers (← get) e)
  | _ => Act.fail (.noSlots d.typeName)

/-- Performs an effect: logs it and gives what follows. -/
def perform (d : Value) : Act Value := do
  let e ← note call d
  guide.choose call pure e d

/-- **The algebra.** Logs an effect and, unless enough effects have been logged, calls what follows,
which has been put off. -/
def consult (d : Value) : Act Value := do
  let e ← note call d
  if guide.bound.any (· ≤ guide.logged (← get)) then return guide.stop
  else guide.choose call (fun thunk => call thunk []) e d

/-- **Goes down the path** that the answers choose, through at most so many effects, and leaves what
follows to `rest`. -/
def descend (rest : Value → Act Value) : Nat → Value → Act Value
  | n + 1, .tree (.suspended d) => do descend rest n (← guide.perform call d)
  | _, t => rest t

/-- Logs the effect that comes next, if there is one, and stops. -/
def halt (rest : Value → Act Value) : Value → Act Value
  | .tree (.suspended d) => do
    let _ ← note call d
    return guide.stop
  | t => rest t

/-! ### What the guide needs -/

/-- The guide counts the effects that are logged. What else there is in the log need not count. -/
structure Counts : Prop where
  asked (w : World) (a : Consultations) : guide.logged { w with asked := a } = guide.logged w
  log {w : World} {c : ClassRef} {own : List (String × Value)} {s : Slot}
    {fill : Value → List (String × Value)} {shown : Value}
    (slotted : Slotted w.classes c own s fill)
    (shows : (Value.descriptor c (fill .unit)).display w.classes = .ok shown) :
    guide.logged { w with log := shown :: w.log } = guide.logged w + 1

/-- **A path** of so many effects with direct and function slots, unless it ends before. Only what is
on the path is asked to be in order, and what a function slot on the path does must leave the count
of effects to the algebra. -/
inductive Path : Nat → ClassTable → Value → Prop where
  | ends {n : Nat} {T : ClassTable} {v : Value} (finished : ∀ d, v ≠ .tree (.suspended d)) :
      Path n T v
  | last {T : ClassTable} {c : ClassRef} {own : List (String × Value)} {s : Slot}
      {fill : Value → List (String × Value)} {x : Value} (slotted : Slotted T c own s fill)
      (holds : SlotHolds T c own s x) : Path 0 T (.tree (.suspended (.descriptor c own)))
  | direct {n : Nat} {T : ClassTable} {c : ClassRef} {own : List (String × Value)} {s : Slot}
      {fill : Value → List (String × Value)} {x : Value} (slotted : Slotted T c own s fill)
      (holds : SlotHolds T c own s x) (kind : s.kind = .direct) (rest : Path n T x) :
      Path (n + 1) T (.tree (.suspended (.descriptor c own)))
  | function {n m : Nat} {T : ClassTable} {c : ClassRef} {own : List (String × Value)} {s : Slot}
      {fill : Value → List (String × Value)} {g : Value} (slotted : Slotted T c own s fill)
      (holds : SlotHolds T c own s g) (kind : s.kind = .function m)
      (keeps : ∀ w v w', w.classes = T →
        (call g (guide.answers w (.descriptor c (fill .unit)))).runIn w = some (.ok v, w') →
          guide.logged w' = guide.logged w)
      (rest : ∀ w v w', w.classes = T →
        (call g (guide.answers w (.descriptor c (fill .unit)))).runIn w = some (.ok v, w') →
          Path n w'.classes v) :
      Path (n + 1) T (.tree (.suspended (.descriptor c own)))

/-- **The same path.** The trees have the same effects on a path of so many effects, and the slot of
the effect after these may hold anything. Function slots on the path agree on the answers only. -/
inductive Agrees : Nat → ClassTable → Value → Value → Prop where
  | same {n : Nat} {T : ClassTable} (v : Value) : Agrees n T v v
  | uncalled {T : ClassTable} {c : ClassRef} {own : List (String × Value)} {s : Slot}
      {fill : Value → List (String × Value)} (slotted : Slotted T c own s fill) (x y : Value) :
      Agrees 0 T (.tree (.suspended (.descriptor c (fill x))))
        (.tree (.suspended (.descriptor c (fill y))))
  | direct {n : Nat} {T : ClassTable} {c : ClassRef} {own : List (String × Value)} {s : Slot}
      {fill : Value → List (String × Value)} {x y : Value} (slotted : Slotted T c own s fill)
      (kind : s.kind = .direct) (rest : Agrees n T x y) :
      Agrees (n + 1) T (.tree (.suspended (.descriptor c (fill x))))
        (.tree (.suspended (.descriptor c (fill y))))
  | function {n m : Nat} {T : ClassTable} {c : ClassRef} {own : List (String × Value)} {s : Slot}
      {fill : Value → List (String × Value)} {g h : Value} (next : Value → Value)
      (slotted : Slotted T c own s fill) (kind : s.kind = .function m)
      (calls : ∀ w, w.classes = T →
        (call h (guide.answers w (.descriptor c (fill .unit)))).runIn w =
          (do return next (← call g (guide.answers w (.descriptor c (fill .unit))))).runIn w)
      (rest : ∀ w v w', w.classes = T →
        (call g (guide.answers w (.descriptor c (fill .unit)))).runIn w = some (.ok v, w') →
          Agrees n w'.classes v (next v)) :
      Agrees (n + 1) T (.tree (.suspended (.descriptor c (fill g))))
        (.tree (.suspended (.descriptor c (fill h))))

/-! ### One effect -/

variable {guide call} {c : ClassRef} {own : List (String × Value)} {s : Slot}
  {fill : Value → List (String × Value)} {x : Value} {w : World}

@[simp] theorem descend_zero (rest : Value → Act Value) (t : Value) :
    guide.descend call rest 0 t = rest t := rfl

theorem descend_suspended (rest : Value → Act Value) (n : Nat) (d : Value) :
    guide.descend call rest (n + 1) (.tree (.suspended d)) =
      guide.perform call d >>= guide.descend call rest n := rfl

/-- A path ends where there is no effect. -/
theorem descend_of_finished {rest : Value → Act Value} {n : Nat} {t : Value}
    (finished : ∀ d, t ≠ .tree (.suspended d)) : guide.descend call rest n t = rest t := by
  unfold descend
  split
  · exact absurd rfl (finished _)
  · rfl

theorem halt_of_finished {rest : Value → Act Value} {t : Value}
    (finished : ∀ d, t ≠ .tree (.suspended d)) : guide.halt call rest t = rest t := by
  unfold halt
  split
  · exact absurd rfl (finished _)
  · rfl

/-- The world in which an effect has been logged. -/
def noted (w : World) (c : ClassRef) (shown : Value) : World :=
  { w with asked := w.asked.add c.id, log := shown :: w.log }

theorem Counts.noted {shown : Value} (counts : guide.Counts)
    (slotted : Slotted w.classes c own s fill)
    (shows : (Value.descriptor c (fill .unit)).display w.classes = .ok shown) :
    guide.logged (noted w c shown) = guide.logged w + 1 := by
  let w₁ : World := { w with asked := w.asked.add c.id }
  calc guide.logged (Guide.noted w c shown)
      = guide.logged w₁ + 1 := counts.log (w := w₁) slotted shows
    _ = guide.logged w + 1 := by rw [counts.asked]

/-- The slot has been asked for before, so asking for it leaves no trace. -/
theorem runIn_slotOf_noted {shown : Value} {β : Type} (slot : w.classes.slotOf c.id = .ok s)
    (F : Slot → Act β) :
    (Act.slotOf c >>= F).runIn (noted w c shown) = (F s).runIn (noted w c shown) := by
  rw [Act.runIn_bind, runIn_slotOf, show (noted w c shown).classes = w.classes from rfl, slot]
  dsimp only
  rw [show (noted w c shown).asked = w.asked.add c.id from rfl, Consultations.add_add]
  rfl

theorem runIn_log (v : Value) (w : World) :
    (Act.log v).runIn w =
      match v.display w.classes with
      | .error f => some (.error (.fault f), w)
      | .ok shown => some (.ok (), { w with log := shown :: w.log }) := by
  unfold Act.log
  rw [Act.runIn_bind, Act.runIn_classes]
  dsimp only
  cases v.display w.classes <;> rfl

/-- **What is logged does not depend on what is in the slot.** -/
theorem runIn_note_bind {β : Type} (slotted : Slotted w.classes c own s fill) (F : Value → Act β) :
    (note call (.descriptor c own) >>= F).runIn w =
      match (Value.descriptor c (fill .unit)).display w.classes with
      | .error f => some (.error (.fault f), { w with asked := w.asked.add c.id })
      | .ok shown => (F (.descriptor c (fill .unit))).runIn (noted w c shown) := by
  unfold note erase
  dsimp only
  rw [if_pos slotted.effect]
  simp only [bind_assoc, pure_bind]
  -- Nothing but the slot's name is read before it is filled, so the content plays no part.
  rw [Act.runIn_bind, runIn_slotOf, slotted.slot]
  dsimp only
  rw [Act.runIn_bind, replaceMember_descriptor, Instance.runIn_replace]
  dsimp only
  rw [slotted.fills]
  dsimp only
  rw [Act.runIn_bind, runIn_log]
  dsimp only
  cases (Value.descriptor c (fill .unit)).display w.classes <;> rfl

/-- What follows an effect that has been logged. -/
theorem runIn_choose {shown e : Value} {direct : Value → Act Value}
    (slotted : Slotted w.classes c own s fill) (holds : SlotHolds w.classes c own s x) :
    (guide.choose call direct e (.descriptor c own)).runIn (noted w c shown) =
      match s.kind with
      | .direct => (direct x).runIn (noted w c shown)
      | .function _ =>
        (call x (guide.answers (noted w c shown) e)).runIn (noted w c shown) := by
  unfold choose
  dsimp only
  rw [runIn_slotOf_noted slotted.slot, Act.runIn_bind, runIn_lookup,
    show (noted w c shown).classes.memberOf? c.id own .scalar s.name = some x from holds]
  dsimp only
  cases s.kind <;> rfl

/-- What performing an effect comes to. -/
theorem runIn_perform (slotted : Slotted w.classes c own s fill)
    (holds : SlotHolds w.classes c own s x) :
    (guide.perform call (.descriptor c own)).runIn w =
      match (Value.descriptor c (fill .unit)).display w.classes with
      | .error f => some (.error (.fault f), { w with asked := w.asked.add c.id })
      | .ok shown =>
        match s.kind with
        | .direct => some (.ok x, noted w c shown)
        | .function _ =>
          (call x (guide.answers (noted w c shown) (.descriptor c (fill .unit)))).runIn
            (noted w c shown) := by
  unfold perform
  rw [runIn_note_bind slotted]
  cases (Value.descriptor c (fill .unit)).display w.classes with
  | error f => rfl
  | ok shown =>
    dsimp only
    rw [runIn_choose slotted holds]
    rfl

/-- **One effect of a path.** What follows is the rest of the path, and one more effect has been
logged. -/
theorem Path.perform (counts : guide.Counts) {n : Nat} {d v : Value} {w' : World}
    (path : guide.Path call (n + 1) w.classes (.tree (.suspended d)))
    (run : (guide.perform call d).runIn w = some (.ok v, w')) :
    guide.logged w' = guide.logged w + 1 ∧ guide.Path call n w'.classes v := by
  cases path with
  | ends finished => exact absurd rfl (finished d)
  | @direct _ _ c own s fill x slotted holds kind rest =>
    rw [runIn_perform slotted holds, kind] at run
    cases shows : (Value.descriptor c (fill .unit)).display w.classes with
    | error f => simp [shows] at run
    | ok shown =>
      rw [shows] at run
      obtain ⟨rfl, rfl⟩ : x = v ∧ noted w c shown = w' := by simpa using run
      exact ⟨counts.noted slotted shows, rest⟩
  | @function _ m _ c own s fill g slotted holds kind keeps rest =>
    rw [runIn_perform slotted holds, kind] at run
    cases shows : (Value.descriptor c (fill .unit)).display w.classes with
    | error f => simp [shows] at run
    | ok shown =>
      rw [shows] at run
      -- The function may log what it likes, but not what the guide counts.
      have kept := keeps (noted w c shown) v w' rfl run
      exact ⟨kept.trans (counts.noted slotted shows), rest (noted w c shown) v w' rfl run⟩

/-- What follows the performance of an effect matters at the rest of the path only. -/
theorem Path.runIn_perform_bind (counts : guide.Counts) {n : Nat} {d : Value}
    (path : guide.Path call (n + 1) w.classes (.tree (.suspended d))) {F G : Value → Act Value}
    (alike : ∀ v w', guide.logged w' = guide.logged w + 1 → guide.Path call n w'.classes v →
      (F v).runIn w' = (G v).runIn w') :
    (guide.perform call d >>= F).runIn w = (guide.perform call d >>= G).runIn w := by
  rw [Act.runIn_bind, Act.runIn_bind]
  match run : (guide.perform call d).runIn w with
  | none => rfl
  | some (.error s, w') => rfl
  | some (.ok v, w') =>
    obtain ⟨one, rest⟩ := path.perform counts run
    exact alike v w' one rest

/-- Where two ways to go on after a path are alike at its end, they are alike after the path. -/
theorem Path.runIn_descend (counts : guide.Counts) {n : Nat} {t : Value} {F G : Value → Act Value}
    (path : guide.Path call n w.classes t)
    (finished : ∀ v, (∀ d, v ≠ .tree (.suspended d)) → F v = G v)
    (last : ∀ d w', guide.logged w' = guide.logged w + n →
      guide.Path call 0 w'.classes (.tree (.suspended d)) →
        (F (.tree (.suspended d))).runIn w' = (G (.tree (.suspended d))).runIn w') :
    (guide.descend call F n t).runIn w = (guide.descend call G n t).runIn w := by
  -- The world changes on the way down: a function slot may even register classes.
  induction n generalizing t w with
  | zero =>
    by_cases suspended : ∃ d, t = .tree (.suspended d)
    · obtain ⟨d, rfl⟩ := suspended
      exact last d w rfl path
    · rw [descend_zero, descend_zero, finished t fun d same => suspended ⟨d, same⟩]
  | succ n ih =>
    by_cases suspended : ∃ d, t = .tree (.suspended d)
    · obtain ⟨d, rfl⟩ := suspended
      refine path.runIn_perform_bind counts fun v w' one rest => ih rest fun d w'' all => last d w'' ?_
      omega
    · have other : ∀ d, t ≠ .tree (.suspended d) := fun d same => suspended ⟨d, same⟩
      rw [descend_of_finished other, descend_of_finished other, finished t other]

/-! ### The iteration goes down the path -/

variable {algebra target : Value}

/-- What a slot holds once what follows has been put off: a direct slot a thunk, and a function slot
a function that goes on with the iteration. -/
def putOff (algebra target x : Value) : SlotKind → Value
  | .direct => .function (.delayed (.iterateLater algebra target) x)
  | .function _ => .function (.after (.frame (.iterateLater algebra target)) x)

/-- What the iteration hands to the algebra. -/
theorem runIn_iterateLater_handed (lawful : call.Lawful) (slotted : Slotted w.classes c own s fill)
    (holds : SlotHolds w.classes c own s x) :
    (Tree.iterateLater call algebra target (.tree (.suspended (.descriptor c own)))).runIn w =
      (call algebra [.descriptor c (fill (putOff algebra target x s.kind))]).runIn
        { w with asked := w.asked.add c.id } := by
  let w₁ : World := { w with asked := w.asked.add c.id }
  have asked : (Act.slotOf c).runIn w = some (.ok s, w₁) := by rw [runIn_slotOf, slotted.slot]
  have again : (Act.slotOf c).runIn w₁ = some (.ok s, w₁) := by
    rw [runIn_slotOf, show w₁.classes.slotOf c.id = .ok s from slotted.slot]
    dsimp only
    rw [show w₁.asked = w.asked.add c.id from rfl, Consultations.add_add]
  have found : ((Value.descriptor c own).lookup s.name).runIn w₁ = some (.ok x, w₁) := by
    rw [runIn_lookup, show w₁.classes.memberOf? c.id own .scalar s.name = some x from holds]
  have filled : ∀ y, ((Value.descriptor c own).replaceMember s.name y).runIn w₁ =
      some (.ok (.descriptor c (fill y)), w₁) := fun y => by
    rw [replaceMember_descriptor, Instance.runIn_replace,
      show Instance.replaced w₁.classes c own s.name y = _ from slotted.fills y]
  -- The slot is asked for twice, once for its kind and once to be filled.
  have put : (Tree.postponeSlots call algebra target (.descriptor c own)).runIn w =
      some (.ok (.descriptor c (fill (putOff algebra target x s.kind))), w₁) := by
    unfold Tree.postponeSlots fmap Slot.map
    dsimp only
    rw [if_pos slotted.effect, Act.runIn_bind, asked]
    cases kind : s.kind with
    | direct =>
      simp only [kind, if_pos slotted.effect]
      rw [Act.runIn_bind, again]
      dsimp only
      rw [Act.runIn_bind, found, kind]
      dsimp only
      rw [lawful.frame]
      exact filled _
    | function n =>
      simp only [kind, if_pos slotted.effect]
      rw [Act.runIn_bind, again]
      dsimp only
      rw [Act.runIn_bind, found, kind]
      exact filled _
  change (Tree.postponeSlots call algebra target (.descriptor c own) >>= fun v =>
    call algebra [v]).runIn w = _
  rw [Act.runIn_bind, put]

/-- What has been put off goes on with the iteration when it is called. -/
theorem runIn_choose_putOff (lawful : call.Lawful) {shown e : Value}
    (slotted : Slotted w.classes c own s fill) (holds : SlotHolds w.classes c own s x) :
    (guide.choose call (fun thunk => call thunk []) e
        (.descriptor c (fill (putOff algebra target x s.kind)))).runIn (noted w c shown) =
      (guide.choose call pure e (.descriptor c own) >>=
        Tree.iterateLater call algebra target).runIn (noted w c shown) := by
  rw [runIn_choose (slotted.refill _) (slotted.holds_fill _), Act.runIn_bind,
    runIn_choose slotted holds]
  cases kind : s.kind with
  | direct =>
    dsimp only [putOff]
    rw [lawful.delayed]
    rfl
  | function n =>
    dsimp only [putOff]
    rw [lawful.after, Act.runIn_bind]
    simp only [lawful.frame]
    rfl

section

variable (lawful : call.Lawful) (counts : guide.Counts)
  (consults : ∀ d, call algebra [d] = guide.consult call d)
include lawful counts consults

/-- **The iteration at one effect.** The effect is logged before anything else happens. If that was
the last one, that is all; else the iteration goes on with what follows. -/
theorem runIn_iterateLater_suspended {d : Value} {n : Nat}
    (path : guide.Path call n w.classes (.tree (.suspended d))) :
    (Tree.iterateLater call algebra target (.tree (.suspended d))).runIn w =
      if guide.bound.any (· ≤ guide.logged w + 1) then
        (guide.halt call (Tree.iterateLater call algebra target) (.tree (.suspended d))).runIn w
      else (guide.perform call d >>= Tree.iterateLater call algebra target).runIn w := by
  obtain ⟨c, own, s, fill, x, rfl, slotted, holds⟩ : ∃ c own s fill x, d = .descriptor c own ∧
      Slotted w.classes c own s fill ∧ SlotHolds w.classes c own s x := by
    cases path with
    | ends finished => exact absurd rfl (finished d)
    | last slotted holds => exact ⟨_, _, _, _, _, rfl, slotted, holds⟩
    | direct slotted holds _ _ => exact ⟨_, _, _, _, _, rfl, slotted, holds⟩
    | function slotted holds _ _ _ => exact ⟨_, _, _, _, _, rfl, slotted, holds⟩
  rw [runIn_iterateLater_handed lawful slotted holds, consults]
  unfold consult halt perform
  have refilled : Slotted ({ w with asked := w.asked.add c.id } : World).classes c
      (fill (putOff algebra target x s.kind)) s fill := slotted.refill _
  -- The log does not tell the descriptor with the work put off from the one that it was made of.
  rw [runIn_note_bind refilled, bind_assoc, runIn_note_bind slotted, runIn_note_bind slotted]
  cases shows : (Value.descriptor c (fill .unit)).display w.classes with
  | error f => simp only [Consultations.add_add, ite_self]
  | ok shown =>
    dsimp only
    -- Here the algebra looks whether it is to stop, with this effect logged already.
    have looked : (get : Act World).runIn (noted w c shown) =
        some (.ok (noted w c shown), noted w c shown) := rfl
    rw [show noted { w with asked := w.asked.add c.id } c shown = noted w c shown by
      simp only [noted, Consultations.add_add], Act.runIn_bind, looked]
    dsimp only
    rw [counts.noted slotted shows]
    split
    · rfl
    · exact runIn_choose_putOff lawful slotted holds

/-- As long as the bound is not reached, to iterate is to go down the path. -/
theorem runIn_iterateLater {t : Value} {n : Nat} (path : guide.Path call n w.classes t)
    (before : guide.bound.all (guide.logged w + n < ·)) :
    (Tree.iterateLater call algebra target t).runIn w =
      (guide.descend call (Tree.iterateLater call algebra target) n t).runIn w := by
  induction n generalizing t w with
  | zero => rfl
  | succ n ih =>
    by_cases suspended : ∃ d, t = .tree (.suspended d)
    · obtain ⟨d, rfl⟩ := suspended
      have below : ¬ guide.bound.any (· ≤ guide.logged w + 1) := by
        cases bound : guide.bound with
        | none => simp
        | some m =>
          have : guide.logged w + (n + 1) < m := by simpa [bound] using before
          simp
          omega
      rw [runIn_iterateLater_suspended lawful counts consults path, if_neg below]
      refine path.runIn_perform_bind counts fun v w' one rest => ih rest ?_
      rw [one, show guide.logged w + 1 + n = guide.logged w + (n + 1) by omega]
      exact before
    · rw [descend_of_finished fun d same => suspended ⟨d, same⟩]

/-- Up to the bound, to iterate is to go down the path and to log the last effect. -/
theorem runIn_iterateLater_halt {t : Value} {n m : Nat} (path : guide.Path call n w.classes t)
    (bound : guide.bound = some m) (last : guide.logged w + n = m - 1) :
    (Tree.iterateLater call algebra target t).runIn w =
      (guide.descend call (guide.halt call (Tree.iterateLater call algebra target)) n t).runIn w := by
  -- The path is below the bound, so only its end makes a difference.
  calc (Tree.iterateLater call algebra target t).runIn w
      = (guide.descend call (Tree.iterateLater call algebra target) n t).runIn w := by
        cases n with
        | zero => rfl
        | succ n =>
          refine runIn_iterateLater lawful counts consults path ?_
          simp only [bound, Option.all_some, decide_eq_true_eq]
          omega
    _ = _ := by
        refine path.runIn_descend counts (fun v finished => (halt_of_finished finished).symm)
          fun d w' all rest => ?_
        have reached : guide.bound.any (· ≤ guide.logged w' + 1) := by
          simp only [bound, Option.any_some, decide_eq_true_eq]
          omega
        rw [runIn_iterateLater_suspended lawful counts consults rest, if_pos reached]

end

/-! ### Other trees with the same path -/

/-- **What is not on the path does not matter.** -/
theorem Agrees.runIn_descend_halt {n : Nat} {T : ClassTable} {t t' : Value}
    (agrees : guide.Agrees call n T t t') (rest : Value → Act Value) {w : World}
    (hw : w.classes = T) :
    (guide.descend call (guide.halt call rest) n t).runIn w =
      (guide.descend call (guide.halt call rest) n t').runIn w := by
  induction agrees generalizing w with
  | same v => rfl
  -- The slots differ, but the unit is logged in their place, and they are not looked at.
  | uncalled slotted x y =>
    subst hw
    change (note call _ >>= _).runIn w = (note call _ >>= _).runIn w
    rw [runIn_note_bind (slotted.refill x), runIn_note_bind (slotted.refill y)]
  | @direct n T c own s fill x y slotted kind _ ih =>
    subst hw
    rw [descend_suspended, descend_suspended, Act.runIn_bind, Act.runIn_bind,
      runIn_perform (slotted.refill x) (slotted.holds_fill x),
      runIn_perform (slotted.refill y) (slotted.holds_fill y), kind]
    cases (Value.descriptor c (fill .unit)).display w.classes with
    | error f => rfl
    | ok shown => exact ih rfl
  | @function n m T c own s fill g h next slotted kind calls _ ih =>
    subst hw
    rw [descend_suspended, descend_suspended, Act.runIn_bind, Act.runIn_bind,
      runIn_perform (slotted.refill g) (slotted.holds_fill g),
      runIn_perform (slotted.refill h) (slotted.holds_fill h), kind]
    cases (Value.descriptor c (fill .unit)).display w.classes with
    | error f => rfl
    | ok shown =>
      dsimp only
      -- On these answers the second function gives what belongs to what the first one gives.
      rw [calls (noted w c shown) rfl, Act.runIn_bind]
      match run : (call g (guide.answers (noted w c shown) (.descriptor c (fill .unit)))).runIn
          (noted w c shown) with
      | none => rfl
      | some (.error s, w') => rfl
      | some (.ok v, w') => exact ih (noted w c shown) v w' rfl run rfl

end Guide

/-! ### The path of an iteration -/

open Guide

/-- To fold into a target that goes on at once is to go down the path. -/
theorem fold_eq_descend {guide : Guide} {call : Caller} (lawful : call.Lawful)
    {perform target : Value} (goes_on : Target.GoesOn call target)
    (performs : ∀ d, call perform [d] = guide.perform call d) (n : Nat) (t : Value) :
    Tree.fold call perform target t = guide.descend call (Tree.fold call perform target) n t := by
  induction n generalizing t with
  | zero => rfl
  | succ n ih =>
    by_cases suspended : ∃ d, t = .tree (.suspended d)
    · obtain ⟨d, rfl⟩ := suspended
      rw [descend_suspended, ← performs]
      calc Tree.fold call perform target (.tree (.suspended d))
          = (do
              target.requireMember .bind
              let m ← call perform [d]
              target.invoke call .bind [m, .frame (.fold perform target)]) := rfl
        _ = call perform [d] >>= Tree.fold call perform target := by
          rw [goes_on.sequences, pure_bind]
          simp only [goes_on.bind, lawful.frame]
          rfl
        _ = _ := by congr; exact funext ih
    · rw [descend_of_finished fun d same => suspended ⟨d, same⟩]

/-- **Outer effects first, and nothing unasked.** The algebra logs each effect and goes on with the
answers of a guide, until so many effects have been logged. Let a path of `n` effects begin where
none has been logged yet.

* To fold the tree, with a function that logs effects likewise and gives what follows, is to go down
  the path, as far as one wants to look: each effect is logged before what follows it is known,
  outermost first.
* If the algebra stops later, the iteration goes down the same path in the same way.
* If the algebra stops at the effect after the path, the iteration goes down the path, logs this
  last effect and ends. (An algebra that logs before it counts logs one effect if it is to stop at
  none.) Whatever the slot of the last effect holds, and whatever there is beside the path, the run
  is the same. -/
theorem iterateLater_eq_descend {guide : Guide} {call : Caller} (lawful : call.Lawful)
    (counts : guide.Counts) {algebra perform target now : Value}
    (consults : ∀ d, call algebra [d] = guide.consult call d)
    (performs : ∀ d, call perform [d] = guide.perform call d)
    (goes_on : Target.GoesOn call now) {n : Nat} {t : Value} {w : World}
    (start : guide.logged w = 0) (path : guide.Path call n w.classes t) :
    (∀ j, Tree.fold call perform now t = guide.descend call (Tree.fold call perform now) j t) ∧
      (guide.bound.all (n < ·) →
        (Tree.iterateLater call algebra target t).runIn w =
          (guide.descend call (Tree.iterateLater call algebra target) n t).runIn w) ∧
      ∀ m, guide.bound = some m → n = m - 1 →
        (Tree.iterateLater call algebra target t).runIn w =
            (guide.descend call (guide.halt call (Tree.iterateLater call algebra target)) n t).runIn w ∧
          ∀ t', guide.Path call n w.classes t' → guide.Agrees call n w.classes t t' →
            (Tree.iterateLater call algebra target t').runIn w =
              (Tree.iterateLater call algebra target t).runIn w := by
  refine ⟨fun j => fold_eq_descend lawful goes_on performs j t, fun later => ?_,
    fun m bound last => ?_⟩
  · exact runIn_iterateLater lawful counts consults path (by simpa [start] using later)
  · have stops : ∀ u, guide.Path call n w.classes u →
        (Tree.iterateLater call algebra target u).runIn w =
          (guide.descend call (guide.halt call (Tree.iterateLater call algebra target)) n u).runIn w :=
      fun u path_u => runIn_iterateLater_halt lawful counts consults path_u bound (by omega)
    refine ⟨stops t path, fun t' path' agrees => ?_⟩
    rw [stops t path, stops t' path', agrees.runIn_descend_halt _ rfl]

/-! For every guide there is an algebra that goes by it, beside functions of programs that mean what
they mean for the machine. In the witness the log is what is counted. -/

namespace Guide

/-- A function that the machine knows nothing about but its name. -/
def outside (name : String) : Value := .function (.closure [name] .malformed [])

/-- One call, where two functions from outside are known. -/
def step (guide : Guide) (call : Caller) : Caller
  | .function (.closure ["consult"] .malformed []), [d] => guide.consult call d
  | .function (.closure ["perform"] .malformed []), [d] => guide.perform call d
  | f, args => f.apply call args

theorem step_eq_apply {guide : Guide} {call : Caller} {f : Value} {args : List Value}
    (consult : f = outside "consult" → ∀ d, args ≠ [d])
    (perform : f = outside "perform" → ∀ d, args ≠ [d]) :
    guide.step call f args = f.apply call args := by
  unfold step
  split
  · exact absurd rfl (consult rfl _)
  · exact absurd rfl (perform rfl _)
  · rfl

variable {guide : Guide} {cs : Nat → Caller} {c : Caller}

open Act (tends_const)

theorem tends_choose (hc : Caller.Tends cs c) {directs : Nat → Value → Act Value}
    {direct : Value → Act Value} (hd : ∀ x, Act.Tends (fun n => directs n x) (direct x))
    (e d : Value) :
    Act.Tends (fun n => guide.choose (cs n) (directs n) e d) (guide.choose c direct e d) := by
  unfold choose
  split
  · refine (tends_const _).bind fun s => (tends_const _).bind fun x => ?_
    cases s.kind with
    | direct => exact hd x
    | function m => exact (tends_const _).bind fun w => hc x _
  · exact tends_const _

theorem tends_note (hc : Caller.Tends cs c) (d : Value) :
    Act.Tends (fun n => note (cs n) d) (note c d) :=
  (tends_erase hc d).bind fun e => tends_const (do Act.log e; return e)

theorem tends_perform (hc : Caller.Tends cs c) (d : Value) :
    Act.Tends (fun n => guide.perform (cs n) d) (guide.perform c d) :=
  (tends_note hc d).bind fun e => tends_choose hc (fun x => tends_const (pure x)) e d

theorem tends_consult (hc : Caller.Tends cs c) (d : Value) :
    Act.Tends (fun n => guide.consult (cs n) d) (guide.consult c d) := by
  refine (tends_note hc d).bind fun e => (tends_const get).bind fun w => ?_
  split
  · exact tends_const _
  · exact tends_choose hc (fun thunk => hc thunk []) e d

theorem tends_step (hc : Caller.Tends cs c) :
    Caller.Tends (fun n => guide.step (cs n)) (guide.step c) := by
  intro f args
  by_cases consult : ∃ d, f = outside "consult" ∧ args = [d]
  · obtain ⟨d, rfl, rfl⟩ := consult
    exact tends_consult hc d
  by_cases perform : ∃ d, f = outside "perform" ∧ args = [d]
  · obtain ⟨d, rfl, rfl⟩ := perform
    exact tends_perform hc d
  have machine : ∀ call, guide.step call f args = f.apply call args := fun call =>
    step_eq_apply (fun hf d ha => consult ⟨d, hf, ha⟩) fun hf d ha => perform ⟨d, hf, ha⟩
  simp only [machine]
  exact Value.tends_apply hc f args

/-- **There is an algebra for every guide**, and a function that performs effects. -/
theorem exists_call (guide : Guide) : ∃ call : Caller, call.Lawful ∧
    (∀ d, call (outside "consult") [d] = guide.consult call d) ∧
    (∀ d, call (outside "perform") [d] = guide.perform call d) ∧
    ∀ f args, f ≠ outside "consult" → f ≠ outside "perform" → call f args = f.apply call args := by
  -- The meaning is the limit of the ones with a depth of calls, as it is for the machine.
  obtain ⟨call, fixed⟩ : ∃ call, call = guide.step call :=
    Caller.exists_fixed fun _ _ => tends_step
  have others : ∀ f args, f ≠ outside "consult" → f ≠ outside "perform" →
      call f args = f.apply call args := fun f args consult perform =>
    (congrFun (congrFun fixed f) args).trans
      (step_eq_apply (fun hf => absurd hf consult) fun hf => absurd hf perform)
  exact ⟨call, fun f args closed => others f args (closed _ _ _) (closed _ _ _),
    fun d => congrFun (congrFun fixed _) _, fun d => congrFun (congrFun fixed _) _, others⟩

open Dialogue

/-- Answers every question with seven, and stops after two effects. -/
def twoEffects : Guide where
  answers _ _ := [.int 7]
  logged w := w.log.length
  bound := some 2
  stop := .null

theorem counts_twoEffects : twoEffects.Counts := ⟨fun _ _ => rfl, fun _ _ => rfl⟩

/-- Says the answer and fails. -/
def grumble : Value :=
  .function (.closure ["n"] (.library "Suspended" [.make "Say"
    [("message", .var "n"), ("next", .library "Failed" [])]]) [])

/-- A question whose answer is said, with anything to follow. -/
theorem path_ask {call : Caller} {g t : Value} (runs : ∀ w, w.classes = table →
    (call g [.int 7]).runIn w = some (.ok (say (.int 7) t), w)) :
    twoEffects.Path call 1 table (ask g) := by
  refine .function (slotted_ask g) (holds_ask g) rfl (fun w v w' hw run => ?_)
    fun w v w' hw run => ?_
  · obtain ⟨-, rfl⟩ : _ ∧ w = w' := by simpa using (runs w hw).symm.trans run
    rfl
  · obtain ⟨rfl, rfl⟩ : say (.int 7) t = v ∧ w = w' := by simpa using (runs w hw).symm.trans run
    rw [hw]
    exact .last (slotted_say _ _) (holds_say _ _)

section

variable {call : Caller} (machine : ∀ f args, f ≠ outside "consult" → f ≠ outside "perform" →
  call f args = f.apply call args) {w : World}
include machine

theorem goesOn_immediate : Target.GoesOn call Tree.immediate := by
  refine ⟨rfl, fun v => ?_, fun m k => ?_⟩
  · exact machine (.function (.closure ["value"] (.var "value") [])) [v] (by simp [outside])
      (by simp [outside])
  · exact machine Tree.sequence [m, .frame k] (by simp [Tree.sequence, outside])
      (by simp [Tree.sequence, outside])

theorem runIn_echo (hw : w.classes = table) : (call echo [.int 7]).runIn w =
    some (.ok (say (.int 7) (.tree (Tree.pure (.int 1)))), w) := by
  obtain ⟨classes, asked, log, remarks⟩ := w
  obtain rfl : classes = table := hw
  rw [machine _ _ (by simp [echo, outside]) (by simp [echo, outside])]
  rfl

theorem runIn_grumble (hw : w.classes = table) : (call grumble [.int 7]).runIn w =
    some (.ok (say (.int 7) (.tree .failed)), w) := by
  obtain ⟨classes, asked, log, remarks⟩ := w
  obtain rfl : classes = table := hw
  rw [machine _ _ (by simp [grumble, outside]) (by simp [grumble, outside])]
  rfl

theorem agrees_echo_grumble : twoEffects.Agrees call 1 table (ask echo) (ask grumble) := by
  refine .function (fun _ => say (.int 7) (.tree .failed)) (slotted_ask echo) rfl
    (fun w hw => ?_) fun w v w' hw run => ?_
  · rw [show twoEffects.answers w _ = [.int 7] from rfl, runIn_grumble machine hw, Act.runIn_bind,
      runIn_echo machine hw]
    rfl
  · obtain ⟨rfl, rfl⟩ : say (.int 7) (.tree (Tree.pure (.int 1))) = v ∧ w = w' := by
      simpa using (runIn_echo machine hw).symm.trans run
    rw [hw]
    exact .uncalled (slotted_say (.int 7) .unit) (.tree (Tree.pure (.int 1))) (.tree .failed)

end

end Guide

open Guide Dialogue in
/-- The question is asked and the answer said; what would follow is never called. -/
theorem iterateLater_eq_descend_dialogue : ∃ call : Caller, ∃ w : World,
    w.log = [saying (.int 7) .unit, asking .unit] ∧
    (Tree.fold call (outside "perform") Tree.immediate (ask echo)).runIn (.initial table) =
      some (.ok (.int 1), w) ∧
    (Tree.iterateLater call (outside "consult") (.target .list) (ask echo)).runIn (.initial table) =
      some (.ok .null, w) ∧
    (Tree.iterateLater call (outside "consult") (.target .list) (ask grumble)).runIn
      (.initial table) = some (.ok .null, w) := by
  obtain ⟨call, lawful, consults, performs, machine⟩ := exists_call twoEffects
  have path : twoEffects.Path call 1 table (ask echo) := path_ask fun w => runIn_echo machine
  have path' : twoEffects.Path call 1 table (ask grumble) :=
    path_ask fun w => runIn_grumble machine
  have goes_on := goesOn_immediate machine
  -- The question is the path, and the statement is the effect where the algebra stops.
  have main := @iterateLater_eq_descend twoEffects call lawful counts_twoEffects _ _ (.target .list)
    _ consults performs goes_on 1 (ask echo) (.initial table) rfl path
  let w₁ := noted (.initial table) askClass (asking .unit)
  let w₂ := noted w₁ sayClass (saying (.int 7) .unit)
  let rest := Value.tree (Tree.pure (.int 1))
  have asked : (twoEffects.perform call (asking echo)).runIn (.initial table) =
      some (.ok (say (.int 7) rest), w₁) := by
    have performed := @runIn_perform twoEffects call _ _ _ _ _ (.initial table) (slotted_ask echo)
      (holds_ask echo)
    exact performed.trans (runIn_echo machine (w := w₁) rfl)
  have said : (twoEffects.perform call (saying (.int 7) rest)).runIn w₁ = some (.ok rest, w₂) :=
    @runIn_perform twoEffects call _ _ _ _ _ w₁ (slotted_say _ _) (holds_say _ _)
  -- The fold performs both effects and comes to the value.
  have folded : (Tree.fold call (outside "perform") Tree.immediate (ask echo)).runIn
      (.initial table) = some (.ok (.int 1), w₂) := by
    rw [main.1 2]
    change (twoEffects.perform call (asking echo) >>= _).runIn _ = _
    rw [Act.runIn_bind, asked]
    change (twoEffects.perform call (saying (.int 7) rest) >>= _).runIn _ = _
    rw [Act.runIn_bind, said]
    change (Tree.immediate.invoke call .pure [.int 1]).runIn _ = _
    rw [goes_on.pure]
    rfl
  -- The iteration performs the question, and logs the statement without looking into it.
  have stopped : (twoEffects.descend call (twoEffects.halt call
      (Tree.iterateLater call (outside "consult") (.target .list))) 1 (ask echo)).runIn
        (.initial table) = some (.ok .null, w₂) := by
    change (twoEffects.perform call (asking echo) >>= _).runIn _ = _
    rw [Act.runIn_bind, asked]
    exact runIn_note_bind (w := w₁) (slotted_say (.int 7) rest) _
  have halted := main.2.2 2 rfl rfl
  exact ⟨call, w₂, rfl, folded, halted.1.trans stopped,
    (halted.2 _ path' (agrees_echo_grumble machine)).trans (halted.1.trans stopped)⟩

end EffectTrees
