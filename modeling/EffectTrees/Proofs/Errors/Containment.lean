import EffectTrees.Proofs.Tree.Graft

/-!
# Aborts are contained

Trees, builders and analyses look at what callbacks give, and callbacks may give the unknown
argument, abort or fail as they like. They may also register classes, and what a slot is depends on
the classes. So the statements of this module speak of a set `Ts` of class tables in which the
callbacks stay:

* `Act.Keeps Ts Q a` — started within `Ts`, the computation stays within `Ts` if it gives a value or
  aborts, and its value has the property `Q`;
* `Act.Contained Ts Q a` — moreover it does not abort.

If no callback registers a class, `Ts` has one table. If all tables are in `Ts`, it is no condition
on callbacks to stay there.

What an operation touches outside of a probation must not abort. An analysis and a builder touch
nothing there but what they have made themselves, so they never abort (`Analysis.contained_walk`,
`Builder.contained_materialize`). To map, to bind and to apply are members of the values in direct
slots, so these must be trees (`Founded`); with that, the three operations never abort either
(`Founded.map`, `Founded.bind`, `Founded.ap`).
-/

namespace EffectTrees

open Machine (limit)

/-- A set of class tables. -/
abbrev Tables := ClassTable → Prop

namespace Act

variable {α β : Type} {Ts : Tables} {T : ClassTable} {Q : α → Prop} {R : β → Prop} {w : World}

/-- From the world `w`, the computation ends by a fault, if it ends, or with a value that has the
property and with classes in `Ts`. -/
def ContainedFrom (w : World) (Ts : Tables) (Q : α → Prop) (a : Act α) : Prop :=
  ∀ r w', a.runIn w = some (r, w') →
    (∃ f, r = .error (.fault f)) ∨ ∃ v, r = .ok v ∧ Q v ∧ Ts w'.classes

/-- **No abort gets out.** From every world with classes in `Ts`, the computation ends by a fault, if
it ends, or with a value that has the property and with classes in `Ts`. -/
def Contained (Ts : Tables) (Q : α → Prop) (a : Act α) : Prop :=
  ∀ w, Ts w.classes → a.ContainedFrom w Ts Q

/-- From every world with classes in `Ts`, the computation stays there unless it fails, and its value
has the property. It may abort. -/
def Keeps (Ts : Tables) (Q : α → Prop) (a : Act α) : Prop :=
  ∀ w, Ts w.classes → ∀ r w', a.runIn w = some (r, w') →
    (∃ f, r = .error (.fault f)) ∨ Ts w'.classes ∧ ∀ v, r = .ok v → Q v

theorem Contained.not_aborts {a : Act α} (h : a.Contained Ts Q) (within : Ts w.classes)
    (w' : World) : a.runIn w ≠ some (.error .abort, w') := by
  intro aborts
  rcases h w within _ _ aborts with ⟨f, fault⟩ | ⟨v, value, -⟩
  · simp at fault
  · simp at value

theorem Contained.mono {P : α → Prop} {a : Act α} (h : a.Contained Ts P) (hPQ : ∀ v, P v → Q v) :
    a.Contained Ts Q := by
  intro w within r w' hr
  rcases h w within r w' hr with fault | ⟨v, rfl, hv, within'⟩
  · exact .inl fault
  · exact .inr ⟨v, rfl, hPQ v hv, within'⟩

theorem Keeps.mono {P : α → Prop} {a : Act α} (h : a.Keeps Ts P) (hPQ : ∀ v, P v → Q v) :
    a.Keeps Ts Q := by
  intro w within r w' hr
  rcases h w within r w' hr with fault | ⟨within', value⟩
  · exact .inl fault
  · exact .inr ⟨within', fun v hv => hPQ v (value v hv)⟩

theorem keeps_all (a : Act α) : a.Keeps (fun _ => True) fun _ => True :=
  fun _ _ _ _ _ => .inr ⟨trivial, fun _ _ => trivial⟩

/-! ### Sequences -/

theorem FaultOr.contained {P : ClassTable → α → Prop} {a : Act α}
    (h : ∀ T, Ts T → a.FaultOr T (P T)) (hPQ : ∀ T v, P T v → Q v) : a.Contained Ts Q := by
  intro w within r w' hr
  rcases h _ within w rfl r w' hr with fault | ⟨v, rfl, hv, same⟩
  · exact .inl fault
  · exact .inr ⟨v, rfl, hPQ _ v hv, by rwa [same]⟩

theorem contained_pure {v : α} (h : Q v) : (pure v : Act α).Contained Ts Q :=
  FaultOr.contained (P := fun _ => Q) (fun _ _ => faultOr_pure h) fun _ _ h => h

theorem contained_fail (f : Fault) : (fail f : Act α).Contained Ts Q :=
  FaultOr.contained (P := fun _ => Q) (fun _ _ => faultOr_fail f) fun _ _ h => h

/-- A sequence ends by a fault if its start does; otherwise it is as good as what follows. -/
theorem containedFrom_bind {a : Act α} {f : α → Act β}
    (h : ∀ s w₁, a.runIn w = some (s, w₁) →
      (∃ g, s = .error (.fault g)) ∨ ∃ x, s = .ok x ∧ (f x).ContainedFrom w₁ Ts R) :
    (a >>= f).ContainedFrom w Ts R := by
  intro r w' hr
  rw [runIn_bind] at hr
  cases hx : a.runIn w with
  | none => simp [hx] at hr
  | some x =>
    obtain ⟨s, w₁⟩ := x
    rw [hx] at hr
    rcases h s w₁ hx with ⟨g, rfl⟩ | ⟨x, rfl, contained⟩
    · obtain ⟨rfl, -⟩ : (.error (.fault g)) = r ∧ w₁ = w' := by simpa using hr
      exact .inl ⟨g, rfl⟩
    · exact contained r w' hr

theorem Contained.bind {a : Act α} {f : α → Act β} (ha : a.Contained Ts Q)
    (hf : ∀ x, Q x → (f x).Contained Ts R) : (a >>= f).Contained Ts R := by
  intro w within
  refine containedFrom_bind fun s w₁ hs => ?_
  rcases ha w within s w₁ hs with fault | ⟨x, value, hQ, within₁⟩
  · exact .inl fault
  · exact .inr ⟨x, value, hf x hQ w₁ within₁⟩

/-- What a start that leaves the classes alone finds out at the classes of the moment can be used in
what follows. -/
theorem FaultOr.bind_containedFrom {P : α → Prop} {a : Act α} {f : α → Act β}
    (ha : a.FaultOr w.classes P)
    (hf : ∀ x w', P x → w'.classes = w.classes → (f x).ContainedFrom w' Ts R) :
    (a >>= f).ContainedFrom w Ts R := by
  refine containedFrom_bind fun s w₁ hs => ?_
  rcases ha w rfl s w₁ hs with fault | ⟨x, value, hP, same⟩
  · exact .inl fault
  · exact .inr ⟨x, value, hf x w₁ hP same⟩

theorem Contained.mapM {γ : Type} {f : γ → Act α} {xs : List γ}
    (hf : ∀ x ∈ xs, (f x).Contained Ts Q) : (xs.mapM f).Contained Ts fun _ => True := by
  induction xs with
  | nil => exact contained_pure trivial
  | cons x xs ih =>
    rw [List.mapM_cons]
    have rest := ih fun z hz => hf z (List.mem_cons_of_mem x hz)
    exact (hf x List.mem_cons_self).bind fun _ _ => rest.bind fun _ _ => contained_pure trivial

/-- On probation every computation is contained that stays within the tables. -/
theorem Keeps.probe {Q : Value → Prop} {a : Act Value} (h : a.Keeps Ts Q) :
    (EffectTrees.probe a).Contained Ts fun o => ∀ v, o = some v → Q v := by
  intro w within r w' hr
  rcases probe_cases hr with ⟨v, rfl, gives⟩ | ⟨rfl, aborts | poison⟩ | ⟨f, rfl, -⟩
  · rcases h w within _ _ gives.1 with ⟨f, fault⟩ | ⟨within', value⟩
    · simp at fault
    · exact .inr ⟨_, rfl, fun u hu => value u (by simpa using hu), within'⟩
  · rcases h w within _ _ aborts with ⟨f, fault⟩ | ⟨within', -⟩
    · simp at fault
    · exact .inr ⟨_, rfl, fun u hu => by simp at hu, within'⟩
  · rcases h w within _ _ poison with ⟨f, fault⟩ | ⟨within', -⟩
    · simp at fault
    · exact .inr ⟨_, rfl, fun u hu => by simp at hu, within'⟩
  · exact .inl ⟨f, rfl⟩

theorem contained_tooDeep : (tooDeep : Act α).Contained Ts Q := by
  intro w _ r w' hr
  simp at hr

theorem contained_remark (r : Remark) : (remark r).Contained Ts fun _ => True := by
  intro w within o w' hr
  obtain ⟨rfl, rfl⟩ : .ok () = o ∧ { w with remarks := r :: w.remarks } = w' := by simpa using hr
  exact .inr ⟨(), rfl, trivial, within⟩

theorem contained_refuse (requirement : Requirement) (v : Value) :
    (refuse requirement v : Act α).Contained Ts Q := by
  intro w _ r w' hr
  unfold refuse at hr
  rw [runIn_bind, runIn_classes] at hr
  dsimp only at hr
  -- The text of the value may be missing or be a fault of its own.
  cases text : v.write w.classes true <;> rw [text] at hr
  · obtain ⟨rfl, -⟩ := by simpa [ofFault, runIn_bind] using hr
    exact .inl ⟨_, rfl⟩
  · obtain ⟨rfl, -⟩ := by simpa [ofFault, runIn_bind] using hr
    exact .inl ⟨_, rfl⟩

/-- A computation whose members are contained up to each depth of calls is contained. -/
theorem Contained.limit {as : Nat → Act α} {a : Act α} (h : ∀ n, (as n).Contained Ts Q)
    (ha : Tends as a) : a.Contained Ts Q := by
  intro w within r w' hr
  obtain ⟨n, hn⟩ := ha.exists_runIn hr
  exact h n w within r w' hn

end Act

open Act

/-! ### Descriptors -/

variable {Ts : Tables} {call : Caller} {f d : Value}

theorem contained_replaceMember (c : ClassRef) (own : List (String × Value)) (n : String)
    (x : Value) :
    ((Value.descriptor c own).replaceMember n x).Contained Ts fun _ => True := by
  intro w within r w' hr
  rw [replaceMember_descriptor, Instance.runIn_replace] at hr
  cases copy : Instance.replaced w.classes c own n x <;> rw [copy] at hr
  · obtain ⟨rfl, -⟩ := by simpa using hr
    exact .inl ⟨_, rfl⟩
  · obtain ⟨rfl, rfl⟩ := by simpa using hr
    exact .inr ⟨_, rfl, trivial, within⟩

/-- Mapping over a descriptor is contained if the function is on what is at hand. The classes may
change from one item to the next. -/
theorem contained_fmap {Q : Value → Prop}
    (hC : ∀ T, Ts T → ∀ x, AtHand T d x → (call f [x]).Contained Ts Q) :
    (fmap call d f).Contained Ts fun _ => True := by
  intro w within
  unfold fmap
  split
  · have items := Contained.mapM fun x hx => hC w.classes within x (.item hx)
    exact (items.bind fun _ _ => contained_pure trivial) w within
  · rename_i c own
    split_ifs with effect
    · refine faultOr_slotOf.bind_containedFrom fun s w₁ slot same => ?_
      rw [← same] at within
      refine (faultOr_lookup s.name).bind_containedFrom fun x w₂ holds same' => ?_
      rw [← same'] at within
      cases kind : s.kind with
      | direct =>
        have atHand : AtHand w₂.classes (.descriptor c own) x := by
          rw [same', same] at *
          exact .content effect slot kind holds
        have filled := (hC _ within x atHand).bind fun y _ =>
          contained_replaceMember c own s.name y
        exact filled w₂ within
      | function n => exact contained_replaceMember _ _ _ _ w₂ within
    · exact contained_fail _ w within
  · exact contained_fail _ w within

theorem contained_erase (n : Nat) (d : Value) :
    (erase (Machine.call n) d).Contained Ts fun _ => True :=
  FaultOr.contained (fun _ _ => (faultOr_erase d).of_limit (tends_erase Machine.tends_limit d) n)
    fun _ _ _ => trivial

/-! ### Analyses and builders -/

/-- All class tables. -/
abbrev Tables.all : Tables := fun _ => True

/-- A walk takes its chances on probation, and leaves the rest to a call of its own. -/
theorem Analysis.contained_turn {c : Caller} {stepper : Value}
    (erases : ∀ d, (erase c d).Contained .all fun _ => True)
    (goesOn : ∀ trace next,
      (c (.frame (.analyze stepper trace)) [next]).Contained .all fun _ => True)
    (trace : List Value) (node : Value) :
    (walk c stepper trace node).Contained .all fun _ => True := by
  unfold walk
  split
  · exact (contained_remark _).bind fun _ _ => contained_pure trivial
  · refine (keeps_all _).probe.bind fun o _ => ?_
    split
    · exact contained_pure trivial
    · exact (contained_remark _).bind fun _ _ => contained_pure trivial
  · refine (erases _).bind fun e _ => (keeps_all _).probe.bind fun o _ => ?_
    split
    · exact goesOn _ _
    · exact (contained_remark _).bind fun _ _ => contained_pure trivial
  · exact contained_refuse _ _

/-- **An analysis never aborts**, whatever it walks and however it steps. -/
theorem Analysis.contained_walk (stepper : Value) (trace : List Value) (node : Value) :
    (walk limit stepper trace node).Contained .all fun _ => True := by
  have upTo : ∀ n trace node,
      (walk (Machine.call n) stepper trace node).Contained .all fun _ => True := by
    intro n
    induction n with
    | zero => exact contained_turn (contained_erase 0) fun _ _ => contained_tooDeep
    | succ n ih => exact contained_turn (contained_erase (n + 1)) ih
  exact .limit (fun n => upTo n trace node) (tends_walk Machine.tends_limit stepper trace node)

/-- A builder takes its chances on probation, and leaves the rest to calls of its own. -/
theorem Builder.contained_turn {c : Caller}
    (goesOn : ∀ queue node,
      (c (.frame (.materialize queue)) [node]).Contained .all fun _ => True)
    (queue : List Value) (node : Value) :
    (materialize c queue node).Contained .all fun _ => True := by
  unfold materialize
  split
  · exact contained_pure trivial
  · split
    · refine Contained.bind (Q := fun _ => True) ?_ fun b _ => ?_
      · -- Both the payload and the function are on probation.
        unfold next
        refine (keeps_all _).probe.bind fun o _ => ?_
        split
        · exact contained_pure trivial
        · refine (keeps_all _).probe.bind fun o' _ => ?_
          split
          · exact contained_pure trivial
          · exact contained_pure trivial
          · exact contained_pure trivial
          · exact contained_refuse _ _
      · split
        · exact contained_pure trivial
        · exact goesOn _ _
    · exact (contained_fmap fun _ _ x _ => goesOn _ x).bind fun _ _ => contained_pure trivial
    · exact contained_pure trivial

/-- **Building never aborts**, whatever the tree and the pending functions. -/
theorem Builder.contained_materialize (queue : List Value) (node : Value) :
    (materialize limit queue node).Contained .all fun _ => True := by
  have upTo : ∀ n queue node,
      (materialize (Machine.call n) queue node).Contained .all fun _ => True := by
    intro n
    induction n with
    | zero => exact contained_turn fun _ _ => contained_tooDeep
    | succ n ih => exact contained_turn ih
  exact .limit (fun n => upTo n queue node) (tends_materialize Machine.tends_limit queue node)

/-! ### Founded trees -/

/-- **Founded trees.** The items of lists and the contents of direct slots are trees, at every depth
and whichever of the tables says what the slots are. The payloads stay within the tables and give
values with the property, if they give any. -/
inductive Founded (Ts : Tables) (Q : Value → Prop) : Value → Prop where
  | failed : Founded Ts Q (.tree .failed)
  | done {p : Payload} (gives : (p.force limit).Keeps Ts Q) : Founded Ts Q (.tree (.done p))
  | suspended {d : Value} (atHand : ∀ T, Ts T → ∀ x, AtHand T d x → Founded Ts Q x) :
      Founded Ts Q (.tree (.suspended d))

/-- The function stays within the tables on the argument. -/
def StaysOn (Ts : Tables) (f v : Value) : Prop := (limit f [v]).Keeps Ts fun _ => True

variable {P Q : Value → Prop} {t u : Value} {k : Frame}

theorem Founded.mono (hPQ : ∀ v, P v → Q v) (h : Founded Ts P t) : Founded Ts Q t := by
  induction h with
  | failed => exact .failed
  | done gives => exact .done (gives.mono hPQ)
  | suspended _ ih => exact .suspended ih

/-- A frame that goes through trees is contained on founded trees if it is on finished ones. -/
theorem Founded.contained (hk : k.Traverses)
    (leaf : ∀ p : Payload, (p.force limit).Keeps Ts Q →
      (k.run limit (.tree (.done p))).Contained Ts fun _ => True) (h : Founded Ts Q t) :
    (limit (.frame k) [t]).Contained Ts fun _ => True := by
  induction h with
  | failed =>
    rw [Machine.limit_frame, hk.failed]
    exact contained_pure trivial
  | done gives =>
    rw [Machine.limit_frame]
    exact leaf _ gives
  | suspended _ ih =>
    rw [Machine.limit_frame, hk.suspended]
    exact (contained_fmap ih).bind fun _ _ => contained_pure trivial

theorem contained_guarded {a : Act Value} (h : a.Keeps Ts Q) :
    (guarded a).Contained Ts fun _ => True :=
  h.probe.bind fun _ _ => contained_pure trivial

/-- To finish with a result stays where the result is computed. -/
theorem keeps_finish {a : Act Value} (h : a.Keeps Ts Q) :
    (do return .tree (Tree.pure (← a)) : Act Value).Keeps Ts fun _ => True := by
  intro w within r w' hr
  rw [runIn_bind] at hr
  cases hx : a.runIn w with
  | none => simp [hx] at hr
  | some x =>
    obtain ⟨s, w₁⟩ := x
    have stays := h w within s w₁ hx
    rw [hx] at hr
    match s with
    | .error s =>
      obtain ⟨rfl, rfl⟩ : .error s = r ∧ w₁ = w' := by simpa using hr
      exact stays.imp (fun ⟨f, fault⟩ => ⟨f, by simpa using fault⟩)
        fun stays => ⟨stays.1, fun _ _ => trivial⟩
    | .ok v =>
      obtain ⟨rfl, rfl⟩ : .ok (.tree (Tree.pure v)) = r ∧ w₁ = w' := by simpa using hr
      rcases stays with ⟨f, fault⟩ | stays
      · simp at fault
      · exact .inr ⟨stays.1, fun _ _ => trivial⟩

/-- **Mapping never aborts** on a founded tree. -/
theorem Founded.map (h : Founded Ts (StaysOn Ts f) t) :
    (limit (.frame (.map f)) [t]).Contained Ts fun _ => True := by
  refine h.contained (Frame.traverses_map f) fun p gives => ?_
  refine gives.probe.bind fun o stays => ?_
  match o with
  | none => exact contained_pure trivial
  | some v => exact contained_guarded (keeps_finish (stays v rfl))

/-- **Binding never aborts** on a founded tree. -/
theorem Founded.bind (h : Founded Ts (StaysOn Ts f) t) :
    (limit (.frame (.bind f)) [t]).Contained Ts fun _ => True := by
  refine h.contained (Frame.traverses_bind f) fun p gives => ?_
  refine gives.probe.bind fun o stays => ?_
  match o with
  | none => exact contained_pure trivial
  | some v => exact contained_guarded (stays v rfl)

/-- **Applying never aborts** on founded trees. -/
theorem Founded.ap (h : Founded Ts (fun g => ∀ v, StaysOn Ts g v) t)
    (hu : Founded Ts (fun _ => True) u) :
    (limit (.frame (.ap u)) [t]).Contained Ts fun _ => True := by
  refine h.contained (Frame.traverses_ap u) fun p gives => ?_
  cases hu with
  | failed => exact contained_pure trivial
  | @done q gives' =>
    refine gives.probe.bind fun o stays => gives'.probe.bind fun o' _ => ?_
    match o, o' with
    | some g, some v => exact contained_guarded (keeps_finish (stays g rfl v))
    | none, _ | some _, none => exact contained_pure trivial
  | @suspended d atHand =>
    refine gives.probe.bind fun o stays => ?_
    match o with
    | none => exact contained_pure trivial
    | some g =>
      -- What is at hand in the argument is mapped with the function that the payload gives.
      have mapped : ∀ T, Ts T → ∀ x, AtHand T d x →
          (limit (.frame (.map g)) [x]).Contained Ts fun _ => True := fun T within x hx =>
        ((atHand T within x hx).mono fun v _ => stays g rfl v).map
      exact (contained_fmap mapped).bind fun _ _ => contained_pure trivial

end EffectTrees
