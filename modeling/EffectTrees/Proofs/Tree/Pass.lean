import EffectTrees.Proofs.Tree.Similar

/-!
# Passes

A *pass* works on a tree from its root to the leaves: it leaves a failed tree alone, works on what is
at hand in a suspended one, and puts itself behind function slots, to work there when these are
called. To leave a tree alone altogether is a pass, to map and to bind are passes, and so are two
passes, one after the other.

Passes differ in what they make of finished trees. If two passes make similar trees of all finished
trees, they make similar trees of all sound ones (`Pass.exists_similar`).
-/

namespace EffectTrees

open Machine (limit)

variable {T : ClassTable}

/-- A way to work on trees. It `Gives` one tree for another, which the computation `run` yields, and
it works on what a function gives once the function is `behind` it. -/
structure Pass (T : ClassTable) where
  run : Value → Act Value
  behind : Value → Value
  Gives : Value → Value → Prop
  yields : ∀ {t u}, Gives t u → (run t).Yields T u
  failed : Gives (.tree .failed) (.tree .failed)
  /-- The pass works on a suspended tree by working on what is at hand in it. -/
  suspended : ∀ {d}, Fillable T d → (∀ x, AtHand T d x → ∃ y, Gives x y) →
    ∃ d', Gives (.tree (.suspended d)) (.tree (.suspended d')) ∧ Fillable T d' ∧
      Renews T Gives (fun _ g g' => g' = behind g) d d'
  /-- There is nothing to work on in the unknown argument. -/
  poison : (probe (run .poison)).Yields T none
  limit_behind : ∀ g args, limit (behind g) args = limit g args >>= run

namespace Pass

variable {P Q : Pass T} {t u u' : Value}

theorem unique (h : P.Gives t u) (h' : P.Gives t u') : u = u' := (P.yields h).unique (P.yields h')

/-! ### The passes -/

/-- The pass that leaves trees alone. -/
def stay (T : ClassTable) : Pass T where
  run := pure
  behind := id
  Gives := Eq
  yields := by
    rintro t _ rfl
    exact Act.yields_pure t
  failed := rfl
  suspended := fun fillable _ => ⟨_, rfl, fillable, Renews.refl fillable |>.mono
    (fun _ _ _ same => same) fun _ _ _ _ same => same.symm⟩
  poison := Act.yields_probe_poison
  limit_behind := fun g args => (bind_pure (limit g args)).symm

/-- The pass of a frame that goes through trees, unless it finds the unknown argument. -/
noncomputable def ofFrame (T : ClassTable) (k : Frame) (hk : k.Traverses)
    (poison : ∀ call, k.run call .poison = Act.abort) : Pass T where
  run v := k.run limit v
  behind g := .after (.frame k) g
  Gives t u := (k.run limit t).Yields T u
  yields := id
  failed := by
    rw [hk.failed]
    exact Act.yields_pure _
  suspended := by
    intro d fillable contents
    obtain ⟨d', refills⟩ := Refills.exists_of_fillable fillable (.after (.frame k)) contents
    refine ⟨d', ?_, refills.fillable_right, .of_refills refills⟩
    rw [hk.suspended]
    refine (refills.yields_fmap fun x y hxy => ?_).bind (Act.yields_pure _)
    rw [Machine.limit_frame]
    exact hxy
  poison := by
    rw [poison]
    exact Act.yields_probe_abort
  limit_behind := by
    intro g args
    rw [Value.after, Machine.limit_after]
    exact congrArg _ (funext fun v => Machine.limit_frame k v)

/-- Two passes, one after the other. -/
def andThen (P Q : Pass T) : Pass T where
  run v := P.run v >>= Q.run
  behind g := Q.behind (P.behind g)
  Gives := Relation.Comp P.Gives Q.Gives
  yields := by
    rintro t u ⟨v, first, second⟩
    exact (P.yields first).bind (Q.yields second)
  failed := ⟨_, P.failed, Q.failed⟩
  suspended := by
    intro d fillable contents
    obtain ⟨d₁, first, fillable₁, renews⟩ := P.suspended fillable fun x hx => by
      obtain ⟨z, y, hxy, -⟩ := contents x hx
      exact ⟨y, hxy⟩
    obtain ⟨d₂, second, fillable₂, renews'⟩ := Q.suspended fillable₁ fun y hy => by
      -- What is at hand now is what the first pass gave.
      obtain ⟨x, hx, hxy⟩ := renews.atHand_right hy
      obtain ⟨z, y', hxy', hyz⟩ := contents x hx
      obtain rfl := P.unique hxy hxy'
      exact ⟨z, hyz⟩
    refine ⟨d₂, ⟨_, first, second⟩, fillable₂, (renews.comp renews').mono (fun _ _ _ h => h) ?_⟩
    rintro n g g'' - ⟨g', rfl, rfl⟩
    rfl
  poison := Act.yields_probe_bind_none P.poison Q.poison
  limit_behind := by
    intro g args
    rw [Q.limit_behind, P.limit_behind, bind_assoc]

/-! ### Similar passes -/

/-- Two passes make similar trees of finished ones. -/
def Agree (P Q : Pass T) : Prop :=
  ∀ (p : Payload) (o : Ending Value), (p.force limit).Settles T o → o.Answers →
    ∃ r r', P.Gives (.tree (.done p)) r ∧ Q.Gives (.tree (.done p)) r' ∧ Similar T r r'

theorem exists_gives (agree : P.Agree Q) (ht : Ready T True t) :
    ∃ r r', P.Gives t r ∧ Q.Gives t r' := by
  induction ht with
  | failed => exact ⟨_, _, P.failed, Q.failed⟩
  | done settles answers =>
    obtain ⟨r, r', left, right, -⟩ := agree _ _ settles (answers trivial)
    exact ⟨r, r', left, right⟩
  | suspended atHand fillable ih =>
    obtain ⟨d₁, left, -⟩ := P.suspended (fillable trivial) fun x hx => by
      obtain ⟨r, r', left, -⟩ := ih x hx
      exact ⟨r, left⟩
    obtain ⟨d₂, right, -⟩ := Q.suspended (fillable trivial) fun x hx => by
      obtain ⟨r, r', -, right⟩ := ih x hx
      exact ⟨r', right⟩
    exact ⟨_, _, left, right⟩

/-- What two passes give for the same sound tree. -/
def Common (P Q : Pass T) (r r' : Value) : Prop :=
  ∃ t, Sound T True t ∧ P.Gives t r ∧ Q.Gives t r'

/-- Similar values are trees. -/
theorem known_of_similar (h : Similar T t u) : t.isPoison = false ∧ u.isPoison = false := by
  have known : ∀ {t}, Hopeless T t → t.isPoison = false := by
    intro t hopeless
    cases hopeless <;> rfl
  cases h.step with
  | hopeless left right => exact ⟨known left, known right⟩
  | done left right => exact ⟨rfl, rfl⟩
  | suspended renews => exact ⟨rfl, rfl⟩

/-- What two passes that agree give for the same sound tree is similar, or it is suspended and
renews what the tree is suspended on. -/
theorem Common.cases (agree : P.Agree Q) {r r' : Value} (h : Common P Q r r') :
    Similar T r r' ∨ ∃ d d₁ d₂, Sound T True (.tree (.suspended d)) ∧
      r = .tree (.suspended d₁) ∧ r' = .tree (.suspended d₂) ∧
      Renews T P.Gives (fun _ g g' => g' = P.behind g) d d₁ ∧
      Renews T Q.Gives (fun _ g g' => g' = Q.behind g) d d₂ := by
  obtain ⟨t, sound, left, right⟩ := h
  cases sound.step with
  | failed =>
    obtain rfl := P.unique left P.failed
    obtain rfl := Q.unique right Q.failed
    exact .inl (.of_step (.hopeless .failed .failed))
  | done settles answers =>
    obtain ⟨u, u', left', right', similar⟩ := agree _ _ settles (answers trivial)
    obtain rfl := P.unique left left'
    obtain rfl := Q.unique right right'
    exact .inl similar
  | @suspended d atHand behind fillable =>
    have contents : ∀ x, AtHand T d x → ∃ y z, P.Gives x y ∧ Q.Gives x z :=
      fun x hx => exists_gives agree (atHand x hx).ready
    obtain ⟨d₁, left', -, renews⟩ := P.suspended (fillable trivial) fun x hx => by
      obtain ⟨y, z, hxy, -⟩ := contents x hx
      exact ⟨y, hxy⟩
    obtain ⟨d₂, right', -, renews'⟩ := Q.suspended (fillable trivial) fun x hx => by
      obtain ⟨y, z, -, hxz⟩ := contents x hx
      exact ⟨z, hxz⟩
    exact .inr ⟨d, d₁, d₂, sound, P.unique left left', Q.unique right right', renews, renews'⟩

theorem Common.known (agree : P.Agree Q) {r r' : Value} (h : Common P Q r r') :
    r.isPoison = false ∧ r'.isPoison = false := by
  rcases h.cases agree with similar | ⟨d, d₁, d₂, -, rfl, rfl, -⟩
  · exact known_of_similar similar
  · exact ⟨rfl, rfl⟩

/-- Behind a function slot the passes work on what the function gives, if it gives a tree. -/
theorem alikeBehind (agree : P.Agree Q) {n : Nat} {g : Value}
    (hg : ∀ args, ∃ o, (limit g args).Settles T o ∧ (args.length = n → o.Answers) ∧
      ∀ v, o = some (.ok v) → v = .poison ∨ Sound T True v) :
    AlikeBehind T (Common P Q) n (P.behind g) (Q.behind g) := by
  intro args
  obtain ⟨o, settles, answers, values⟩ := hg args
  rw [P.limit_behind, Q.limit_behind]
  rcases settles.cases with ⟨v, rfl, known, yields⟩ | nothing | ⟨unanswered, lost⟩
  · have sound : Sound T True v := by
      rcases values v rfl with rfl | sound
      · simp [Value.isPoison] at known
      · exact sound
    obtain ⟨r, r', left, right⟩ := exists_gives agree sound.ready
    have common : Common P Q r r' := ⟨v, sound, left, right⟩
    obtain ⟨known, known'⟩ := common.known agree
    exact .values (yields.bind (P.yields left)) (yields.bind (Q.yields right)) known known' common
  · exact .nothing (Act.yields_probe_bind_none nothing P.poison)
      (Act.yields_probe_bind_none nothing Q.poison)
  · exact .lost (fun length => unanswered (answers length)) (lost.bind _) (lost.bind _)

/-- **Passes that agree on finished trees give similar trees** for every sound tree. What they have
given for common trees, and what is similar, is its own justification. -/
theorem exists_similar (agree : P.Agree Q) (ht : Sound T True t) :
    ∃ r r', P.Gives t r ∧ Q.Gives t r' ∧ Similar T r r' := by
  obtain ⟨r, r', left, right⟩ := exists_gives agree ht.ready
  refine ⟨r, r', left, right, fun r r' => Common P Q r r' ∨ Similar T r r', ?_,
    .inl ⟨t, ht, left, right⟩⟩
  rintro r r' (common | similar)
  · rcases common.cases agree with similar | ⟨d, d₁, d₂, sound, rfl, rfl, renews, renews'⟩
    · exact similar.step.mono fun _ _ h => .inr h
    · cases sound.step with
      | suspended atHand behind fillable =>
        refine .suspended (renews.fork renews' (fun x y z hx hxy hxz => ?_) ?_)
        · exact .inl ⟨x, atHand x hx, hxy, hxz⟩
        · rintro n g _ _ hg rfl rfl args
          refine (alikeBehind agree (fun args => ?_) args).mono fun _ _ h => .inl h
          obtain ⟨o, settles, answers, values⟩ := behind n g hg args
          exact ⟨o, settles, answers trivial, values⟩
  · exact similar.step.mono fun _ _ h => .inr h

end Pass

/-- A sound tree is similar to itself. -/
theorem Sound.similar {t : Value} (h : Sound T True t) : Similar T t t := by
  have agree : (Pass.stay T).Agree (Pass.stay T) := by
    intro p o settles answers
    refine ⟨_, _, rfl, rfl, .of_step ?_⟩
    rcases resolve_cases settles with ⟨v, value⟩ | nothing | ⟨unanswered, -⟩
    · exact .done value value
    · exact .hopeless (.done nothing) (.done nothing)
    · exact absurd answers unanswered
  obtain ⟨r, r', rfl, rfl, similar⟩ := Pass.exists_similar agree h
  exact similar

end EffectTrees
