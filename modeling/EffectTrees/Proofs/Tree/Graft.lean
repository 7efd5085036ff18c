import EffectTrees.Proofs.Tree.Sound

/-!
# Grafts

Several operations go through a tree in the same way: they leave a failed tree alone, do their work
on the payload of a finished tree, and map themselves over the slots of a suspended one. What such
an operation comes to is its *graft* (`Grafts`), given what it makes of the payloads of finished
trees: the contents at hand are grafted, and behind a function slot stands the operation itself.

* `Grafts.yields` — the operation gives its graft, if it makes the leaves of finished trees;
* `Ready.faultOr_graft` — on a tree that is ready it comes to nothing else, unless it fails.
-/

namespace EffectTrees

open Machine (limit)

variable {T : ClassTable} {total : Prop} {k : Frame} {leaf : Payload → Value → Prop}

/-! ### What becomes of finished trees -/

/-- The computation of a payload that settles gives its content, or nothing, or is lost. -/
theorem resolve_cases {p : Payload} {o : Ending Value} (h : (p.force limit).Settles T o) :
    (∃ v, (p.resolve limit).Yields T (some v)) ∨ (p.resolve limit).Yields T none ∨
      (¬ o.Answers ∧ (p.resolve limit).Lost T) := by
  rcases h.cases with ⟨v, -, known, yields⟩ | nothing | ⟨noAnswer, lost⟩
  · exact .inl ⟨v, yields.probe known⟩
  · exact .inr (.inl nothing)
  · exact .inr (.inr ⟨noAnswer, lost.probe⟩)

theorem guarded_none {a : Act Value} (h : (probe a).Yields T none) :
    (guarded a).Yields T (.tree .failed) := h.bind (Act.yields_pure _)

theorem guarded_known {a : Act Value} {v : Value} (h : a.Yields T v) (known : v.isPoison = false) :
    (guarded a).Yields T v := (h.probe known).bind (Act.yields_pure _)

theorem faultOr_guarded {a : Act Value} {Q : Value → Prop} (h : a.FaultOr T Q)
    (known : ∀ v, Q v → v.isPoison = false) : (guarded a).FaultOr T Q := by
  refine (h.probe known).bind fun r hr => ?_
  obtain ⟨v, rfl, hv⟩ := hr
  exact Act.faultOr_pure hv

/-- Probation does not matter to what gives known values and does not abort. -/
theorem endsAs_guarded {a b : Act Value} {Q : Value → Prop} (same : Act.EndsAs T a b)
    (hb : b.FaultOr T Q) (known : ∀ v, Q v → v.isPoison = false) :
    Act.EndsAs T (guarded a) b := by
  intro w hw
  rw [← same w hw]
  unfold guarded
  rw [Act.runIn_bind, runIn_probe]
  match run : a.runIn w with
  | none => rfl
  | some (.error (.fault f), w') => rfl
  | some (.ok v, w') =>
    obtain ⟨f, hf⟩ | ⟨u, hu, hQ, -⟩ := same.faultOr hb w hw _ _ run
    · simp at hf
    · obtain rfl := Except.ok.inj hu
      simp [Ending.onProbation, known v hQ]
  | some (.error .abort, w') =>
    obtain ⟨f, hf⟩ | ⟨u, hu, -⟩ := same.faultOr hb w hw _ _ run
    · simp at hf
    · simp at hu

/-! ### Grafts -/

/-- The frame goes through trees: it leaves a failed tree alone and maps itself over the slots of a
suspended one. -/
structure Frame.Traverses (k : Frame) : Prop where
  failed : ∀ call, k.run call (.tree .failed) = Pure.pure (.tree .failed)
  suspended : ∀ call d, k.run call (.tree (.suspended d)) =
    fmap call d (.frame k) >>= fun d' => Pure.pure (.tree (.suspended d'))

/-- The second tree is the first one with leaves in the place of finished trees. -/
inductive Grafts (T : ClassTable) (k : Frame) (leaf : Payload → Value → Prop) :
    Value → Value → Prop where
  | failed : Grafts T k leaf (.tree .failed) (.tree .failed)
  | done {p : Payload} {r : Value} (atLeaf : leaf p r) : Grafts T k leaf (.tree (.done p)) r
  | suspended {C : Value → Value → Prop} {d d' : Value}
      (contents : ∀ x y, C x y → Grafts T k leaf x y)
      (refills : Refills T C (.after (.frame k)) d d') :
      Grafts T k leaf (.tree (.suspended d)) (.tree (.suspended d'))

theorem Grafts.yields (hk : k.Traverses)
    (hleaf : ∀ p r, leaf p r → (k.run limit (.tree (.done p))).Yields T r) {t r : Value}
    (h : Grafts T k leaf t r) : (limit (.frame k) [t]).Yields T r := by
  induction h with
  | failed =>
    rw [Machine.limit_frame, hk.failed]
    exact Act.yields_pure _
  | done atLeaf =>
    rw [Machine.limit_frame]
    exact hleaf _ _ atLeaf
  | suspended contents refills ih =>
    rw [Machine.limit_frame, hk.suspended]
    exact (refills.yields_fmap ih).bind (Act.yields_pure _)

/-- The induction is on what is at hand in the tree. -/
theorem Ready.faultOr_graft (hk : k.Traverses)
    (hleaf : ∀ p o, (p.force limit).Settles T o →
      (k.run limit (.tree (.done p))).FaultOr T (leaf p)) {t : Value} (h : Ready T total t) :
    (limit (.frame k) [t]).FaultOr T (Grafts T k leaf t) := by
  induction h with
  | failed =>
    rw [Machine.limit_frame, hk.failed]
    exact Act.faultOr_pure .failed
  | @done p o settles ends =>
    rw [Machine.limit_frame]
    exact (hleaf p o settles).mono fun r hr => .done hr
  | @suspended d atHand fillable ih =>
    rw [Machine.limit_frame, hk.suspended]
    exact (faultOr_fmap ih).bind fun d' refills =>
      Act.faultOr_pure (.suspended (fun _ _ h => h) refills)

/-- Through a suspended tree one comes to a suspended tree. -/
theorem Grafts.of_suspended {d r : Value} (h : Grafts T k leaf (.tree (.suspended d)) r) :
    ∃ d', r = .tree (.suspended d') ∧ Refills T (Grafts T k leaf) (.after (.frame k)) d d' := by
  cases h with
  | suspended contents refills => exact ⟨_, rfl, refills.mono fun x y _ hxy => contents x y hxy⟩

theorem Grafts.of_failed {r : Value} (h : Grafts T k leaf (.tree .failed) r) :
    r = .tree .failed := by
  cases h
  rfl

/-- A graft onto a tree that is ready is ready if its leaves are. -/
theorem Grafts.ready (hleaf : ∀ p r, leaf p r → Ready T total r) {t r : Value}
    (h : Grafts T k leaf t r) : Ready T total r := by
  induction h with
  | failed => exact .failed
  | done atLeaf => exact hleaf _ _ atLeaf
  | suspended contents refills ih =>
    refine .suspended (fun y hy => ?_) fun _ => refills.fillable_right
    -- What is at hand in the graft is the graft of something at hand in the tree.
    obtain ⟨x, -, hxy⟩ := refills.atHand_right hy
    exact ih x y hxy

theorem Frame.traverses_bind (f : Value) : (Frame.bind f).Traverses :=
  ⟨fun _ => rfl, fun _ _ => rfl⟩

theorem Frame.traverses_map (f : Value) : (Frame.map f).Traverses :=
  ⟨fun _ => rfl, fun _ _ => rfl⟩

theorem Frame.traverses_ap (u : Value) : (Frame.ap u).Traverses :=
  ⟨fun _ => rfl, fun _ _ => rfl⟩

end EffectTrees
