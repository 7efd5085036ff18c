import EffectTrees.Proofs.Builder.Materialize

/-!
# A chain of binds

Binding a function directly to a tree replaces each finished tree by what the function makes of its
content. Here the function `g` that is bound is related to a continuation `f`: it gives what `f`
gives, with the tree that a builder builds in the place of the builder (`Builder.Rebuilds`). So a
bind comes to the graft whose leaves are built by what `f` goes on with (`Builder.Leaf`), and a
chain of binds comes to a chain of grafts, `Builder.Chain`:

* `Builder.Chain.yields` — the binds, one after the other, give what the chain says;
* `Builder.faultOr_chain` — on a tree that is ready they come to nothing else, unless they fail;
* `Builder.Chain.of_suspended` — on a suspended tree the chain runs in the slots.
-/

namespace EffectTrees

open Machine (limit)

namespace Builder

variable {T : ClassTable} {total : Prop} {f g : Value} {fs gs : List Value}

/-- A builder is built, and anything else is left as it is. -/
def rebuilt (call : Caller) (r : Value) : Act Value :=
  match r with
  | .builder b => b.build call
  | _ => Pure.pure r

/-- The function `g` gives what `f` gives, with the tree that it builds in the place of a builder.
-/
def Rebuilds (T : ClassTable) (f g : Value) : Prop :=
  ∀ v, Act.EndsAs T (limit g [v]) (limit f [v] >>= rebuilt limit)

/-! ### Leaves -/

/-- What becomes of a finished tree with the payload `p`. -/
inductive Leaf (T : ClassTable) (f : Value) (p : Payload) : Value → Prop where
  | stop (noNext : Next T p f none) : Leaf T f p (.tree .failed)
  | next {b : Builder} {r : Value} (goesOn : Next T p f (some b))
      (built : Materialized T (b.queueBefore []) b.tree r) (known : r.isPoison = false) :
      Leaf T f p r

theorem Rebuilds.yields_probe_none (h : Rebuilds T f g) {v : Value}
    (nothing : (probe (limit f [v])).Yields T none) : (probe (limit g [v])).Yields T none :=
  (h v).yields_probe_none (Act.yields_probe_bind_none nothing Act.yields_probe_poison)

/-- A bind makes the leaf of a finished tree. -/
theorem Leaf.yields (h : Rebuilds T f g) {p : Payload} {r : Value} (leaf : Leaf T f p r) :
    ((Tree.done p).bind limit g).Yields T r := by
  cases leaf with
  | stop noNext =>
    cases noNext with
    | noValue value => exact value.bind (Act.yields_pure _)
    | noResult value result => exact value.bind (guarded_none (h.yields_probe_none result))
  | next goesOn built known =>
    cases goesOn with
    | @tree v t value result =>
      refine value.bind (guarded_known ((h v).yields (result.bind ?_)) known)
      cases built
      exact Act.yields_pure _
    | @builder v b value result =>
      exact value.bind (guarded_known ((h v).yields (result.bind built.yields)) known)

/-- A bind makes nothing else of a finished tree, unless it fails. -/
theorem faultOr_leaf (h : Rebuilds T f g) (hf : Continuation T total f) {p : Payload}
    {o : Ending Value} (settles : (p.force limit).Settles T o) :
    ((Tree.done p).bind limit g).FaultOr T (Leaf T f p) := by
  rcases resolve_cases settles with ⟨v, value⟩ | nothing | ⟨-, lost⟩
  · refine (value.faultOr rfl).bind fun r hr => ?_
    subst hr
    obtain ⟨o', settles', -, returns⟩ := hf.step v
    rcases settles'.cases with ⟨r, rfl, known, result⟩ | nothing | ⟨-, lost⟩
    · cases returns r rfl with
      | poison => simp [Value.isPoison] at known
      | @tree t sound =>
        have hg := guarded_known ((h v).yields (result.bind (Act.yields_pure _))) known
        exact hg.faultOr (.next (.tree value result) (.nil _) known)
      | @builder b sound pending =>
        -- The builder is built while `g` is on probation, so what it builds has to be known.
        have hb : Continuations T total (b.queueBefore []) :=
          .queueBefore pending fun _ hq => by simp at hq
        have built : (limit g [v]).FaultOr T (Materialized T (b.queueBefore []) b.tree) :=
          (h v).faultOr ((result.faultOr rfl).bind fun r hr =>
            hr ▸ faultOr_materialize hb sound.ready)
        have isKnown (r) (hr : Materialized T (b.queueBefore []) b.tree r) : r.isPoison = false :=
          (hr.ready hb sound.ready).known
        exact (faultOr_guarded built isKnown).mono fun r hr =>
          .next (.builder value result) hr (isKnown r hr)
    · exact (guarded_none (h.yields_probe_none nothing)).faultOr (.stop (.noResult value nothing))
    · exact (((h v).lost (lost.bind _)).probe.bind _).faultOr
  · exact (nothing.faultOr rfl).bind fun r hr => hr ▸ Act.faultOr_pure (.stop (.noValue nothing))
  · exact (lost.bind _).faultOr

/-! ### Chains -/

/-- The bind of one function comes to the graft of its leaves. -/
abbrev Bound (T : ClassTable) (f g : Value) : Value → Value → Prop :=
  Grafts T (.bind g) (Leaf T f)

/-- The last tree is what the binds of the functions come to, one after the other. -/
inductive Chain (T : ClassTable) : List Value → List Value → Value → Value → Prop where
  | nil (t : Value) : Chain T [] [] t t
  | cons {f g : Value} {fs gs : List Value} {t u r : Value} (bound : Bound T f g t u)
      (rest : Chain T fs gs u r) : Chain T (f :: fs) (g :: gs) t r

/-- The binds of several functions, one after the other. -/
def bindAll (call : Caller) (gs : List Value) (t : Value) : Act Value :=
  gs.foldlM (fun u g => u.invoke call .bind [g]) t

theorem bindAll_cons (call : Caller) (g : Value) (gs : List Value) (t : Value) :
    bindAll call (g :: gs) t = t.invoke call .bind [g] >>= bindAll call gs := by
  unfold bindAll
  rw [List.foldlM_cons]

theorem Chain.yields {t r : Value} (h : Chain T fs gs t r)
    (hgs : List.Forall₂ (Rebuilds T) fs gs) : (bindAll limit gs t).Yields T r := by
  induction h with
  | nil t => exact Act.yields_pure t
  | @cons f g fs gs t u r bound rest ih =>
    cases hgs with
    | cons hg hgs =>
      rw [bindAll_cons]
      have yields := bound.yields (Frame.traverses_bind g) fun p r leaf => leaf.yields hg
      rw [Machine.limit_frame] at yields
      exact yields.bind (ih hgs)

theorem Leaf.ready (hf : Continuation T total f) {p : Payload} {r : Value} (leaf : Leaf T f p r) :
    Ready T total r := by
  cases leaf with
  | stop noNext => exact .failed
  | next goesOn built known =>
    obtain ⟨sound, hbuilt⟩ := goesOn.continuations hf.singleton
    exact built.ready hbuilt sound.ready

theorem faultOr_chain (hgs : List.Forall₂ (Rebuilds T) fs gs) (hfs : Continuations T total fs)
    {t : Value} (ht : Ready T total t) : (bindAll limit gs t).FaultOr T (Chain T fs gs t) := by
  induction hgs generalizing t with
  | nil => exact Act.faultOr_pure (.nil t)
  | @cons f g fs gs hg _ ih =>
    rw [bindAll_cons]
    have hf := hfs f List.mem_cons_self
    have bound := ht.faultOr_graft (Frame.traverses_bind g) fun p o settles =>
      faultOr_leaf hg hf settles
    rw [Machine.limit_frame] at bound
    refine bound.bind fun u hu => ?_
    exact (ih hfs.tail (hu.ready fun p r leaf => leaf.ready hf)).mono fun r hr => .cons hu hr

theorem Chain.ready (hfs : Continuations T total fs) {t r : Value} (ht : Ready T total t)
    (h : Chain T fs gs t r) : Ready T total r := by
  induction h with
  | nil t => exact ht
  | @cons f g fs gs t u r bound rest ih =>
    refine ih hfs.tail (bound.ready fun p r leaf => ?_)
    exact leaf.ready (hfs f List.mem_cons_self)

/-! ### Chains on failed and on suspended trees -/

theorem Chain.failed (h : fs.length = gs.length) :
    Chain T fs gs (.tree .failed) (.tree .failed) := by
  induction fs generalizing gs with
  | nil =>
    obtain rfl := List.length_eq_zero_iff.mp h.symm
    exact .nil _
  | cons f fs ih =>
    cases gs with
    | nil => simp at h
    | cons g gs => exact .cons .failed (ih (by simpa using h))

theorem Chain.of_failed {r : Value} (h : Chain T fs gs (.tree .failed) r) : r = .tree .failed := by
  generalize ht : Value.tree .failed = t at h
  induction h with
  | nil t => rfl
  | cons bound rest ih =>
    subst ht
    obtain rfl := bound.of_failed
    exact ih rfl

/-- If the chain comes to something on each content at hand, it does so on the suspended tree. -/
theorem Chain.exists_suspended {d : Value} (h : fs.length = gs.length) (fillable : Fillable T d)
    (each : ∀ x, AtHand T d x → ∃ y, Chain T fs gs x y) :
    ∃ r, Chain T fs gs (.tree (.suspended d)) r := by
  induction fs generalizing gs d with
  | nil =>
    obtain rfl := List.length_eq_zero_iff.mp h.symm
    exact ⟨_, .nil _⟩
  | cons f fs ih =>
    cases gs with
    | nil => simp at h
    | cons g gs =>
      -- The first function is bound to all contents before the others are bound to any.
      have first : ∀ x, AtHand T d x → ∃ u, Bound T f g x u ∧ ∃ y, Chain T fs gs u y := by
        intro x hx
        obtain ⟨y, hy⟩ := each x hx
        cases hy with
        | cons bound rest => exact ⟨_, bound, y, rest⟩
      obtain ⟨d', refills⟩ := Refills.exists_of_fillable fillable (.after (.frame (.bind g))) first
      obtain ⟨r, hr⟩ := ih (by simpa using h) refills.fillable_right fun u hu => by
        obtain ⟨x, -, -, hy⟩ := refills.atHand_right hu
        exact hy
      exact ⟨r, .cons (.suspended (fun x y hxy => hxy.1) refills) hr⟩

/-- The function of a function slot with several binds behind it. -/
def bindsAfter (gs : List Value) (h : Value) : Value :=
  gs.foldl (fun h g => .after (.frame (.bind g)) h) h

/-- On a suspended tree the chain runs in the slots. -/
theorem Chain.of_suspended {d r : Value} (h : Chain T fs gs (.tree (.suspended d)) r) :
    (gs = [] ∧ r = .tree (.suspended d)) ∨
      ∃ d', r = .tree (.suspended d') ∧ Refills T (Chain T fs gs) (bindsAfter gs) d d' := by
  generalize ht : Value.tree (.suspended d) = t at h
  induction h generalizing d with
  | nil t => exact .inl ⟨rfl, rfl⟩
  | @cons f g fs gs t u r bound rest ih =>
    subst ht
    obtain ⟨d₁, rfl, refills⟩ := bound.of_suspended
    refine .inr ?_
    -- The first bind refills the descriptor, and the others refill the outcome again.
    rcases ih rfl with ⟨rfl, rfl⟩ | ⟨d', rfl, refills'⟩
    · cases rest
      exact ⟨d₁, rfl, refills.mono fun x y _ hxy => .cons hxy (.nil y)⟩
    · refine ⟨d', rfl, (refills.comp refills').mono fun x y _ hxy => ?_⟩
      obtain ⟨u, hu, hy⟩ := hxy
      exact .cons hu hy

/-- Calling such a function runs the binds on what the function gives. -/
theorem limit_bindsAfter (gs : List Value) (h : Value) (args : List Value) :
    limit (bindsAfter gs h) args = limit h args >>= bindAll limit gs := by
  induction gs generalizing h with
  | nil => exact (bind_pure _).symm
  | cons g gs ih =>
    change limit (bindsAfter gs (.after (.frame (.bind g)) h)) args = _
    rw [ih, Value.after, Machine.limit_after, bind_assoc]
    refine congrArg _ (funext fun v => ?_)
    rw [Machine.limit_frame, bindAll_cons]
    rfl

end Builder

end EffectTrees
