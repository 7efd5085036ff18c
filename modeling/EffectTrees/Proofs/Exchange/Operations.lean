import EffectTrees.Frame
import EffectTrees.Proofs.Exchange.Descriptor

/-!
# Operations side by side

Every operation, run on values that differ in functions only, comes to values that differ in
functions only, if calls do (`Comparison.Callers`). There is one lemma for each operation; the proofs
follow the definitions. What an operation does on its way, such as to compute a payload on probation
or to write to the log, is matched step by step.
-/

namespace EffectTrees

namespace Comparison

variable {K : Comparison} {call call' : Caller} {v v' w w' d d' f f' g g' : Value}
  {α β : Type}

namespace Matched

/-! ### Values -/

/-- To change a member of a value. -/
protected theorem replaceMember (h : K.Rel v v') (name : String) (hw : K.Rel w w') :
    K.Matched K.Rel (v.replaceMember name w) (v'.replaceMember name w') := by
  -- A value of each kind has members of certain names that can be changed.
  cases h.shape with
  | payload p =>
    cases p with
    | resolved value =>
      by_cases same : name = "value"
      · subst same
        exact .pure (.of_shape (.payload (.resolved hw)))
      · simpa [Value.replaceMember, same] using Matched.fail _
    | deferred thunk =>
      by_cases same : name = "thunk"
      · subst same
        exact .pure (.of_shape (.payload (.deferred hw)))
      · simpa [Value.replaceMember, same] using Matched.fail _
  | tree t =>
    cases t with
    | done payload =>
      by_cases same : name = "value"
      · subst same
        exact .pure (Exchange.rel_ofDone hw)
      · simpa [Value.replaceMember, same] using Matched.fail _
    | suspended descriptor =>
      by_cases same : name = "descriptor"
      · subst same
        exact .pure hw.suspended
      · simpa [Value.replaceMember, same] using Matched.fail _
    | failed => simpa [Value.replaceMember] using Matched.fail _
  | plain t =>
    cases t with
    | pure value =>
      by_cases same : name = "value"
      · subst same
        exact .pure (.of_shape (.plain (.pure hw)))
      · simpa [Value.replaceMember, same] using Matched.fail _
    | free descriptor =>
      by_cases same : name = "descriptor"
      · subst same
        exact .pure (.of_shape (.plain (.free hw)))
      · simpa [Value.replaceMember, same] using Matched.fail _
  | descriptor c fields =>
    rw [replaceMember_descriptor, replaceMember_descriptor]
    refine (Matched.replace (P := fun _ => K.Rel) (fields.imp fun _ _ => NamedBy.imp fun _ _ _ h _ => h)
      (fun _ s _ => .scalar s) hw).imp fun e e' copied => copied.1.rel
  | slot n k a =>
    by_cases isName : name = "name"
    · subst isName
      exact .pure (.of_shape (.slot hw k a))
    by_cases isKind : name = "kind"
    · subst isKind
      exact .pure (.of_shape (.slot n hw a))
    by_cases isArity : name = "arity"
    · subst isArity
      exact .pure (.of_shape (.slot n k hw))
    simpa [Value.replaceMember, isName, isKind, isArity] using Matched.fail _
  | snoc init last =>
    by_cases isInit : name = "init"
    · subst isInit
      exact .pure (.of_shape (.snoc hw last))
    by_cases isLast : name = "last"
    · subst isLast
      exact .pure (.of_shape (.snoc init hw))
    simpa [Value.replaceMember, isInit, isLast] using Matched.fail _
  | cons head tail =>
    by_cases isHead : name = "head"
    · subst isHead
      exact .pure (.of_shape (.cons hw tail))
    by_cases isTail : name = "tail"
    · subst isTail
      exact .pure (.of_shape (.cons head hw))
    simpa [Value.replaceMember, isHead, isTail] using Matched.fail _
  | _ => simpa [Value.replaceMember] using Matched.fail _

protected theorem replaceNamed (h : K.Rel d d') (hv : K.Rel v v') (hw : K.Rel w w') :
    K.Matched K.Rel (d.replaceNamed v w) (d'.replaceNamed v' w') := by
  have refused : K.Matched K.Rel
      (do Act.ofSignal (v.hash (← Act.classes)); Act.fail .misuse)
      (do Act.ofSignal (v'.hash (← Act.classes)); Act.fail .misuse) := by
    refine .classes ((Matched.ofSignal (Q := Eq) ?_).bind fun _ _ _ => .fail _)
    rw [hv.hash_eq]
    exact Ends.refl _
  cases hv.shape with
  | scalar s =>
    cases s with
    | str n => exact .replaceMember h n hw
    | _ => exact refused
  | _ => exact refused

theorem items (h : K.Rel v v') : K.Matched (List.Forall₂ K.Rel) v.items v'.items := by
  cases h.shape with
  | scalar s =>
    cases s with
    | str s => exact .pure (List.forall₂_map_left_iff.mpr (List.forall₂_map_right_iff.mpr
        (List.forall₂_same.mpr fun _ _ => .scalar _)))
    | _ => exact .fail _
  | list items => exact .pure items
  | tuple items => exact .pure items
  | analysis result trace => exact .pure (.cons (Exchange.rel_ofResult result) (.cons (.list trace) .nil))
  | poison => exact .abort
  | _ => exact .fail _

/-! What a value counts as does not depend on the functions in it. -/

theorem asName (h : K.Rel v v') : K.Matched Eq v.asName v'.asName := by
  cases h.shape with
  | scalar s =>
    cases s with
    | str s => exact .pure rfl
    | _ => exact .fail _
  | _ => exact .fail _

theorem isDirectWord (h : K.Rel v v') : K.Matched Eq v.isDirectWord v'.isDirectWord := by
  cases h.shape with
  | scalar s => cases s <;> exact .pure rfl
  | poison => exact .abort
  | _ => exact .pure rfl

theorem asArity (h : K.Rel v v') : K.Matched Eq v.asArity v'.asArity := by
  cases h.shape with
  | scalar s =>
    cases s with
    | int i =>
      unfold Value.asArity
      dsimp only
      split_ifs
      · exact .fail _
      · exact .fail _
      · exact .pure rfl
    | bool b => exact .pure rfl
    | _ => exact .fail _
  | poison => exact .abort
  | _ => exact .fail _

theorem truth (h : K.Rel v v') : K.Matched Eq v.truth v'.truth := by
  cases h.shape with
  | scalar s => cases s <;> exact .pure rfl
  | list items =>
    refine .pure ?_
    cases items <;> rfl
  | tuple items =>
    refine .pure ?_
    cases items <;> rfl
  | poison => exact .abort
  | _ => exact .pure rfl

theorem turns (h : K.Rel v v') : K.Matched Eq v.turns v'.turns := by
  cases h.shape with
  | scalar s =>
    cases s with
    | int i => exact .pure rfl
    | bool b => exact .pure rfl
    | _ => exact .fail _
  | poison => exact .abort
  | _ => exact .fail _

/-! ### Slots, trees and payloads -/

variable (hc : K.Callers call call')
include hc

protected theorem fmap (hd : K.Rel d d') (hf : K.Rel f f') :
    K.Matched K.Rel (fmap call d f) (fmap call' d' f') :=
  (fmap_of (slots_of_rel hd) (fun _ _ hx => hc _ _ _ _ hf (.cons hx .nil))
    fun _ _ hg => .after hf hg).imp fun _ _ filled => filled.rel (fun _ _ => id) fun _ _ => id

protected theorem erase (hd : K.Rel d d') : K.Matched K.Rel (erase call d) (erase call' d') :=
  erase_of (slots_of_rel hd) fun _ _ hx => hc _ _ _ _ (.frame .unit) (.cons hx .nil)

omit hc in
theorem poisons (n : Nat) :
    List.Forall₂ K.Rel (List.replicate n .poison) (List.replicate n .poison) :=
  List.forall₂_same.mpr fun x mem => by
    rw [List.eq_of_mem_replicate mem]
    exact .poison

protected theorem locate (family : ClassRef) (hd : K.Rel d d') :
    K.Matched K.Rel (locate call family d) (locate call' family d') :=
  locate_of family (slots_of_rel hd) (fun _ _ => id) fun n _ _ hg => hc _ _ _ _ hg (poisons n)

theorem force {p p' : Payload} (h : p.Shape K.Rel p') :
    K.Matched K.Rel (p.force call) (p'.force call') := by
  cases h with
  | resolved value => exact .pure value
  | deferred thunk => exact hc _ _ _ _ thunk .nil

theorem resolve {p p' : Payload} (h : p.Shape K.Rel p') :
    K.Matched (Option.Rel K.Rel) (p.resolve call) (p'.resolve call') :=
  (force hc h).probe fun _ _ related => related.isPoison_eq

protected theorem forcePayload (h : K.Rel v v') :
    K.Matched K.Rel (forcePayload call v) (forcePayload call' v') := by
  cases h.shape with
  | payload p => exact force hc p
  | _ => exact .refuse _ h

omit hc in
protected theorem guarded {a b : Act Value} (h : K.Matched K.Rel a b) :
    K.Matched K.Rel (guarded a) (guarded b) :=
  (h.probe fun _ _ related => related.isPoison_eq).bind fun _ _ related =>
    .pure (Exchange.rel_getD related .failed)

/-- To finish with what a function gives. -/
theorem finish (hf : K.Rel f f') (hv : K.Rel v v') :
    K.Matched K.Rel (do return .tree (Tree.pure (← call f [v])))
      (do return .tree (Tree.pure (← call' f' [v']))) :=
  (hc _ _ _ _ hf (.cons hv .nil)).bind fun _ _ related => .pure related.pure

/-- To suspend on a descriptor whose contents are worked on. -/
theorem suspend (hd : K.Rel d d') (hf : K.Rel f f') :
    K.Matched K.Rel (do return .tree (.suspended (← EffectTrees.fmap call d f)))
      (do return .tree (.suspended (← EffectTrees.fmap call' d' f'))) :=
  (Matched.fmap hc hd hf).bind fun _ _ related => .pure related.suspended

/-- What becomes of a payload, by what it comes to. -/
theorem resolve_bind {p p' : Payload} {Q : α → β → Prop} {k : Option Value → Act α}
    {k' : Option Value → Act β} (h : p.Shape K.Rel p') (none : K.Matched Q (k .none) (k' .none))
    (some : ∀ x x', K.Rel x x' → K.Matched Q (k (.some x)) (k' (.some x'))) :
    K.Matched Q (p.resolve call >>= k) (p'.resolve call' >>= k') :=
  (resolve hc h).bind fun r r' related => by
    cases related with
    | some related => exact some _ _ related
    | none => exact none

theorem map_tree {t t' : Tree} (ht : t.Shape K.Rel t') (hf : K.Rel f f') :
    K.Matched K.Rel (t.map call f) (t'.map call' f') := by
  cases ht with
  | done p =>
    exact resolve_bind hc p (.pure .failed) fun _ _ hx => .guarded (finish hc hf hx)
  | suspended hd => exact suspend hc hd (.frame (.map hf))
  | failed => exact .pure .failed

theorem bind_tree {t t' : Tree} (ht : t.Shape K.Rel t') (hf : K.Rel f f') :
    K.Matched K.Rel (t.bind call f) (t'.bind call' f') := by
  cases ht with
  | done p =>
    exact resolve_bind hc p (.pure .failed) fun _ _ hx =>
      .guarded (hc _ _ _ _ hf (.cons hx .nil))
  | suspended hd => exact suspend hc hd (.frame (.bind hf))
  | failed => exact .pure .failed

theorem ap_tree {t t' : Tree} (ht : t.Shape K.Rel t') (hw : K.Rel w w') :
    K.Matched K.Rel (t.ap call w) (t'.ap call' w') := by
  cases ht with
  | failed =>
    unfold Tree.ap
    exact .pure .failed
  | suspended hd => exact suspend hc hd (.frame (.ap hw))
  | done p =>
    cases hw.shape with
    | tree u =>
      cases u with
      | done q =>
        refine (resolve hc p).bind fun _ _ hf => (resolve hc q).bind fun _ _ hx => ?_
        cases hf with
        | none => exact .pure .failed
        | some hf =>
          cases hx with
          | none => exact .pure .failed
          | some hx => exact .guarded (finish hc hf hx)
      | suspended hd =>
        exact resolve_bind hc p (.pure .failed) fun _ _ hf => suspend hc hd (.frame (.map hf))
      | failed => exact .pure .failed
    | _ => exact .pure .failed

omit hc in
theorem alt_tree {t t' : Tree} (ht : t.Shape K.Rel t') (hw : K.Rel w w') :
    K.Rel (t.alt w) (t'.alt w') := by
  cases ht with
  | failed => exact hw
  | done p => exact .of_shape (.tree (.done p))
  | suspended hd => exact hd.suspended

theorem lift_tree (hd : K.Rel d d') : K.Matched K.Rel (Tree.lift call d) (Tree.lift call' d') :=
  suspend hc hd (.frame .pure)

theorem lift_plain (hd : K.Rel d d') :
    K.Matched K.Rel (PlainTree.lift call d) (PlainTree.lift call' d') :=
  (Matched.fmap hc hd (.frame .plainPure)).bind fun _ _ related =>
    .pure (.of_shape (.plain (.free related)))

theorem embed (h : K.Rel v v') :
    K.Matched K.Rel (PlainTree.embed call v) (PlainTree.embed call' v') := by
  cases h.shape with
  | plain t =>
    cases t with
    | pure value => exact .pure value.pure
    | free hd => exact suspend hc hd (.frame .embed)
  | _ => exact .refuse _ h

theorem walk {tr tr' : List Value} (hf : K.Rel f f') (htr : List.Forall₂ K.Rel tr tr')
    (h : K.Rel v v') :
    K.Matched K.Rel (Analysis.walk call f tr v) (Analysis.walk call' f' tr' v') := by
  have analysis : ∀ {r r' : Option Value} {tr tr' : List Value}, Option.Rel K.Rel r r' →
      List.Forall₂ K.Rel tr tr' →
        K.Matched K.Rel (pure (.analysis r tr.reverse)) (pure (.analysis r' tr'.reverse)) :=
    fun result trace => .pure (.of_shape (.analysis result (List.forall₂_reverse_iff.mpr trace)))
  -- The same remark is made, since the traces are of the same length.
  have remark : ∀ {tr tr' : List Value} (r : Nat → Remark), List.Forall₂ K.Rel tr tr' →
      K.Matched K.Rel (do Act.remark (r tr.length); pure (.analysis none tr.reverse))
        (do Act.remark (r tr'.length); pure (.analysis none tr'.reverse)) := by
    intro tr tr' r trace
    rw [trace.length_eq]
    exact (Matched.remark _).bind fun _ _ _ => analysis .none trace
  cases h.shape with
  | tree t =>
    cases t with
    | failed => exact remark .reachedFailure htr
    | done p =>
      exact resolve_bind hc p (remark .abortedValue htr) fun _ _ hx => analysis (.some hx) htr
    | suspended hd =>
      refine (Matched.erase hc hd).bind fun e e' he => ?_
      refine ((hc _ _ _ _ hf (.cons hd .nil)).probe fun _ _ related => related.isPoison_eq).bind
        fun r r' related => ?_
      cases related with
      | some next => exact hc _ _ _ _ (.frame (.analyze hf (.cons he htr))) (.cons next .nil)
      | none =>
        dsimp only
        rw [hd.typeName_eq]
        exact remark (fun _ => .dependsOnInput _) (.cons he htr)
  | _ => exact .refuse _ h

/-! ### Builders -/

omit hc in
theorem bind_builder {b b' : Builder} (hb : b.Shape K.Rel b') (hf : K.Rel f f') :
    (b.bind f).Shape K.Rel (b'.bind f') := by
  cases hb with
  | mk tree pending => exact .mk tree (.cons hf pending)

omit hc in
theorem of_builder (h : K.Rel v v') : (Builder.of v).Shape K.Rel (Builder.of v') := .mk h .nil

omit hc in
theorem queueBefore {b b' : Builder} {fs fs' : List Value} (hb : b.Shape K.Rel b')
    (hfs : List.Forall₂ K.Rel fs fs') :
    List.Forall₂ K.Rel (b.queueBefore fs) (b'.queueBefore fs') := by
  cases hb with
  | mk tree pending => exact List.rel_append (List.forall₂_reverse_iff.mpr pending) hfs

theorem next {p p' : Payload} (hp : p.Shape K.Rel p') (hf : K.Rel f f') :
    K.Matched (Option.Rel fun b b' => b.Shape K.Rel b') (Builder.next call p f)
      (Builder.next call' p' f') := by
  refine resolve_bind hc hp (.pure .none) fun _ _ hx => ?_
  refine ((hc _ _ _ _ hf (.cons hx .nil)).probe fun _ _ related => related.isPoison_eq).bind
    fun r r' related => ?_
  cases related with
  | none => exact .pure .none
  | some related =>
    cases related.shape with
    | tree t => exact .pure (.some (of_builder related))
    | builder b => exact .pure (.some b)
    | _ => exact .refuse _ related

theorem materialize {fs fs' : List Value} (hfs : List.Forall₂ K.Rel fs fs') (h : K.Rel v v') :
    K.Matched K.Rel (Builder.materialize call fs v) (Builder.materialize call' fs' v') := by
  cases hfs with
  | nil => exact .pure h
  | cons hf rest =>
    cases h.shape with
    | tree t =>
      cases t with
      | done p =>
        refine (next hc p hf).bind fun r r' related => ?_
        cases related with
        | none => exact .pure .failed
        | some hb =>
          refine hc _ _ _ _ (.frame (.materialize (queueBefore hb rest))) (.cons ?_ .nil)
          cases hb with
          | mk tree pending => exact tree
      | suspended hd => exact suspend hc hd (.frame (.materialize (.cons hf rest)))
      | failed => exact .pure h
    | _ => exact .pure h

theorem build {b b' : Builder} (hb : b.Shape K.Rel b') :
    K.Matched K.Rel (b.build call) (b'.build call') := by
  refine materialize hc (queueBefore hb .nil) ?_
  cases hb with
  | mk tree pending => exact tree

theorem choose {b b' : Builder} (hb : b.Shape K.Rel b') (hw : K.Rel w w') :
    K.Matched K.Rel (b.choose call w) (b'.choose call' w') := by
  refine (build hc hb).bind fun _ _ related => ?_
  have started := Matched.pure (K := K) (Q := K.Rel)
    (.of_shape (.builder (of_builder related)))
  cases related.shape with
  | tree t =>
    cases t with
    | failed => exact .pure hw
    | _ => exact started
  | _ => exact started

/-! ### Members -/

theorem invokeSlot {n n' k k' a a' : Value} {args args' : List Value} (hn : K.Rel n n')
    (hk : K.Rel k k') (ha : K.Rel a a') (m : Member) (h : List.Forall₂ K.Rel args args') :
    K.Matched K.Rel (Value.invokeSlot call n k a m args)
      (Value.invokeSlot call' n' k' a' m args') := by
  cases m with
  | follow =>
    rcases h with _ | ⟨hd, _ | ⟨hv, rest⟩⟩
    · exact .fail _
    · refine (asName hn).bind fun m _ same => same ▸ (Matched.lookup hd m).bind fun _ _ hv => ?_
      refine (isDirectWord hk).bind fun direct _ same => same ▸ ?_
      cases direct with
      | true => exact .pure hv
      | false => exact (asArity ha).bind fun i _ same => same ▸ hc _ _ _ _ hv (poisons i)
    · exact .fail _
  | replace =>
    rcases h with _ | ⟨hd, _ | ⟨hv, _ | ⟨_, _⟩⟩⟩
    · exact .fail _
    · exact .fail _
    · exact .replaceNamed hd hn hv
    · exact .fail _
  | map =>
    rcases h with _ | ⟨hd, _ | ⟨hf, _ | ⟨_, _⟩⟩⟩
    · exact .fail _
    · exact .fail _
    · refine (asName hn).bind fun m _ same => same ▸ (Matched.lookup hd m).bind fun _ _ hv => ?_
      refine (isDirectWord hk).bind fun direct _ same => same ▸ ?_
      cases direct with
      | true =>
        exact (hc _ _ _ _ hf (.cons hv .nil)).bind fun _ _ related => .replaceMember hd m related
      | false => exact .replaceMember hd m (.after hf hv)
    · exact .fail _
  | _ => exact .fail _

theorem invokeTree {t t' : Tree} {args args' : List Value} (ht : t.Shape K.Rel t') (m : Member)
    (h : List.Forall₂ K.Rel args args') :
    K.Matched K.Rel (Value.invokeTree call t m args) (Value.invokeTree call' t' m args') := by
  cases m with
  | map =>
    rcases h with _ | ⟨hf, _ | ⟨_, _⟩⟩
    · exact .fail _
    · exact map_tree hc ht hf
    · exact .fail _
  | bind =>
    rcases h with _ | ⟨hf, _ | ⟨_, _⟩⟩
    · exact .fail _
    · exact bind_tree hc ht hf
    · exact .fail _
  | ap =>
    rcases h with _ | ⟨hw, _ | ⟨_, _⟩⟩
    · exact .fail _
    · exact ap_tree hc ht hw
    · exact .fail _
  | alt =>
    rcases h with _ | ⟨hw, _ | ⟨_, _⟩⟩
    · exact .fail _
    · exact .pure (alt_tree ht hw)
    · exact .fail _
  | _ => exact .fail _

theorem invokeBuilder {b b' : Builder} {args args' : List Value} (hb : b.Shape K.Rel b')
    (m : Member) (h : List.Forall₂ K.Rel args args') :
    K.Matched K.Rel (Value.invokeBuilder call b m args) (Value.invokeBuilder call' b' m args') := by
  have noted : ∀ {f f' : Value}, K.Rel f f' →
      K.Matched K.Rel (pure (.builder (b.bind f))) (pure (.builder (b'.bind f'))) :=
    fun hf => .pure (.of_shape (.builder (bind_builder hb hf)))
  have started : ∀ {v v' : Value}, K.Rel v v' →
      K.Matched K.Rel (pure (.builder (.of v))) (pure (.builder (.of v'))) :=
    fun hv => .pure (.of_shape (.builder (of_builder hv)))
  cases m with
  | bind =>
    rcases h with _ | ⟨hf, _ | ⟨_, _⟩⟩
    · exact .fail _
    · exact noted hf
    · exact .fail _
  | map =>
    rcases h with _ | ⟨hf, _ | ⟨_, _⟩⟩
    · exact .fail _
    · exact noted (.frame (.finish hf))
    · exact .fail _
  | andThen =>
    rcases h with _ | ⟨hu, _ | ⟨_, _⟩⟩
    · exact .fail _
    · exact noted (.frame (.always hu))
    · exact .fail _
  | alt =>
    rcases h with _ | ⟨hu, _ | ⟨_, _⟩⟩
    · exact .fail _
    · exact .pure (.of_shape (.builder (bind_builder (of_builder (Exchange.Rel.pure (.scalar .null)))
        (.frame (.choose hb hu)))))
    · exact .fail _
  | build =>
    cases h with
    | nil => exact build hc hb
    | cons _ _ => exact .fail _
  | pure =>
    rcases h with _ | ⟨hv, _ | ⟨_, _⟩⟩
    · exact .fail _
    · exact started hv.pure
    · exact .fail _
  | fail =>
    cases h with
    | nil => exact started .failed
    | cons _ _ => exact .fail _
  | send =>
    rcases h with _ | ⟨hd, _ | ⟨_, _⟩⟩
    · exact .fail _
    · exact (lift_tree hc hd).bind fun _ _ related => started related
    · exact .fail _
  | of =>
    rcases h with _ | ⟨ht, _ | ⟨_, _⟩⟩
    · exact .fail _
    · exact started ht
    · exact .fail _
  | _ => exact .fail _

theorem flatMapItems (hv : K.Rel v v') (hf : K.Rel f f') :
    K.Matched K.Rel (Value.flatMapItems call v f) (Value.flatMapItems call' v' f') := by
  refine (items hv).bind fun xs xs' hxs => ?_
  refine (Matched.mapM hxs fun x x' hx => ?_).bind fun parts parts' related =>
    .pure (.list (List.rel_flatten related))
  exact (hc _ _ _ _ hf (.cons hx .nil)).bind fun _ _ related => items related

theorem invokeListTarget {args args' : List Value} (m : Member)
    (h : List.Forall₂ K.Rel args args') :
    K.Matched K.Rel (Value.invokeListTarget call m args)
      (Value.invokeListTarget call' m args') := by
  cases m with
  | pure =>
    rcases h with _ | ⟨hv, _ | ⟨_, _⟩⟩
    · exact .fail _
    · exact .pure (.list (.cons hv .nil))
    · exact .fail _
  | empty =>
    cases h with
    | nil => exact .pure (.list .nil)
    | cons _ _ => exact .fail _
  | bind =>
    rcases h with _ | ⟨hv, _ | ⟨hf, _ | ⟨_, _⟩⟩⟩
    · exact .fail _
    · exact .fail _
    · exact flatMapItems hc hv hf
    · exact .fail _
  | _ => exact .fail _

theorem invokeTreeTarget {args args' : List Value} (m : Member)
    (h : List.Forall₂ K.Rel args args') :
    K.Matched K.Rel (Value.invokeTreeTarget call m args)
      (Value.invokeTreeTarget call' m args') := by
  cases m with
  | pure =>
    rcases h with _ | ⟨hv, _ | ⟨_, _⟩⟩
    · exact .fail _
    · exact .pure hv.pure
    · exact .fail _
  | empty =>
    cases h with
    | nil => exact .pure .failed
    | cons _ _ => exact .fail _
  | bind =>
    rcases h with _ | ⟨hv, _ | ⟨hf, _ | ⟨_, _⟩⟩⟩
    · exact .fail _
    · exact .fail _
    · exact hc _ _ _ _ (.frame (.bind hf)) (.cons hv .nil)
    · exact .fail _
  | _ => exact .fail _

omit hc in
protected theorem requireMember (h : K.Rel v v') (m : Member) :
    K.Matched Eq (v.requireMember m) (v'.requireMember m) := by
  have among : ∀ known : List Member,
      K.Matched Eq (if m ∈ known then pure () else Act.fail .missingMember)
        (if m ∈ known then pure () else Act.fail .missingMember) := by
    intro known
    split
    · exact .pure rfl
    · exact .fail _
  have found : K.Matched Eq (discard (v.lookup m.name)) (discard (v'.lookup m.name)) :=
    (Matched.lookup h m.name).bind fun _ _ _ => .pure rfl
  cases h.shape with
  | tree t => exact among _
  | builder b => exact among _
  | slot n k a => exact among _
  | poison => exact .abort
  | target t =>
    cases t with
    | list => exact among _
    | tree => exact among _
    | custom members =>
      unfold Value.requireMember
      dsimp only
      rw [any_named_eq members fun n => n = m.name]
      split
      · exact .pure rfl
      · exact .fail _
  | _ => exact found

protected theorem invoke {args args' : List Value} (h : K.Rel v v') (m : Member)
    (ha : List.Forall₂ K.Rel args args') :
    K.Matched K.Rel (v.invoke call m args) (v'.invoke call' m args') := by
  have called : K.Matched K.Rel (do call (← v.lookup m.name) args)
      (do call' (← v'.lookup m.name) args') :=
    (Matched.lookup h m.name).bind fun _ _ hf => hc _ _ _ _ hf ha
  cases h.shape with
  | tree t => exact invokeTree hc t m ha
  | builder b => exact invokeBuilder hc b m ha
  | slot hn hk har => exact invokeSlot hc hn hk har m ha
  | poison => exact .abort
  | target t =>
    cases t with
    | list => exact invokeListTarget hc m ha
    | tree => exact invokeTreeTarget hc m ha
    | custom members =>
      have held := Value.fieldAt?_rel (List.forall₂_reverse_iff.mpr members) m.name
      unfold Value.invoke
      dsimp only
      rcases held.both with ⟨hx, hx'⟩ | ⟨x, x', hx, hx', related⟩
      · rw [hx, hx']
        exact .fail _
      · rw [hx, hx']
        exact hc _ _ _ _ related ha
  | _ => exact called

/-! ### Eliminations -/

theorem iterate (hf : K.Rel f f') (h : K.Rel v v') :
    K.Matched K.Rel (Tree.iterate call f v) (Tree.iterate call' f' v') := by
  cases h.shape with
  | tree t =>
    cases t with
    | done p =>
      exact (resolve hc p).bind fun _ _ related => .pure (Exchange.rel_getD related (.scalar .null))
    | suspended hd =>
      exact (Matched.fmap hc hd (.frame (.iterate hf))).bind fun _ _ related =>
        hc _ _ _ _ hf (.cons related .nil)
    | failed => exact .pure (.scalar .null)
  | _ => exact .pure (.scalar .null)

theorem leafIn {p p' : Payload} (hw : K.Rel w w') (hp : p.Shape K.Rel p') :
    K.Matched K.Rel (Tree.leafIn call w p) (Tree.leafIn call' w' p') :=
  resolve_bind hc hp (Matched.invoke hc hw .empty .nil) fun _ _ hx =>
    Matched.invoke hc hw .pure (.cons hx .nil)

theorem iterateIn (hf : K.Rel f f') (hw : K.Rel w w') (h : K.Rel v v') :
    K.Matched K.Rel (Tree.iterateIn call f w v) (Tree.iterateIn call' f' w' v') := by
  cases h.shape with
  | tree t =>
    cases t with
    | done p => exact leafIn hc hw p
    | suspended hd =>
      exact (Matched.fmap hc hd (.frame (.iterateIn hf hw))).bind fun _ _ related =>
        hc _ _ _ _ hf (.cons related .nil)
    | failed => exact Matched.invoke hc hw .empty .nil
  | _ => exact Matched.invoke hc hw .empty .nil

theorem postponeSlots (hf : K.Rel f f') (hw : K.Rel w w') (hd : K.Rel d d') :
    K.Matched K.Rel (Tree.postponeSlots call f w d) (Tree.postponeSlots call' f' w' d') := by
  have postponed := Matched.fmap hc hd (.frame (.postpone hf hw))
  cases hd.shape with
  | descriptor c fields =>
    unfold Tree.postponeSlots
    dsimp only
    split
    · refine (Matched.slotOf c).bind ?_
      rintro s _ ⟨rfl, -⟩
      cases s.kind with
      | direct => exact postponed
      | function n => exact Matched.fmap hc hd (.frame (.iterateLater hf hw))
    · exact postponed
  | _ => exact postponed

theorem iterateLater (hf : K.Rel f f') (hw : K.Rel w w') (h : K.Rel v v') :
    K.Matched K.Rel (Tree.iterateLater call f w v) (Tree.iterateLater call' f' w' v') := by
  cases h.shape with
  | tree t =>
    cases t with
    | done p => exact leafIn hc hw p
    | suspended hd =>
      exact (postponeSlots hc hf hw hd).bind fun _ _ related => hc _ _ _ _ hf (.cons related .nil)
    | failed => exact Matched.invoke hc hw .empty .nil
  | _ => exact Matched.invoke hc hw .empty .nil

theorem fold (hf : K.Rel f f') (hw : K.Rel w w') (h : K.Rel v v') :
    K.Matched K.Rel (Tree.fold call f w v) (Tree.fold call' f' w' v') := by
  cases h.shape with
  | tree t =>
    cases t with
    | done p => exact leafIn hc hw p
    | suspended hd =>
      exact (Matched.requireMember hw .bind).bind fun _ _ _ =>
        (hc _ _ _ _ hf (.cons hd .nil)).bind fun _ _ related =>
          Matched.invoke hc hw .bind (.cons related (.cons (.frame (.fold hf hw)) .nil))
    | failed => exact Matched.invoke hc hw .empty .nil
  | _ => exact Matched.invoke hc hw .empty .nil

theorem hoist (hf : K.Rel f f') (h : K.Rel v v') :
    K.Matched K.Rel (Tree.hoist call f v) (Tree.hoist call' f' v') := by
  cases h.shape with
  | tree t =>
    cases t with
    | suspended hd =>
      exact (hc _ _ _ _ hf (.cons hd .nil)).bind fun _ _ related =>
        suspend hc related (.frame (.hoist hf))
    | _ => exact .pure h
  | _ => exact .pure h

/-- **What a frame does.** -/
theorem run_frame {k k' : Frame} (hk : k.Shape K.Rel k') (h : K.Rel v v') :
    K.Matched K.Rel (k.run call v) (k'.run call' v') := by
  cases hk with
  | identity => exact .pure h
  | unit => exact .pure (.tuple .nil)
  | always other => exact .pure other
  | pure => exact .pure h.pure
  | plainPure => exact .pure (.of_shape (.plain (.pure h)))
  | map hf => exact Matched.invoke hc h .map (.cons hf .nil)
  | bind hf => exact Matched.invoke hc h .bind (.cons hf .nil)
  | ap hu => exact Matched.invoke hc h .ap (.cons hu .nil)
  | finish hf => exact finish hc hf h
  | iterate hf => exact iterate hc hf h
  | iterateIn hf hw => exact iterateIn hc hf hw h
  | iterateLater hf hw => exact iterateLater hc hf hw h
  | postpone hf hw => exact .pure (.of_shape (.function (.delayed (.iterateLater hf hw) h)))
  | fold hf hw => exact fold hc hf hw h
  | hoist hf => exact hoist hc hf h
  | embed => exact embed hc h
  | analyze hf htr => exact walk hc hf htr h
  | materialize hfs => exact materialize hc hfs h
  | choose hb hu => exact choose hc hb hu

end Matched

end Comparison

end EffectTrees
