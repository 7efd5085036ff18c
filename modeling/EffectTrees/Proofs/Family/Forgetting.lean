import EffectTrees.Act
import EffectTrees.Family.Closure
import EffectTrees.Proofs.Family.Reachable
import EffectTrees.Value.Hashing

/-!
# What is read without the slots

A class may keep its slot, or have it derived whenever it is asked for it. Apart from the question
for the slot itself, nothing that is read of the classes depends on it: it reads the same after a
class has forgotten the slot that it keeps (`ClassTable.forget`).

There is one lemma for each way to look at a table, and one for each operation on values that takes a
table: how a value is displayed, written, compared and hashed.
-/

namespace EffectTrees

namespace ClassTable

/-- The table after a class has forgotten the slot that it keeps. -/
def forget (t : ClassTable) (id : Nat) : ClassTable :=
  t.update id fun c => { c with slot := none }

variable (t : ClassTable) (id k : Nat)

theorem info?_forget : (t.forget id).info? k =
    if id = k then (t.info? k).map fun c => { c with slot := none } else t.info? k :=
  t.info?_update id k _

/-! ### Looking at classes -/

theorem map_info?_forget {α : Type} (f : ClassInfo → α)
    (blind : ∀ c : ClassInfo, f { c with slot := none } = f c) :
    ((t.forget id).info? k).map f = (t.info? k).map f := by
  rw [info?_forget]
  split
  · cases t.info? k with
    | none => rfl
    | some c => exact congrArg some (blind c)
  · rfl

theorem bind_info?_forget {α : Type} (f : ClassInfo → Option α)
    (blind : ∀ c : ClassInfo, f { c with slot := none } = f c) :
    ((t.forget id).info? k).bind f = (t.info? k).bind f := by
  rw [info?_forget]
  split
  · cases t.info? k with
    | none => rfl
    | some c => exact blind c
  · rfl

theorem any_info?_forget (p : ClassInfo → Bool)
    (blind : ∀ c : ClassInfo, p { c with slot := none } = p c) :
    ((t.forget id).info? k).any p = (t.info? k).any p := by
  rw [info?_forget]
  split
  · cases t.info? k with
    | none => rfl
    | some c => exact blind c
  · rfl

@[simp] theorem length_classes_forget : (t.forget id).classes.length = t.classes.length :=
  List.length_modify ..

@[simp] theorem lineage_forget : (t.forget id).lineage k = t.lineage k :=
  congrArg (Option.getD · []) (t.map_info?_forget id k _ fun _ => rfl)

@[simp] theorem ref_forget : (t.forget id).ref k = t.ref k := by
  unfold ref
  rw [map_info?_forget _ _ _ _ fun _ => rfl, lineage_forget]

/-- What is looked up along the linearization. -/
theorem lookup?_forget {α : Type} (f : ClassInfo → Option α)
    (blind : ∀ c : ClassInfo, f { c with slot := none } = f c) :
    (t.forget id).lookup? f k = t.lookup? f k := by
  unfold lookup?
  rw [lineage_forget]
  exact findSome?_congr fun j _ => t.bind_info?_forget id j f blind

@[simp] theorem entries?_forget : (t.forget id).entries? k = t.entries? k :=
  t.lookup?_forget id k _ fun _ => rfl

@[simp] theorem fields?_forget : (t.forget id).fields? k = t.fields? k := by
  unfold fields?
  rw [entries?_forget]

@[simp] theorem isRecord_forget : (t.forget id).isRecord = t.isRecord := by
  funext k
  unfold isRecord
  rw [entries?_forget]

@[simp] theorem isFrozen_forget : (t.forget id).isFrozen = t.isFrozen := by
  funext k
  unfold isFrozen
  rw [lookup?_forget _ _ _ _ fun _ => rfl]

@[simp] theorem initializer?_forget : (t.forget id).initializer? k = t.initializer? k :=
  t.lookup?_forget id k _ fun _ => rfl

@[simp] theorem givenFields_forget : (t.forget id).givenFields k = t.givenFields k := by
  unfold givenFields
  rw [initializer?_forget]

@[simp] theorem shown?_forget : (t.forget id).shown? k = t.shown? k :=
  t.lookup?_forget id k _ fun _ => rfl

@[simp] theorem compared?_forget : (t.forget id).compared? k = t.compared? k :=
  t.lookup?_forget id k _ fun _ => rfl

@[simp] theorem hashing?_forget : (t.forget id).hashing? k = t.hashing? k :=
  t.lookup?_forget id k _ fun _ => rfl

@[simp] theorem guards_forget (name : String) : (t.forget id).guards k name = t.guards k name := by
  unfold guards
  rw [lineage_forget]
  simp only [bind_info?_forget t id _ (fun c => c.layout.guarded) fun _ => rfl]

@[simp] theorem attribute?_forget (name : String) :
    (t.forget id).attribute? k name = t.attribute? k name :=
  t.lookup?_forget id k _ fun _ => rfl

@[simp] theorem valueAt?_forget (name : String) :
    (t.forget id).valueAt? k name = t.valueAt? k name := by
  unfold valueAt?
  rw [attribute?_forget]

@[simp] theorem memberOf?_forget {α : Type} (own : List (String × α)) (ofClass : Scalar → α) :
    (t.forget id).memberOf? k own ofClass = t.memberOf? k own ofClass := by
  funext name
  unfold memberOf?
  rw [valueAt?_forget]

@[simp] theorem named?_forget (name : String) : (t.forget id).named? name = t.named? name := by
  unfold named?
  rw [length_classes_forget, show (t.forget id).ref = t.ref from funext fun k => t.ref_forget id k]
  simp only [any_info?_forget t id _ (fun c => c.name = name) fun _ => rfl]

@[simp] theorem subclasses_forget : (t.forget id).subclasses k = t.subclasses k := by
  unfold subclasses
  rw [length_classes_forget]
  simp only [any_info?_forget t id _ (fun c => c.parents.any fun p => p.id = k) fun _ => rfl]

theorem explore_forget (pending seen : List Nat) :
    (t.forget id).explore pending seen = t.explore pending seen := by
  fun_induction t.explore pending seen with
  | case1 => rw [explore]
  | case2 seen k rest unseen ih =>
    rw [explore, dif_pos (by rwa [length_classes_forget]), subclasses_forget, ih]
  | case3 seen k rest visited ih =>
    rw [explore, dif_neg (by rwa [length_classes_forget]), ih]

@[simp] theorem constructorsOf_forget : (t.forget id).constructorsOf k = t.constructorsOf k := by
  unfold constructorsOf
  rw [explore_forget, isRecord_forget]

end ClassTable

/-! ### Looking at values -/

section

variable (t : ClassTable) (id : Nat)

mutual

@[simp] theorem Value.display_forget (v : Value) : v.display (t.forget id) = v.display t := by
  cases v with
  | list items => simp only [Value.display, Value.displayAll_forget items]
  | tuple items => simp only [Value.display, Value.displayAll_forget items]
  | payload p => simp only [Value.display, p.display_forget]
  | tree u => simp only [Value.display, u.display_forget]
  | plain u => simp only [Value.display, u.display_forget]
  | descriptor c own =>
    simp only [Value.display, Value.displayFields_forget own, ClassTable.fields?_forget,
      ClassTable.memberOf?_forget]
  | builder b => simp only [Value.display, b.display_forget]
  | analysis r trace =>
    simp only [Value.display, Value.displayResult_forget r, Value.displayAll_forget trace]
  | slot n k a => simp only [Value.display, n.display_forget, k.display_forget, a.display_forget]
  | snoc i l => simp only [Value.display, i.display_forget, l.display_forget]
  | cons h r => simp only [Value.display, h.display_forget, r.display_forget]
  | _ => rfl

theorem Value.displayAll_forget (vs : List Value) :
    Value.displayAll (t.forget id) vs = Value.displayAll t vs := by
  cases vs with
  | nil => rfl
  | cons v vs => simp only [Value.displayAll, v.display_forget, Value.displayAll_forget vs]

theorem Value.displayFields_forget (own : List (String × Value)) :
    Value.displayFields (t.forget id) own = Value.displayFields t own := by
  match own with
  | [] => rfl
  | (name, v) :: own =>
    simp only [Value.displayFields, v.display_forget, Value.displayFields_forget own]

theorem Value.displayResult_forget (r : Option Value) :
    Value.displayResult (t.forget id) r = Value.displayResult t r := by
  cases r with
  | none => rfl
  | some v => simp only [Value.displayResult, v.display_forget]

theorem Payload.display_forget (p : Payload) : p.display (t.forget id) = p.display t := by
  cases p with
  | resolved v => simp only [Payload.display, v.display_forget]
  | deferred f => rfl

theorem Tree.display_forget (u : Tree) : u.display (t.forget id) = u.display t := by
  cases u with
  | done p => simp only [Tree.display, p.display_forget]
  | suspended d => simp only [Tree.display, d.display_forget]
  | failed => rfl

theorem PlainTree.display_forget (u : PlainTree) : u.display (t.forget id) = u.display t := by
  cases u with
  | pure v => simp only [PlainTree.display, v.display_forget]
  | free d => simp only [PlainTree.display, d.display_forget]

theorem Builder.display_forget (b : Builder) : b.display (t.forget id) = b.display t := by
  cases b with
  | mk u pending => simp only [Builder.display, u.display_forget]

end

variable (showDeferred : Bool)

mutual

@[simp] theorem Value.write_forget (v : Value) :
    v.write (t.forget id) showDeferred = v.write t showDeferred := by
  cases v with
  | list items => simp only [Value.write, Value.writeAll_forget items]
  | tuple items => simp only [Value.write, Value.writeAll_forget items]
  | payload p => simp only [Value.write, p.write_forget]
  | tree u => simp only [Value.write, u.write_forget]
  | plain u => simp only [Value.write, u.write_forget]
  | descriptor c own =>
    simp only [Value.write, Value.writeFields_forget own, ClassTable.shown?_forget,
      ClassTable.memberOf?_forget]
  | builder b => simp only [Value.write, b.write_forget]
  | analysis r trace =>
    simp only [Value.write, Value.writeResult_forget r, Value.writeAll_forget trace]
  | slot n k a => simp only [Value.write, n.write_forget, k.write_forget, a.write_forget]
  | target u => cases u <;> rfl
  | snoc i l => simp only [Value.write, i.write_forget, l.write_forget]
  | cons h r => simp only [Value.write, h.write_forget, r.write_forget]
  | _ => rfl

theorem Value.writeAll_forget (vs : List Value) :
    Value.writeAll (t.forget id) showDeferred vs = Value.writeAll t showDeferred vs := by
  cases vs with
  | nil => rfl
  | cons v vs => simp only [Value.writeAll, v.write_forget, Value.writeAll_forget vs]

theorem Value.writeFields_forget (own : List (String × Value)) :
    Value.writeFields (t.forget id) showDeferred own = Value.writeFields t showDeferred own := by
  match own with
  | [] => rfl
  | (name, v) :: own =>
    simp only [Value.writeFields, v.write_forget, Value.writeFields_forget own]

theorem Value.writeResult_forget (r : Option Value) :
    Value.writeResult (t.forget id) showDeferred r = Value.writeResult t showDeferred r := by
  cases r with
  | none => rfl
  | some v => simp only [Value.writeResult, v.write_forget]

theorem Payload.write_forget (p : Payload) :
    p.write (t.forget id) showDeferred = p.write t showDeferred := by
  cases p with
  | resolved v => simp only [Payload.write, v.write_forget]
  | deferred f => simp only [Payload.write, f.write_forget]

theorem Tree.write_forget (u : Tree) :
    u.write (t.forget id) showDeferred = u.write t showDeferred := by
  cases u with
  | done p => simp only [Tree.write, p.write_forget]
  | suspended d => simp only [Tree.write, d.write_forget]
  | failed => rfl

theorem PlainTree.write_forget (u : PlainTree) :
    u.write (t.forget id) showDeferred = u.write t showDeferred := by
  cases u with
  | pure v => simp only [PlainTree.write, v.write_forget]
  | free d => simp only [PlainTree.write, d.write_forget]

theorem Builder.write_forget (b : Builder) :
    b.write (t.forget id) showDeferred = b.write t showDeferred := by
  cases b with
  | mk u pending => simp only [Builder.write, u.write_forget]

end

mutual

@[simp] theorem Value.hash_forget (v : Value) : v.hash (t.forget id) = v.hash t := by
  cases v with
  | tuple items => simp only [Value.hash, Value.hashAll_forget items]
  | payload p => simp only [Value.hash, p.hash_forget]
  | tree u => simp only [Value.hash, u.hash_forget]
  | plain u => simp only [Value.hash, u.hash_forget]
  | descriptor c own =>
    simp only [Value.hash, Value.hashFields_forget own, ClassTable.hashing?_forget,
      ClassTable.memberOf?_forget]
  | analysis r trace => simp only [Value.hash, Value.hashResult_forget r]
  | slot n k a => simp only [Value.hash, n.hash_forget, k.hash_forget, a.hash_forget]
  | snoc i l => simp only [Value.hash, i.hash_forget, l.hash_forget]
  | cons h r => simp only [Value.hash, h.hash_forget, r.hash_forget]
  | _ => rfl

theorem Value.hashAll_forget (vs : List Value) :
    Value.hashAll (t.forget id) vs = Value.hashAll t vs := by
  cases vs with
  | nil => rfl
  | cons v vs => simp only [Value.hashAll, v.hash_forget, Value.hashAll_forget vs]

theorem Value.hashFields_forget (own : List (String × Value)) :
    Value.hashFields (t.forget id) own = Value.hashFields t own := by
  match own with
  | [] => rfl
  | (name, v) :: own =>
    simp only [Value.hashFields, v.hash_forget, Value.hashFields_forget own]

theorem Value.hashResult_forget (r : Option Value) :
    Value.hashResult (t.forget id) r = Value.hashResult t r := by
  cases r with
  | none => rfl
  | some v => simp only [Value.hashResult, v.hash_forget]

theorem Payload.hash_forget (p : Payload) : p.hash (t.forget id) = p.hash t := by
  cases p with
  | resolved v => simp only [Payload.hash, v.hash_forget]
  | deferred f => simp only [Payload.hash, f.hash_forget]

theorem Tree.hash_forget (u : Tree) : u.hash (t.forget id) = u.hash t := by
  cases u with
  | done p => simp only [Tree.hash, p.hash_forget]
  | suspended d => simp only [Tree.hash, d.hash_forget]
  | failed => rfl

theorem PlainTree.hash_forget (u : PlainTree) : u.hash (t.forget id) = u.hash t := by
  cases u with
  | pure v => simp only [PlainTree.hash, v.hash_forget]
  | free d => simp only [PlainTree.hash, d.hash_forget]

end

mutual

@[simp] theorem Value.equal?_forget (v : Value) : v.equal? (t.forget id) = v.equal? t := by
  funext w
  cases v with
  | list items => cases w <;> simp only [Value.equal?, Value.equalAll?_forget items]
  | tuple items => cases w <;> simp only [Value.equal?, Value.equalAll?_forget items]
  | payload p => cases w <;> simp only [Value.equal?, p.equal?_forget]
  | tree u => cases w <;> simp only [Value.equal?, u.equal?_forget]
  | plain u => cases w <;> simp only [Value.equal?, u.equal?_forget]
  | descriptor c own =>
    cases w <;> simp only [Value.equal?, Value.fieldTests_forget own, ClassTable.compared?_forget,
      ClassTable.memberOf?_forget]
  | analysis r trace =>
    cases w <;>
      simp only [Value.equal?, Value.equalResult?_forget r, Value.equalAll?_forget trace]
  | slot n k a =>
    cases w <;>
      simp only [Value.equal?, n.equal?_forget, k.equal?_forget, a.equal?_forget]
  | snoc i l => cases w <;> simp only [Value.equal?, i.equal?_forget, l.equal?_forget]
  | cons h r => cases w <;> simp only [Value.equal?, h.equal?_forget, r.equal?_forget]
  | function f =>
    cases w with
    | function g => cases f <;> cases g <;> rfl
    | _ => cases f <;> rfl
  | target u =>
    cases w with
    | target u' => cases u <;> cases u' <;> rfl
    | _ => cases u <;> rfl
  | _ => cases w <;> rfl

theorem Value.equalAll?_forget (vs : List Value) :
    Value.equalAll? (t.forget id) vs = Value.equalAll? t vs := by
  funext ws
  cases vs with
  | nil => cases ws <;> rfl
  | cons v vs =>
    cases ws <;> simp only [Value.equalAll?, v.equal?_forget, Value.equalAll?_forget vs]

theorem Value.fieldTests_forget (own : List (String × Value)) :
    Value.fieldTests (t.forget id) own = Value.fieldTests t own := by
  match own with
  | [] => rfl
  | (name, v) :: own =>
    simp only [Value.fieldTests, v.equal?_forget, Value.fieldTests_forget own]

theorem Value.equalResult?_forget (r : Option Value) :
    Value.equalResult? (t.forget id) r = Value.equalResult? t r := by
  funext w
  cases r with
  | none => rfl
  | some v =>
    cases w with
    | payload p => cases p <;> simp only [Value.equalResult?, v.equal?_forget]
    | _ => rfl

theorem Payload.equal?_forget (p : Payload) : p.equal? (t.forget id) = p.equal? t := by
  funext q
  cases p with
  | resolved v => cases q <;> simp only [Payload.equal?, v.equal?_forget]
  | deferred f => cases q <;> simp only [Payload.equal?, f.equal?_forget]

theorem Tree.equal?_forget (u : Tree) : u.equal? (t.forget id) = u.equal? t := by
  funext u'
  cases u with
  | done p => cases u' <;> simp only [Tree.equal?, p.equal?_forget]
  | suspended d => cases u' <;> simp only [Tree.equal?, d.equal?_forget]
  | failed => cases u' <;> rfl

theorem PlainTree.equal?_forget (u : PlainTree) : u.equal? (t.forget id) = u.equal? t := by
  funext u'
  cases u with
  | pure v => cases u' <;> simp only [PlainTree.equal?, v.equal?_forget]
  | free d => cases u' <;> simp only [PlainTree.equal?, d.equal?_forget]

end

end

end EffectTrees
