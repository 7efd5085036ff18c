import Mathlib.Data.List.Forall2
import Mathlib.Logic.Relation

/-!
# Lists, member by member

Two lists are *beside each other* if they are of the same length and their members are related in
order (`List.Forall₂`). What is done with each member of a list leads to a list beside it: so do
steps that may fail (`mapM_eq_ok_iff`), and if the members are named and keep their names, what is
found under a name is related too (`lookup_rel`).
-/

namespace List.Forall₂

variable {α β γ : Type} {R : α → β → Prop} {S : β → γ → Prop}

theorem exists_right {xs : List α} {ys : List β} (h : Forall₂ R xs ys) {x : α} (hx : x ∈ xs) :
    ∃ y ∈ ys, R x y := by
  induction h with
  | nil => simp at hx
  | @cons x' y' xs ys hxy _ ih =>
    rcases List.mem_cons.mp hx with rfl | hx
    · exact ⟨y', List.mem_cons_self, hxy⟩
    · obtain ⟨y, hy, hR⟩ := ih hx
      exact ⟨y, List.mem_cons_of_mem _ hy, hR⟩

theorem exists_left {xs : List α} {ys : List β} (h : Forall₂ R xs ys) {y : β} (hy : y ∈ ys) :
    ∃ x ∈ xs, R x y := by
  have h' : Forall₂ (fun y x => R x y) ys xs := h.flip
  exact h'.exists_right hy

theorem exists_of_forall {xs : List α} (h : ∀ x ∈ xs, ∃ y, R x y) : ∃ ys, Forall₂ R xs ys := by
  induction xs with
  | nil => exact ⟨[], .nil⟩
  | cons x xs ih =>
    obtain ⟨y, hy⟩ := h x List.mem_cons_self
    obtain ⟨ys, hys⟩ := ih fun z hz => h z (List.mem_cons_of_mem x hz)
    exact ⟨y :: ys, .cons hy hys⟩

/-- What two lists that are beside the same list are beside each other. -/
theorem fork {Q : β → γ → Prop} {R' : α → γ → Prop} {xs : List α} {ys : List β} {zs : List γ}
    (h : Forall₂ R xs ys) (h' : Forall₂ R' xs zs)
    (hQ : ∀ x y z, x ∈ xs → R x y → R' x z → Q y z) : Forall₂ Q ys zs := by
  induction h generalizing zs with
  | nil =>
    cases h'
    exact .nil
  | cons hxy _ ih =>
    cases h' with
    | cons hxz h' =>
      exact .cons (hQ _ _ _ List.mem_cons_self hxy hxz)
        (ih h' fun x y z hx => hQ x y z (List.mem_cons_of_mem _ hx))

theorem comp {xs : List α} {ys : List β} {zs : List γ} (h : Forall₂ R xs ys)
    (h' : Forall₂ S ys zs) : Forall₂ (Relation.Comp R S) xs zs := by
  induction h generalizing zs with
  | nil =>
    cases h'
    exact .nil
  | cons hxy _ ih =>
    cases h' with
    | cons hyz h' => exact .cons ⟨_, hxy, hyz⟩ (ih h')

/-- What is related by two steps has a list beside it in between. -/
theorem exists_middle {xs : List α} {zs : List γ} (h : Forall₂ (Relation.Comp R S) xs zs) :
    ∃ ys, Forall₂ R xs ys ∧ Forall₂ S ys zs := by
  induction h with
  | nil => exact ⟨[], .nil, .nil⟩
  | cons hxz _ ih =>
    obtain ⟨y, hxy, hyz⟩ := hxz
    obtain ⟨ys, hxs, hzs⟩ := ih
    exact ⟨y :: ys, .cons hxy hxs, .cons hyz hzs⟩

end List.Forall₂

/-- What may be missing is related along a way of two steps. -/
theorem Option.Rel.comp {α β γ : Type} {R : α → β → Prop} {S : β → γ → Prop} {Q : α → γ → Prop}
    {a : Option α} {b : Option β} {c : Option γ} (h : Option.Rel R a b) (h' : Option.Rel S b c)
    (hQ : ∀ x y z, R x y → S y z → Q x z) : Option.Rel Q a c := by
  cases h with
  | none =>
    cases h'
    exact .none
  | some hxy =>
    cases h' with
    | some hyz => exact .some (hQ _ _ _ hxy hyz)

/-- What may be missing is related more loosely too. -/
theorem Option.Rel.imp {α β : Type} {R S : α → β → Prop} (h : ∀ a b, R a b → S a b) {a : Option α}
    {b : Option β} (hab : Option.Rel R a b) : Option.Rel S a b := by
  cases hab with
  | some hR => exact .some (h _ _ hR)
  | none => exact .none

section

variable {α β : Type} {R : α → β → Prop} {a : Option α} {b : Option β}

theorem Option.Rel.flip (h : Option.Rel R a b) : Option.Rel (fun y x => R x y) b a := by
  cases h with
  | some hR => exact .some hR
  | none => exact .none

/-- Both are missing, or both are there. -/
theorem Option.Rel.both (h : Option.Rel R a b) :
    (a = Option.none ∧ b = Option.none) ∨
      ∃ x y, a = Option.some x ∧ b = Option.some y ∧ R x y := by
  cases h with
  | some hR => exact .inr ⟨_, _, rfl, rfl, hR⟩
  | none => exact .inl ⟨rfl, rfl⟩

theorem Option.Rel.exists_right {x : α} (h : Option.Rel R (Option.some x) b) :
    ∃ y, b = Option.some y ∧ R x y := by
  cases h with
  | some hR => exact ⟨_, rfl, hR⟩

end

namespace EffectTrees

/-- The first answer is a matter of the answers for the members of the list. -/
theorem findSome?_congr {α β : Type} {f g : α → Option β} {l : List α} (h : ∀ a ∈ l, f a = g a) :
    l.findSome? f = l.findSome? g := by
  induction l with
  | nil => rfl
  | cons a l ih =>
    obtain ⟨head, rest⟩ := List.forall_mem_cons.mp h
    rw [List.findSome?_cons, List.findSome?_cons, head, ih rest]

/-- Nothing is left twice once duplicates are erased. -/
theorem nodup_eraseDups {α : Type} [BEq α] [LawfulBEq α] : ∀ l : List α, l.eraseDups.Nodup
  | [] => by simp
  | a :: as => by
    rw [List.eraseDups_cons, List.nodup_cons]
    refine ⟨fun again => ?_, nodup_eraseDups (as.filter fun b => !(b == a))⟩
    simp [List.mem_eraseDups] at again
termination_by l => l.length
decreasing_by exact Nat.lt_succ_of_le (List.length_filter_le _ as)

/-- What follows a step that succeeds is what the step is followed by. -/
theorem exists_of_bind_eq_ok {ε α β : Type} {x : Except ε α} {f : α → Except ε β} {b : β}
    (h : x >>= f = .ok b) : ∃ a, x = .ok a ∧ f a = .ok b := by
  cases x with
  | error e => cases h
  | ok a => exact ⟨a, rfl, h⟩

/-- Steps for all members of a list succeed together if each of them succeeds. -/
theorem mapM_eq_ok_iff {ε α β : Type} {f : α → Except ε β} {l : List α} {r : List β} :
    l.mapM f = .ok r ↔ List.Forall₂ (fun a b => f a = .ok b) l r := by
  induction l generalizing r with
  | nil => simp [pure, Except.pure, eq_comm]
  | cons a l ih =>
    rw [List.mapM_cons, List.forall₂_cons_left_iff]
    constructor
    · intro h
      obtain ⟨b, head, h⟩ := exists_of_bind_eq_ok h
      obtain ⟨r', rest, h⟩ := exists_of_bind_eq_ok h
      cases h
      exact ⟨b, r', head, ih.mp rest, rfl⟩
    · rintro ⟨b, r', head, rest, rfl⟩
      rw [head, ih.mpr rest]
      rfl

/-! ### Named members -/

variable {α β : Type}

/-- Steps on named members that keep the names. -/
theorem mapM_named_eq_ok_iff {ε : Type} {g : α → Except ε β} {l : List (String × α)}
    {r : List (String × β)} :
    (l.mapM fun a => return (a.1, ← g a.2)) = .ok r ↔
      List.Forall₂ (fun a b => b.1 = a.1 ∧ g a.2 = .ok b.2) l r := by
  rw [mapM_eq_ok_iff]
  have member : ∀ (a : String × α) (b : String × β),
      (do return (a.1, ← g a.2) : Except ε (String × β)) = .ok b ↔ b.1 = a.1 ∧ g a.2 = .ok b.2 := by
    intro a b
    constructor
    · intro h
      obtain ⟨b', found, named⟩ := exists_of_bind_eq_ok h
      cases named
      exact ⟨rfl, found⟩
    · rintro ⟨name, found⟩
      rw [found, ← name]
      rfl
  exact ⟨fun h => h.imp fun a b => (member a b).mp, fun h => h.imp fun a b => (member a b).mpr⟩

/-- What is found under a name is related, if the members are. -/
theorem lookup_rel {R : α → β → Prop} {l : List (String × α)} {r : List (String × β)}
    (h : List.Forall₂ (fun a b => b.1 = a.1 ∧ R a.2 b.2) l r) (name : String) :
    Option.Rel R (l.lookup name) (r.lookup name) := by
  induction h with
  | nil => exact .none
  | @cons a b l r related _ ih =>
    obtain ⟨same, related⟩ := related
    obtain ⟨n, x⟩ := a
    obtain ⟨n', y⟩ := b
    obtain rfl : n' = n := same
    rw [List.lookup_cons, List.lookup_cons]
    cases name == n' with
    | true => exact .some related
    | false => exact ih

theorem lookup_eq_find? (l : List (String × α)) (name : String) :
    l.lookup name = (l.find? fun a => a.1 = name).map Prod.snd := by
  induction l with
  | nil => rfl
  | cons a l ih =>
    obtain ⟨n, x⟩ := a
    rw [List.lookup_cons]
    by_cases same : n = name
    · subst same
      simp
    · have apart : (name == n) = false := beq_eq_false_iff_ne.mpr (Ne.symm same)
      rw [apart, List.find?_cons_of_neg (by simpa using same)]
      exact ih

/-- The first members of each name are found under their names. -/
theorem lookup_firsts (l : List (String × α)) (name : String) :
    ((l.map Prod.fst).eraseDups.filterMap fun n => l.find? fun a => a.1 = n).lookup name =
      l.lookup name := by
  have among : ∀ names : List String,
      (names.filterMap fun n => l.find? fun a => a.1 = n).lookup name =
        if name ∈ names then l.lookup name else none := by
    intro names
    induction names with
    | nil => rfl
    | cons n names ih =>
      rw [List.filterMap_cons]
      cases found : l.find? fun a => a.1 = n with
      | none =>
        dsimp only
        rw [ih]
        by_cases same : name = n
        · -- No member has the name, so it does not matter whether it is asked for.
          subst same
          simp [lookup_eq_find?, found]
        · simp [same]
      | some a =>
        have own : a.1 = n := by simpa using List.find?_some found
        obtain ⟨n', x⟩ := a
        obtain rfl : n' = n := own
        dsimp only
        rw [List.lookup_cons, ih]
        by_cases same : name = n'
        · subst same
          simp [lookup_eq_find?, found]
        · have apart : (name == n') = false := beq_eq_false_iff_ne.mpr same
          simp [apart, same]
  rw [among, if_congr List.mem_eraseDups rfl rfl]
  split
  · rfl
  · next absent =>
    symm
    rw [List.lookup_eq_none_iff]
    intro a mem
    have other : name ≠ a.1 := by
      rintro rfl
      exact absent (List.mem_map_of_mem mem)
    simpa using other

end EffectTrees
