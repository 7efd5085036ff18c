import Mathlib
import EffectTrees.Proofs.Family.Chain

/-!
# Towers of generic classes

A class that is applied to types by its heir has these types put for its type parameters. Where the
heirs of the root are applied in turn, one above the other, they form a *tower*
(`ClassTable.Tower`): each class declares type parameters as it likes and applies the class below to
any types, as long as one of its own variables comes to stand in the place of the continuation.
Variables may be swapped, repeated, or passed as part of other types elsewhere, and a parameter may
be a pack, which takes any number of types. What all this puts for the variable of the root is the
composition of the substitutions, one for each storey.

Derivation does not compose substitutions. It looks for the place of a single variable, one class at a
time, and it counts from the left. So behind a pack that takes more or fewer types than one it looks
at the wrong place.

* `Reachable.parametrized`: the type parameters of a class are distinct, and the variables that its
  parents are applied to are among them. So a place stands for one parameter.
* `Tower.passes`: what the composed substitution puts for the variable of the root is a type parameter
  of the class on top.
* `Tower.searchIn_eq`: what derivation finds at the top is found storey by storey (`Storey.trace`).
* `Storey.trace_eq_iff` has the exact condition under which one storey is traced well, and
  `Storey.inPlace_of_aligned` is the usual reason for it.
* `continuation_of_tower` puts these together for the class on top and for all classes that are
  reached from it by naming the parent alone (`ClassTable.NamesAlone`).
-/

namespace EffectTrees

open Annotation (Substitution positional compose Aligned)

/-! ### The type parameters of a class -/

/-- **The type parameters of a class** are distinct, and they include the variables that its parents
are applied to. -/
structure ClassInfo.Parametrized (c : ClassInfo) : Prop where
  distinct : c.parameters.Nodup
  includes : ∀ p ∈ c.parents, ∀ args, p.args = some args → ∀ v ∈ Annotation.typeVarsAll args,
    v ∈ c.parameters

theorem ClassInfo.Parametrized.congr {c c' : ClassInfo} (h : c.Parametrized)
    (core : c'.core = c.core) : c'.Parametrized := by
  have parameters : c'.parameters = c.parameters :=
    ClassInfo.eq_of_core ClassInfo.parameters (fun _ => rfl) core
  have parents : c'.parents = c.parents :=
    ClassInfo.eq_of_core ClassInfo.parents (fun _ => rfl) core
  constructor
  · rw [parameters]
    exact h.distinct
  · rw [parameters, parents]
    exact h.includes

/-- A variable that stands in an argument by itself is among the variables of the arguments. -/
theorem Annotation.mem_typeVarsAll {as : List Annotation} {v : TypeVar} (mem : .var v ∈ as) :
    v ∈ typeVarsAll as := by
  induction as with
  | nil => cases mem
  | cons a as ih =>
    rw [typeVarsAll, List.mem_append]
    rcases List.mem_cons.mp mem with rfl | mem
    · left
      rw [typeVars]
      exact List.mem_singleton_self v
    · right
      exact ih mem

namespace ClassTable

open Annotation (asVariable? asVariable?_eq_some_iff compose_of_eq_var mem_typeVarsAll
  positional_of_aligned)

variable {t : ClassTable} {k p d : Nat} {c b : ClassInfo} {args : List Annotation}
  {v w : TypeVar} {σ : Substitution}

/-- Parameters that a class may have, given its parents. -/
theorem parametrized_of_parametersOf {listed parameters : List TypeVar} {parents : List Parent}
    (h : parametersOf listed parents = .ok parameters) :
    parameters.Nodup ∧ ∀ q ∈ parents, ∀ as, q.args = some as →
      ∀ u ∈ Annotation.typeVarsAll as, u ∈ parameters := by
  have used : ∀ q ∈ parents, ∀ as, q.args = some as → ∀ u ∈ Annotation.typeVarsAll as,
      u ∈ (parents.flatMap fun p => Annotation.typeVarsAll (p.args.getD [])).eraseDups := by
    intro q mem as given u occurs
    rw [List.mem_eraseDups, List.mem_flatMap]
    exact ⟨q, mem, by rwa [given]⟩
  unfold parametersOf at h
  dsimp only at h
  split at h
  · -- None are listed, so they are the variables of the parents.
    obtain rfl := Except.ok.inj h
    exact ⟨nodup_eraseDups _, used⟩
  · split at h
    · next accepted =>
      obtain rfl := Except.ok.inj h
      obtain ⟨distinct, included⟩ := accepted
      refine ⟨distinct, fun q mem as given u occurs => ?_⟩
      have among := List.all_eq_true.mp included u (used q mem as given u occurs)
      exact List.contains_iff_mem.mp among
    · cases h

theorem parametrized_of_classOf {d : ClassDecl} (h : t.classOf d = .ok c) : c.Parametrized := by
  unfold classOf at h
  dsimp only at h
  obtain ⟨parents, -, h⟩ := exists_of_bind_eq_ok h
  obtain ⟨listed, -, h⟩ := exists_of_bind_eq_ok h
  obtain ⟨annotations, -, h⟩ := exists_of_bind_eq_ok h
  obtain ⟨parameters, accepted, h⟩ := exists_of_bind_eq_ok h
  split at h
  · cases h
  · cases h
    obtain ⟨distinct, includes⟩ := parametrized_of_parametersOf accepted
    exact ⟨distinct, includes⟩

/-- **The type parameters of all classes are in order.** -/
theorem Reachable.parametrized (h : t.Reachable) :
    ∀ k c, t.info? k = some c → c.Parametrized := by
  refine h.invariant (P := fun t => ∀ k c, t.info? k = some c → c.Parametrized) ?_ ?_ ?_
  · intro shared k c known
    obtain ⟨-, rfl⟩ : k = 0 ∧ c = ClassTable.root := by
      simpa [info?, ClassTable.initial, List.getElem?_singleton, eq_comm] using known
    exact ⟨List.nodup_singleton _, fun q mem => by cases mem⟩
  · intro t d added declared ih k c known
    rcases info?_add_cases known with before | ⟨-, rfl⟩
    · exact ih k c before
    · exact parametrized_of_classOf declared
  · intro t t' change ih k c known
    obtain ⟨c₀, before, evolved⟩ := change.exists_before known
    exact (ih k c₀ before).congr evolved.core

/-! ### Towers -/

/-- A storey of a tower: the parameters of the class below, the types that it is applied to, the
parameter that stands for the continuation, and the variable that is passed for it. -/
structure Storey where
  parameters : List TypeVar
  args : List Annotation
  inherited : TypeVar
  passed : TypeVar

namespace Storey

/-- What the search comes to one storey further up. If the types have no variable in the place where
it looks, it goes on with what it has found below. -/
def trace (s : Storey) : Search → Search
  | .found u => (searchArgs s.parameters s.args u).orElse (.found u)
  | .absent => .absent
  | .outOfRange => .outOfRange

/-- The place as counted from the left has the variable that is passed, or it has no variable and the
variable that is passed is the inherited one. -/
def InPlace (s : Storey) : Prop :=
  ∃ a, s.args[s.parameters.idxOf s.inherited]? = some a ∧
    a.asVariable?.getD s.inherited = s.passed

variable {s : Storey}

/-- **When a storey is traced well.** -/
theorem trace_eq_iff (mem : s.inherited ∈ s.parameters) :
    s.trace (.found s.inherited) = .found s.passed ↔ s.InPlace := by
  have position : s.parameters.idxOf? s.inherited = some (s.parameters.idxOf s.inherited) := by
    rw [List.idxOf_eq_getD_idxOf?]
    cases found : s.parameters.idxOf? s.inherited with
    | none => exact absurd mem (List.idxOf?_eq_none_iff.mp found)
    | some i => rfl
  unfold trace searchArgs InPlace
  dsimp only
  rw [position]
  dsimp only
  cases s.args[s.parameters.idxOf s.inherited]? with
  | none => simp [Search.orElse]
  | some a => cases h : a.asVariable? <;> simp [h, Search.ofOption, Search.orElse]

/-- Where the types are in line with the parameters, the storey is traced well. -/
theorem inPlace_of_aligned (mem : s.inherited ∈ s.parameters) (inherits : s.inherited.kind = .single)
    (put : positional s.parameters s.args s.inherited = [.var s.passed])
    (single : s.passed.kind = .single) (aligned : Aligned s.parameters s.args s.inherited) :
    s.InPlace := by
  have plain : s.inherited.kind ≠ .pack := by
    rw [inherits]
    exact nofun
  have there : (s.args.drop (s.parameters.idxOf s.inherited)).take 1 = [.var s.passed] :=
    (positional_of_aligned mem plain aligned).symm.trans put
  have counted := congrArg List.head? there
  rw [List.head?_take, if_neg Nat.one_ne_zero, List.head?_drop] at counted
  refine ⟨.var s.passed, counted, ?_⟩
  rw [asVariable?_eq_some_iff.mpr ⟨rfl, single⟩, Option.getD_some]

end Storey

/-- **Towers of generic classes**, from the root to the given class, with what they put for the
variables of the root, and their storeys, from the top. The class on top applies the one below to
types, and what these put for the continuation of the one below is a variable that stands for a
single type. -/
inductive Tower (t : ClassTable) : Nat → Substitution → List Storey → Prop where
  | root : Tower t 0 .none []
  | applied {k p : Nat} {c b : ClassInfo} {args : List Annotation} {σ : Substitution}
      {storeys : List Storey} {v w : TypeVar} (below : Tower t p σ storeys)
      (known : t.info? k = some c) (parents : c.parents = [⟨p, some args⟩])
      (base : t.info? p = some b) (continuation : σ rootVariable = [.var v])
      (passed : positional b.parameters args v = [.var w]) (single : w.kind = .single) :
      Tower t k (compose (positional b.parameters args) σ) (⟨b.parameters, args, v, w⟩ :: storeys)

/-- The class names its parent alone. -/
def NamesAlone (t : ClassTable) (p k : Nat) : Prop :=
  ∃ c, t.info? k = some c ∧ c.parents = [⟨p, none⟩]

variable {storeys : List Storey}

/-- **What a tower puts for the variable of the root** is a parameter of the class on top that stands
for a single type. -/
theorem Tower.passes (tower : t.Tower k σ storeys) (reachable : t.Reachable) :
    ∃ c w, t.info? k = some c ∧ w ∈ c.parameters ∧ w.kind = .single ∧ σ rootVariable = [.var w] := by
  induction tower with
  | root =>
    obtain ⟨c, known, parameters⟩ := Option.map_eq_some_iff.mp
      (reachable.map_root ClassInfo.parameters fun _ => rfl)
    exact ⟨c, rootVariable, known, by rw [parameters]; exact List.mem_singleton_self _, rfl, rfl⟩
  | @applied k p c b args σ storeys v w below known parents base continuation passed single ih =>
    obtain ⟨_, _, base', mem, -, put⟩ := ih
    obtain rfl := Option.some.inj (base'.symm.trans base)
    obtain rfl := Annotation.var.inj (List.singleton_inj.mp (put.symm.trans continuation))
    -- The variable is among the types that the parent is applied to, so it is a parameter.
    have among : .var w ∈ args := Annotation.mem_of_mem_positional mem (by simp [passed])
    have own : w ∈ c.parameters :=
      (reachable.parametrized k c known).includes ⟨p, some args⟩ (by simp [parents]) args rfl w
        (mem_typeVarsAll among)
    exact ⟨c, w, known, own, single, (compose_of_eq_var continuation).trans passed⟩

/-- **What is found at the top of a tower** is found storey by storey. -/
theorem Tower.searchIn_eq (tower : t.Tower k σ storeys) (reachable : t.Reachable) :
    t.searchIn k = storeys.foldr Storey.trace (.found rootVariable) := by
  induction tower with
  | root => rfl
  | @applied k p c b args σ storeys v w below known parents base continuation passed single ih =>
    have proper : k ≠ 0 := reachable.ne_root known parents
    have found : t.searchIn k = (t.searchApplied ⟨p, some args⟩).orElse (t.search p) := by
      rw [searchIn, if_neg (show k ≠ ClassRef.effect.id from proper),
        reachable.search_eq known parents, searchVia_singleton, searchPlain]
    rw [List.foldr_cons, ← ih, found, searchApplied]
    simp only [base, Option.map_some, Option.getD_some]
    by_cases root : p = 0
    · -- The root is given the variable in the only place that it has.
      subst root
      cases below with
      | applied _ known parents => exact absurd rfl (reachable.ne_root known parents)
      | root =>
        obtain rfl := Annotation.var.inj (List.singleton_inj.mp continuation)
        have parameters : b.parameters = [rootVariable] := by
          simpa [base, ClassTable.root] using reachable.map_root ClassInfo.parameters fun _ => rfl
        have first : args[0]? = some (.var w) := by
          have counted : (args.take 1).head? = some (.var w) := by
            rw [parameters] at passed
            exact congrArg List.head? passed
          rwa [List.head?_take, if_neg Nat.one_ne_zero, List.head?_eq_getElem?] at counted
        have only : searchArgs [rootVariable] args rootVariable = .found w := by
          rw [searchArgs, show [rootVariable].idxOf? rootVariable = some 0 by decide]
          simp only [first, asVariable?_eq_some_iff.mpr ⟨rfl, single⟩, Search.ofOption]
        rw [parameters]
        simp [searchIn, ClassRef.effect, Storey.trace, only, Search.orElse]
    · have plain : t.search p = t.searchIn p := by
        rw [searchIn, if_neg (show p ≠ ClassRef.effect.id from root)]
      rw [plain]
      cases t.searchIn p <;> rfl

/-- Classes that name their parents alone share their continuation variable. -/
theorem Reachable.search_of_namesAlone (h : t.Reachable)
    (below : Relation.ReflTransGen t.NamesAlone k d) : t.search d = t.search k := by
  induction below with
  | refl => rfl
  | tail _ step ih =>
    obtain ⟨c, known, parents⟩ := step
    rw [h.search_of_unapplied known parents, ih]

/-- If the storeys below are traced well, the top is traced well if its own storey is. -/
theorem Tower.trace_eq_iff (tower : t.Tower k σ storeys) (reachable : t.Reachable)
    (lower : ∀ s ∈ storeys.tail, s.InPlace) (put : σ rootVariable = [.var w]) :
    storeys.foldr Storey.trace (.found rootVariable) = .found w ↔ ∀ s ∈ storeys, s.InPlace := by
  induction tower generalizing w with
  | root =>
    obtain rfl := Annotation.var.inj (List.singleton_inj.mp put)
    simp
  | @applied k p c b args σ storeys v u below known parents base continuation passed single ih =>
    obtain rfl := Annotation.var.inj (List.singleton_inj.mp
      (((compose_of_eq_var continuation).trans passed).symm.trans put))
    obtain ⟨_, _, base', mem, -, put'⟩ := below.passes reachable
    obtain rfl := Option.some.inj (base'.symm.trans base)
    obtain rfl := Annotation.var.inj (List.singleton_inj.mp (put'.symm.trans continuation))
    have found := (ih (fun s mem => lower s (List.mem_of_mem_tail mem)) continuation).mpr lower
    have top := Storey.trace_eq_iff (s := ⟨_, args, _, u⟩) mem
    rw [List.foldr_cons, found, top, List.forall_mem_cons]
    exact ⟨fun inPlace => ⟨inPlace, lower⟩, And.left⟩

/-- A storey whose types are in line with the parameters is traced well. -/
theorem Tower.inPlace (tower : t.Tower k σ storeys) (reachable : t.Reachable) :
    ∀ s ∈ storeys, Aligned s.parameters s.args s.inherited → s.InPlace := by
  induction tower with
  | root => exact fun s mem => by cases mem
  | @applied k p c b args σ storeys v w below known parents base continuation passed single ih =>
    obtain ⟨_, _, base', mem, inherits, put⟩ := below.passes reachable
    obtain rfl := Option.some.inj (base'.symm.trans base)
    obtain rfl := Annotation.var.inj (List.singleton_inj.mp (put.symm.trans continuation))
    intro s among aligned
    rcases List.mem_cons.mp among with rfl | among
    · exact Storey.inPlace_of_aligned mem inherits passed single aligned
    · exact ih s among aligned

/-- **How the continuation variable is traced through a tower of generic classes** of any height, and
to all classes that are reached from its top by naming the parent alone.

* The composed substitutions put a type parameter of the class on top for the variable of the root.
* What is found is found storey by storey.
* It is that parameter if the types of every storey are in line with the parameters that they are
  given for: no pack stands before the continuation, or the pack takes a single type.
* On top of a tower that is traced well, it is that parameter if and only if the storey has it in the
  place that is looked at. -/
theorem continuation_of_tower (reachable : t.Reachable) (tower : t.Tower k σ storeys)
    (proper : k ≠ 0) (below : Relation.ReflTransGen t.NamesAlone k d) :
    ∃ c w, t.info? k = some c ∧ w ∈ c.parameters ∧ σ rootVariable = [.var w] ∧
      t.search d = storeys.foldr Storey.trace (.found rootVariable) ∧
      ((∀ s ∈ storeys, Aligned s.parameters s.args s.inherited) → t.search d = .found w) ∧
      ((∀ s ∈ storeys.tail, s.InPlace) → (t.search d = .found w ↔ ∀ s ∈ storeys, s.InPlace)) := by
  obtain ⟨c, w, known, own, -, put⟩ := tower.passes reachable
  have found : t.search d = storeys.foldr Storey.trace (.found rootVariable) := by
    rw [reachable.search_of_namesAlone below, ← tower.searchIn_eq reachable, searchIn,
      if_neg (show k ≠ ClassRef.effect.id from proper)]
  refine ⟨c, w, known, own, put, found, fun aligned => ?_, fun lower => ?_⟩
  · have inPlace : ∀ s ∈ storeys, s.InPlace := fun s mem =>
      tower.inPlace reachable s mem (aligned s mem)
    rw [found]
    exact (tower.trace_eq_iff reachable (fun s mem => inPlace s (List.mem_of_mem_tail mem)) put).mpr
      inPlace
  · rw [found]
    exact tower.trace_eq_iff reachable lower put

end ClassTable

/-! ### A tower of three storeys -/

namespace Storeys

open ClassTable

/-- A class without fields. -/
def decl (name : String) (params : List String) (parent : String) (args : Option (List TypeExpr)) :
    ClassDecl where
  name := name
  params := params.map fun p => (p, false)
  parents := [⟨parent, args⟩]
  generic := none
  fields := []
  decorators := []
  continuation := none

/-- What is known of such a class. -/
def info (id : Nat) (name : String) (params : List TypeVar) (parent : Parent) (above : List Nat)
    (search : Search) : ClassInfo where
  name := name
  parents := [parent]
  typeVars := params
  parameters := params
  lineage := id :: above
  search := search
  annotations := []
  attributes := []
  layout := .unsettled
  slot := none

/-- The parameters of `State`. -/
def s₁ : TypeVar := ⟨"S", .family 1, .single⟩
def k₁ : TypeVar := ⟨"K", .family 1, .single⟩

/-- The parameters of `Swap`, which lists them the other way round. -/
def k₂ : TypeVar := ⟨"K", .family 2, .single⟩
def s₂ : TypeVar := ⟨"S", .family 2, .single⟩

/-- The only parameter of `Twice`, which stands for both parameters of `Swap`. -/
def a₃ : TypeVar := ⟨"A", .family 3, .single⟩

def state : ClassInfo := info 1 "State" [s₁, k₁] ⟨0, some [.var k₁]⟩ [0] (.found k₁)

def swap : ClassInfo :=
  info 2 "Swap" [k₂, s₂] ⟨1, some [.apply (.builtin "list") [.var s₂], .var k₂]⟩ [1, 0] (.found k₂)

/-- Three generic classes, one above the other, and two classes below that name their parents
alone. -/
def table : ClassTable where
  classes := [
    ClassTable.root,
    state,
    swap,
    info 3 "Twice" [a₃] ⟨2, some [.var a₃, .var a₃]⟩ [2, 1, 0] (.found a₃),
    info 4 "Quiet" [] ⟨3, none⟩ [3, 2, 1, 0] (.found a₃),
    info 5 "Silent" [] ⟨4, none⟩ [4, 3, 2, 1, 0] (.found a₃)]
  shared := []
  bound := [("Silent", 5), ("Quiet", 4), ("Twice", 3), ("Swap", 2), ("State", 1)]

theorem reachable_table : table.Reachable := by
  have declared : ((ClassTable.initial []).declareAll [
      decl "State" ["S", "K"] "Effect" (some [.name "K"]),
      decl "Swap" ["K", "S"] "State" (some [.apply "list" [.name "S"], .name "K"]),
      decl "Twice" ["A"] "Swap" (some [.name "A", .name "A"]),
      decl "Quiet" [] "Twice" none,
      decl "Silent" [] "Quiet" none]).1 = table := by cbv
  rw [← declared]
  exact (Reachable.initial []).declareAll _

/-- What the tower puts for the variables of the root. -/
def composed : Substitution :=
  compose (positional [k₂, s₂] [.var a₃, .var a₃]) <|
    compose (positional [s₁, k₁] [.apply (.builtin "list") [.var s₂], .var k₂]) <|
      compose (positional [rootVariable] [.var k₁]) .none

/-- Its storeys, from the top. -/
def storeys : List Storey := [
  ⟨[k₂, s₂], [.var a₃, .var a₃], k₂, a₃⟩,
  ⟨[s₁, k₁], [.apply (.builtin "list") [.var s₂], .var k₂], k₁, k₂⟩,
  ⟨[rootVariable], [.var k₁], rootVariable, k₁⟩]

theorem tower_twice : table.Tower 3 composed storeys := by
  have ground : table.Tower 1 (compose (positional [rootVariable] [.var k₁]) .none) _ :=
    .applied (b := ClassTable.root) .root rfl rfl rfl rfl rfl rfl
  have middle : table.Tower 2 (compose
      (positional [s₁, k₁] [.apply (.builtin "list") [.var s₂], .var k₂])
      (compose (positional [rootVariable] [.var k₁]) .none)) _ :=
    .applied (b := state) (v := k₁) ground rfl rfl rfl rfl rfl rfl
  exact .applied (b := swap) (v := k₂) middle rfl rfl rfl rfl rfl rfl

theorem silent_below : Relation.ReflTransGen table.NamesAlone 3 5 :=
  .tail (.single ⟨_, rfl, rfl⟩) ⟨_, rfl, rfl⟩

/-- The variable of `Twice` is found in `Silent`, two classes below. -/
theorem continuation_of_tower_silent : composed rootVariable = [.var a₃] ∧
    table.search 5 = .found a₃ := by
  obtain ⟨c, w, known, own, put, -, aligned, -⟩ :=
    continuation_of_tower reachable_table tower_twice (by decide) silent_below
  obtain rfl : w = a₃ := by
    obtain rfl := Option.some.inj known
    exact List.mem_singleton.mp own
  refine ⟨put, aligned fun s mem => .inl ?_⟩
  fin_cases mem <;> rfl

/-! ### Towers whose ground storey has a pack -/

/-- The pack of `Record`. -/
def ts₁ : TypeVar := ⟨"Ts", .family 1, .pack⟩

/-- The parameters of `Get`, which applies `Record` to three types. -/
def a₂ : TypeVar := ⟨"A", .family 2, .single⟩

/-- The parameter of `Put`, which applies `Record` to a single type. -/
def k₃ : TypeVar := ⟨"K", .family 3, .single⟩

def record : ClassInfo := info 1 "Record" [ts₁, k₁] ⟨0, some [.var k₁]⟩ [0] (.found k₁)

/-- A class with a pack before its continuation variable, and two classes that apply it. -/
def packs : ClassTable where
  classes := [
    ClassTable.root,
    record,
    info 2 "Get" [a₂, k₂] ⟨1, some [.named (.builtin "int"), .var a₂, .var k₂]⟩ [1, 0] (.found a₂),
    info 3 "Put" [k₃] ⟨1, some [.var k₃]⟩ [1, 0] .outOfRange]
  shared := []
  bound := [("Put", 3), ("Get", 2), ("Record", 1)]

theorem reachable_packs : packs.Reachable := by
  have declared : ((ClassTable.initial []).declareAll [
      { decl "Record" ["Ts", "K"] "Effect" (some [.name "K"]) with packs := ["Ts"] },
      decl "Get" ["A", "K"] "Record" (some [.name "int", .name "A", .name "K"]),
      decl "Put" ["K"] "Record" (some [.name "K"])]).1 = packs := by cbv
  rw [← declared]
  exact (Reachable.initial []).declareAll _

/-- **Behind a pack the search looks at the wrong place.** In `Get` it finds the variable that the
pack takes, and in `Put` it runs out of types, although both pass their `K` on as the continuation. -/
theorem misplaced : packs.Reachable ∧
    (∃ σ storeys, packs.Tower 2 σ storeys ∧ σ rootVariable = [.var k₂] ∧
      packs.search 2 = .found a₂) ∧
    ∃ σ storeys, packs.Tower 3 σ storeys ∧ σ rootVariable = [.var k₃] ∧
      packs.search 3 = .outOfRange := by
  have ground : packs.Tower 1 (compose (positional [rootVariable] [.var k₁]) .none) _ :=
    .applied (b := ClassTable.root) .root rfl rfl rfl rfl rfl rfl
  refine ⟨reachable_packs, ?_⟩
  exact ⟨⟨_, _, .applied (b := record) (v := k₁) (w := k₂) ground rfl rfl rfl rfl rfl rfl, rfl, rfl⟩,
    _, _, .applied (b := record) (v := k₁) (w := k₃) ground rfl rfl rfl rfl rfl rfl, rfl, rfl⟩

end Storeys

end EffectTrees
