import EffectTrees.Annotation.Formation
import EffectTrees.Family.Declaration
import EffectTrees.Proofs.Annotation.Occurrence

/-!
# Renaming and substituting the variables of a type

A class that is applied to variables of its heir speaks of these variables from there on. What its
field types come to there is the type with its variables renamed, `Annotation.rename`, at any depth.
Texts are not looked into: their names mean nothing until they are read. A type is left alone by a
renaming that leaves its variables alone (`rename_eq_self`).

A class that is applied to other types has these types put for its variables, `Annotation.subst`; a
pack has any number of types put for it. Substitutions are composed by applying the later one to what
the earlier one puts (`Annotation.compose`).

Which types are put for a parameter can be told from its place among the parameters
(`Annotation.positional`). If a pack stands before it, the place among the types may be another one.
It is the same one if the types are in line with the parameters (`Annotation.positional_of_aligned`).
-/

namespace EffectTrees

namespace Annotation

/-! ### Renaming -/

mutual

/-- The type with its variables renamed, at any depth. -/
def rename (σ : TypeVar → TypeVar) : Annotation → Annotation
  | var v => var (σ v)
  | apply head args => apply head (renameAll σ args)
  | function params result => function (renameAll σ params) (rename σ result)
  | anyFunction result => anyFunction (rename σ result)
  | specFunction spec result => specFunction (σ spec) (rename σ result)
  | union kind members => union kind (renameAll σ members)
  | annotated type => annotated (rename σ type)
  | classVar type => classVar (rename σ type)
  | packed types => packed (renameAll σ types)
  | null => null
  | nullType => nullType
  | any => any
  | ellipsis => ellipsis
  | named n => named n
  | literal values => literal values
  | text type => text type
  | reference type inClass => reference type inClass

/-- Several types with their variables renamed. -/
def renameAll (σ : TypeVar → TypeVar) : List Annotation → List Annotation
  | [] => []
  | a :: as => rename σ a :: renameAll σ as

end

variable {σ : TypeVar → TypeVar}

theorem asVariable?_eq_some_iff {a : Annotation} {v : TypeVar} :
    a.asVariable? = some v ↔ a = var v ∧ v.kind = .single := by
  cases a with
  | var w =>
    by_cases kind : w.kind = .single <;> simp [asVariable?, kind]
    · rintro rfl
      exact kind
    · rintro rfl
      exact kind
  | _ => simp [asVariable?]

/-- A renaming that keeps the kinds of variables renames the variable that a type is, if it is
one. -/
theorem asVariable?_rename (kinds : ∀ v, (σ v).kind = v.kind) (a : Annotation) :
    (a.rename σ).asVariable? = a.asVariable?.map σ := by
  cases a with
  | var v =>
    rw [rename, asVariable?, asVariable?, kinds v]
    split <;> rfl
  | _ => rfl

mutual

/-- A renaming that leaves the variables of a type alone leaves the type alone. -/
theorem rename_eq_self : ∀ a : Annotation, (∀ v, Occurs v a → σ v = v) → a.rename σ = a
  | .var v, fixed => by rw [rename, fixed v .var]
  | .apply head args, fixed => by
    have same := renameAll_eq_self args fun a mem v occurs => fixed v (.argument mem occurs)
    rw [rename, same]
  | .function params result, fixed => by
    have left := renameAll_eq_self params fun a mem v occurs => fixed v (.parameter mem occurs)
    have right := rename_eq_self result fun v occurs => fixed v (.result occurs)
    rw [rename, left, right]
  | .anyFunction result, fixed => by
    have same := rename_eq_self result fun v occurs => fixed v (.anyResult occurs)
    rw [rename, same]
  | .specFunction spec result, fixed => by
    have same := rename_eq_self result fun v occurs => fixed v (.specResult occurs)
    rw [rename, same, fixed spec .spec]
  | .union kind members, fixed => by
    have same := renameAll_eq_self members fun a mem v occurs => fixed v (.member mem occurs)
    rw [rename, same]
  | .annotated type, fixed => by
    have same := rename_eq_self type fun v occurs => fixed v (.annotated occurs)
    rw [rename, same]
  | .classVar type, fixed => by
    have same := rename_eq_self type fun v occurs => fixed v (.classVar occurs)
    rw [rename, same]
  | .packed types, fixed => by
    have same := renameAll_eq_self types fun a mem v occurs => fixed v (.packed mem occurs)
    rw [rename, same]
  | .null, _ | .nullType, _ | .any, _ | .ellipsis, _ | .named _, _ | .literal _, _ | .text _, _
  | .reference _ _, _ => rfl

theorem renameAll_eq_self : ∀ as : List Annotation,
    (∀ a ∈ as, ∀ v, Occurs v a → σ v = v) → renameAll σ as = as
  | [], _ => rfl
  | a :: as, fixed => by
    have head := rename_eq_self a (fixed a List.mem_cons_self)
    have rest := renameAll_eq_self as fun b mem => fixed b (List.mem_cons_of_mem a mem)
    rw [renameAll, head, rest]

end

/-! ### Substituting -/

/-- What is put for each variable: several types for a pack, and a single type otherwise. -/
abbrev Substitution := TypeVar → List Annotation

/-- Every variable stays what it is. -/
def Substitution.none : Substitution := fun v => [var v]

/-- A function type whose parameters are given together: by a parameter specification, by several
types that stand for one, or by anything that leaves them open. -/
def functionOver (params result : Annotation) : Annotation :=
  match params with
  | var spec => specFunction spec result
  | packed types => function types result
  | _ => anyFunction result

/-- What a type comes to where types are listed, given what it comes to elsewhere: there is room for
all that is put for a variable. -/
def spread (σ : Substitution) (a comes : Annotation) : List Annotation :=
  match a with
  | var v => σ v
  | _ => [comes]

mutual

/-- The type with types put for its variables, at any depth. Unions are brought to normal form
again. -/
def subst (σ : Substitution) : Annotation → Annotation
  | var v => (σ v).headD (var v)
  | apply head args => apply head (substAll σ args)
  | function params result => function (substAll σ params) (subst σ result)
  | anyFunction result => anyFunction (subst σ result)
  | specFunction spec result => functionOver ((σ spec).headD (var spec)) (subst σ result)
  | union kind members => normalUnion kind (substAll σ members)
  | annotated type => annotated (subst σ type)
  | classVar type => classVar (subst σ type)
  | packed types => packed (substAll σ types)
  | null => null
  | nullType => nullType
  | any => any
  | ellipsis => ellipsis
  | named n => named n
  | literal values => literal values
  | text type => text type
  | reference type inClass => reference type inClass

/-- Several types with types put for their variables. -/
def substAll (σ : Substitution) : List Annotation → List Annotation
  | [] => []
  | a :: as => spread σ a (subst σ a) ++ substAll σ as

end

/-- One substitution after another one. -/
def compose (later earlier : Substitution) : Substitution := fun v => substAll later (earlier v)

/-- A substitution that follows a renaming of the variable. -/
theorem compose_of_eq_var {later earlier : Substitution} {v w : TypeVar}
    (named : earlier v = [var w]) : compose later earlier v = later w := by
  simp [compose, named, substAll, spread]

/-- What is put for the type parameters of a class that is applied to types: for each parameter the
type in its place, and for a pack all types that the parameters behind it leave over. Other variables
are left as they are. -/
def positional : List TypeVar → List Annotation → Substitution
  | [], _, v => [var v]
  | u :: parameters, args, v =>
    let taken := if u.kind = .pack then args.length - parameters.length else 1
    if v = u then args.take taken else positional parameters (args.drop taken) v

/-- What is put for a parameter is among the types that the class is applied to. -/
theorem mem_of_mem_positional {parameters : List TypeVar} {args : List Annotation} {v : TypeVar}
    {a : Annotation} (mem : v ∈ parameters) (put : a ∈ positional parameters args v) : a ∈ args := by
  induction parameters generalizing args with
  | nil => cases mem
  | cons u parameters ih =>
    rw [positional] at put
    split at put
    · exact List.mem_of_mem_take put
    · next other => exact List.mem_of_mem_drop (ih ((List.mem_cons.mp mem).resolve_left other) put)

/-- The types are in line with the parameters up to the given one: there are as many types as
parameters, or the parameters before it are no packs. -/
def Aligned (parameters : List TypeVar) (args : List Annotation) (v : TypeVar) : Prop :=
  args.length = parameters.length ∨ ∀ u ∈ parameters.takeWhile (· ≠ v), u.kind ≠ .pack

/-- Where the types are in line, the place of a parameter can be counted from the left. -/
theorem positional_of_aligned {parameters : List TypeVar} {args : List Annotation} {v : TypeVar}
    (mem : v ∈ parameters) (single : v.kind ≠ .pack) (aligned : Aligned parameters args v) :
    positional parameters args v = (args.drop (parameters.idxOf v)).take 1 := by
  induction parameters generalizing args with
  | nil => cases mem
  | cons u parameters ih =>
    rw [positional]
    by_cases same : v = u
    · subst same
      simp [single]
    · have rest : v ∈ parameters := (List.mem_cons.mp mem).resolve_left same
      have earlier : (u :: parameters).takeWhile (· ≠ v) = u :: parameters.takeWhile (· ≠ v) :=
        List.takeWhile_cons_of_pos (by simpa using Ne.symm same)
      -- A pack that stands before has a single type, since the other parameters have one each.
      have one : (if u.kind = .pack then args.length - parameters.length else 1) = 1 := by
        split
        · next pack =>
          rcases aligned with equal | before
          · simp [equal]
          · exact absurd pack (before u (earlier ▸ List.mem_cons_self))
        · rfl
      have behind : Aligned parameters (args.drop 1) v := by
        rcases aligned with equal | before
        · exact .inl (by simp [equal])
        · exact .inr fun w among => before w (earlier ▸ List.mem_cons_of_mem u among)
      have place : (u :: parameters).idxOf v = parameters.idxOf v + 1 := by
        rw [List.idxOf_cons, beq_false_of_ne (Ne.symm same), cond_false]
      rw [one, if_neg same, ih rest behind, List.drop_drop, place, Nat.add_comm]

end Annotation

end EffectTrees
