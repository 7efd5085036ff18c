import EffectTrees.Family.Declaration
import EffectTrees.Machine

/-!
# Programs

A program declares classes and then takes steps. Each step evaluates an expression; its value can be
given a name for the steps after it. A step that fails gives nothing a name, and the steps after it
run all the same.

* `Program.run` answers each declaration and each step, in order.
-/

namespace EffectTrees

/-- An expression to evaluate, and the name that its value is given if it has one. -/
structure Step where
  body : Expr
  name : Option String
  /-- The value is not displayed. -/
  isQuiet : Bool

/-- A program. -/
structure Program where
  /-- The names of the type variables that all declarations share. The names of parameter
  specifications are marked. -/
  shared : List (String × Bool)
  /-- The names of those that are packs. -/
  packs : List String := []
  decls : List ClassDecl
  steps : List Step

/-- The type variables that all declarations share. -/
def Program.variables (p : Program) : List TypeVar :=
  (p.shared.foldl putNamed []).map fun q => ⟨q.1, .shared, .of p.packs q⟩

/-- What a step comes to. -/
inductive Outcome where
  /-- The value, as it is displayed. -/
  | shown (v : Value)
  /-- There is a value, but it is not displayed. -/
  | hidden
  | ended (s : Signal)
  /-- The step exceeded the depth of calls that it was granted. -/
  | exhausted

/-- The answer to a step. -/
structure StepAnswer where
  outcome : Outcome
  log : List Value
  remarks : List Remark

namespace ClassTable

/-- Declares several classes, in order. -/
def declareAll (t : ClassTable) : List ClassDecl → ClassTable × List Declared
  | [] => (t, [])
  | d :: ds =>
    let (t', answer) := t.declare d
    let (t'', answers) := declareAll t' ds
    (t'', answer :: answers)

end ClassTable

namespace World

/-- The world in which the first step runs. -/
def initial (t : ClassTable) : World := ⟨t, .none, [], []⟩

/-- The world with nothing logged and no remarks made. -/
def fresh (w : World) : World := { w with log := [], remarks := [] }

end World

namespace Step

/-- The variables after a step with the given value. -/
def bind (s : Step) (v : Value) (env : Env) : Env :=
  match s.name with
  | some name => (name, v) :: env
  | none => env

/-- What a step with the given value comes to. -/
def outcome (s : Step) (t : ClassTable) (v : Value) : Outcome :=
  if s.isQuiet then .hidden
  else match v.display t with
    | .ok shown => .shown shown
    | .error f => .ended (.fault f)

/-- Takes a step. A value that cannot be displayed is lost. -/
def take (s : Step) (env : Env) (w : World) : Env × World × StepAnswer :=
  match Machine.run env s.body w.fresh with
  | none => (env, w, ⟨.exhausted, [], []⟩)
  | some (r, w') =>
    let answer (o : Outcome) : StepAnswer := ⟨o, w'.log.reverse, w'.remarks.reverse⟩
    match r with
    | .error signal => (env, w', answer (.ended signal))
    | .ok v =>
      match s.outcome w'.classes v with
      | .ended signal => (env, w', answer (.ended signal))
      | o => (s.bind v env, w', answer o)

/-- Takes several steps, in order. -/
def takeAll (env : Env) (w : World) : List Step → List StepAnswer
  | [] => []
  | s :: ss =>
    let (env', w', answer) := s.take env w
    answer :: takeAll env' w' ss

end Step

namespace Program

/-- The answers to the declarations and to the steps of a program. -/
def run (p : Program) : List ClassTable.Declared × List StepAnswer :=
  let (t, declared) := (ClassTable.initial p.variables).declareAll p.decls
  (declared, Step.takeAll [] (.initial t) p.steps)

end Program

end EffectTrees
