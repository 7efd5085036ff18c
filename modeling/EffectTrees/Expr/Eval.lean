import EffectTrees.Expr.Library
import EffectTrees.Expr.Operator

/-!
# Evaluation

Expressions are evaluated from left to right and strictly. `Expr.eval` goes down the expression, and
leaves the calls of functions to a caller; `Value.apply` says what a call does, and `Machine.call`
lets calls be calls again, as deep as it is granted.
-/

namespace EffectTrees

/-- The values of variables, innermost first. -/
abbrev Env := List (String × Value)

namespace Value

/-- The value belongs to the class of the given name. -/
def belongsTo (v : Value) (cls : String) : Act Bool := do
  match cls with
  | "int" =>
    match v with
    | scalar (.int _) | scalar (.bool _) => return true
    | _ => return false
  | "str" =>
    match v with
    | scalar (.str _) => return true
    | _ => return false
  | _ =>
    match (← Act.classes).named? cls with
    | some c => return v.isA c.id
    | none => Act.wrong (.cls cls)

/-- The class of the given name. -/
def ofClassName (name : String) : Act Value := do
  if name = "int" ∨ name = "str" then return builtinClass name
  match (← Act.classes).named? name with
  | some c => return cls c
  | none => Act.wrong (.cls name)

/-- Makes an instance of a class. -/
def construct (c : Value) (args : List (String × Value)) : Act Value :=
  match c with
  | cls c => Instance.make c args
  | builtinClass name =>
    if !args.isEmpty then Act.fail .misuse
    else return if name = "int" then int 0 else str ""
  | _ => Act.fail .misuse

/-- The field of a value, as an expression asks for it. An instance has the fields that its class
lists now. -/
def field (v : Value) (name : String) : Act Value := do
  match v, v.member? name with
  | poison, _ => poisonMember name
  | descriptor c _, _ =>
    if ((← Act.classes).fields? c.id).any fun fs => fs.any fun f => f.name = name then v.lookup name
    else Act.wrong (.field name)
  | _, some x => return x
  | _, none => Act.wrong (.field name)

/-- A value that an expression may call. -/
def isCallable : Value → Bool
  | function _ => true
  | locator _ => true
  | poison => true
  | _ => false

/-- The number of turns that a value stands for. -/
def turns : Value → Act Nat
  | scalar (.int i) => return i.toNat
  | scalar (.bool b) => return b.toNat
  | poison => Act.abort
  | _ => Act.fail .misuse

end Value

namespace Env

/-- The value of a variable. -/
def find (env : Env) (name : String) : Act Value :=
  match env.lookup name with
  | some v => return v
  | none => Act.wrong (.unbound name)

/-- The variables with fields of a value bound to names. -/
def bindFields (env : Env) (v : Value) : List (String × String) → Act Env
  | [] => return env
  | (name, field) :: rest => do bindFields ((name, ← v.lookup field) :: env) v rest

end Env

/-- Repeats a turn so many times, from the given index on. -/
def repeated (turn : Nat → Value → Act Value) (index : Nat) (acc : Value) : Nat → Act Value
  | 0 => return acc
  | n + 1 => do repeated turn (index + 1) (← turn index acc) n

mutual

/-- The value of an expression. -/
def Expr.eval (call : Caller) (env : Env) : Expr → Act Value
  | .scalar s => return .scalar s
  | .var name => env.find name
  | .lambda params body => return .function (.closure params body env)
  | .call fn args => do
    let f ← fn.eval call env
    let vs ← Expr.evalAll call env args
    if f.isCallable then call f vs else Act.wrong .notFunction
  | .cond test yes no => do
    if ← (← test.eval call env).truth then yes.eval call env else no.eval call env
  | .bind name value body => do body.eval call ((name, ← value.eval call env) :: env)
  | .list items => return .list (← Expr.evalAll call env items)
  | .tuple items => return .tuple (← Expr.evalAll call env items)
  | .log entry body => do
    Act.log (← entry.eval call env)
    body.eval call env
  | .raise kind message => Act.fail (.raised kind message)
  | .attempt body handler =>
    tryCatch (body.eval call env) fun s =>
      match s with
      -- Only `probe` may turn an abort into anything else.
      | .abort => Act.abort
      | .fault _ => handler.eval call env
  | .loop turns start acc index body => do
    let n ← (← turns.eval call env).turns
    let first ← start.eval call env
    repeated (fun i v => body.eval call ((index, .int i) :: (acc, v) :: env)) 0 first n
  | .make className args => do
    let c ← Value.ofClassName className
    c.construct (← Expr.evalNamed call env args)
  | .cases subject branches otherwise => do
    let v ← subject.eval call env
    match ← Expr.evalCases call env v branches with
    | some w => return w
    | none => Expr.evalOption call env otherwise
  | .field subject name => do (← subject.eval call env).field name
  | .cls name => Value.ofClassName name
  | .target members => return .target (.custom (← Expr.evalNamed call env members))
  | .operator name args => do Operator.run name (← Expr.evalAll call env args)
  | .library name args => do Library.run call name (← Expr.evalAll call env args)
  | .malformed => Act.wrong .malformed

/-- The values of several expressions. -/
def Expr.evalAll (call : Caller) (env : Env) : List Expr → Act (List Value)
  | [] => return []
  | e :: es => do
    let v ← e.eval call env
    return v :: (← Expr.evalAll call env es)

/-- The values of several named expressions. -/
def Expr.evalNamed (call : Caller) (env : Env) :
    List (String × Expr) → Act (List (String × Value))
  | [] => return []
  | (name, e) :: es => do
    let v ← e.eval call env
    return (name, v) :: (← Expr.evalNamed call env es)

/-- The value of the first case that a value belongs to. -/
def Expr.evalCases (call : Caller) (env : Env) (v : Value) :
    List ((String × List (String × String)) × Expr) → Act (Option Value)
  | [] => return none
  | ((className, fields), body) :: rest => do
    if ← v.belongsTo className then
      let env' ← env.bindFields v fields
      return some (← body.eval call env')
    else Expr.evalCases call env v rest

/-- The value of an expression that may be absent, which is null then. -/
def Expr.evalOption (call : Caller) (env : Env) : Option Expr → Act Value
  | none => return .null
  | some e => e.eval call env

end

end EffectTrees
