import EffectTrees.Expr.Conversion
import EffectTrees.Expr.Eval

/-!
# The machine

Calling a function runs operations and expressions that call functions in turn.

* `Value.apply` is one call, with the calls inside it left to a caller.
* `Machine.call` grants calls inside calls up to a given depth.
* `Machine.run` evaluates an expression with as much depth as any computation that ends can use up
  in practice.
-/

namespace EffectTrees

namespace Value

/-- One call. The calls inside it are left to `call`. -/
def apply (call : Caller) (f : Value) (args : List Value) : Act Value :=
  match f, args with
  | function (.closure params body env), _ =>
    -- Of several parameters of one name the last one counts.
    if params.length = args.length then body.eval call ((params.zip args).reverse ++ env)
    else Act.wrong .arity
  | function .betray, _ => Act.abort
  | function (.frame k), [v] => k.run call v
  | function (.delayed k v), [] => k.run call v
  | function (.after next inner), _ => do
    let v ← call inner args
    call next [v]
  | function .register, [v] => Library.registerValue v
  | locator family, [d] => locate call family d
  | poison, _ => Act.abort
  | cls c, _ => Instance.makeInOrder c args
  | builtinClass name, _ => convert name args
  | _, _ => Act.fail .misuse

end Value

namespace Machine

/-- Calls with calls inside them, up to the given depth. -/
def call : Nat → Caller
  | 0 => fun _ _ => Act.tooDeep
  | depth + 1 => fun f args => f.apply (call depth) args

@[simp] theorem call_zero (f : Value) (args : List Value) : call 0 f args = Act.tooDeep := rfl

theorem call_succ (depth : Nat) (f : Value) (args : List Value) :
    call (depth + 1) f args = f.apply (call depth) args := rfl

/-- The depth of calls that every computation is granted. -/
def depthLimit : Nat := 1000000000

/-- The outcome of an expression in a world, and the world that it leaves behind; nothing if it
exceeds the depth of calls that it is granted. -/
def run (env : Env) (e : Expr) (w : World) : Option (Except Signal Value × World) :=
  (e.eval (call depthLimit) env).run.run w

end Machine

end EffectTrees
