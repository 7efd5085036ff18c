import EffectTrees.Scalar

/-!
# Expressions

The language in which programs over effect trees are written: literals, variables, functions and
calls, lists and tuples, a log, errors that are raised and handled, bounded loops, descriptors that
are made and taken apart, and operations of two kinds. `Expr.operator` is an operation on plain
values, and `Expr.library` one of the operations on trees, builders and effect classes.

Operations are named by texts, so an unknown name is an error that shows only when it is reached.
-/

namespace EffectTrees

/-- An expression. -/
inductive Expr where
  | scalar (s : Scalar)
  | var (name : String)
  /-- A function that remembers the variables around it. -/
  | lambda (params : List String) (body : Expr)
  | call (fn : Expr) (args : List Expr)
  | cond (test yes no : Expr)
  | bind (name : String) (value body : Expr)
  | list (items : List Expr)
  | tuple (items : List Expr)
  /-- Writes the value of `entry` to the log and goes on with `body`. -/
  | log (entry body : Expr)
  | raise (kind message : String)
  /-- `body` or, if it fails otherwise than by an abort, `handler`. -/
  | attempt (body handler : Expr)
  /-- Runs `body` so many times, with the last value and the number of the turn. -/
  | loop (turns : Expr) (start : Expr) (acc index : String) (body : Expr)
  /-- Makes an instance of a class from the values of some fields. -/
  | make (cls : String) (args : List (String × Expr))
  /-- The body of the first case whose class the value belongs to, with fields bound to names. -/
  | cases (subject : Expr) (branches : List ((String × List (String × String)) × Expr))
      (otherwise : Option Expr)
  | field (subject : Expr) (name : String)
  | cls (name : String)
  /-- A target made of the given members. -/
  | target (members : List (String × Expr))
  | operator (name : String) (args : List Expr)
  | library (name : String) (args : List Expr)
  /-- What is no expression. -/
  | malformed
  deriving Inhabited

end EffectTrees
