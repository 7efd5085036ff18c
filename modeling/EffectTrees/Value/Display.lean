import EffectTrees.Fault
import EffectTrees.Value

/-!
# What a value displays

An instance holds what it was given when it was made, but it displays the fields that its class
lists now. A class may have become a record since the instance was made, so a field may be missing:
then the value cannot be displayed. `Value.display` is the value in which each instance holds the
fields that it displays.
-/

namespace EffectTrees

/-- What displaying a value gives. -/
abbrev Displayed := Except Fault

variable (t : ClassTable)

mutual

/-- The value as it is displayed. What functions hold is not looked at. -/
def Value.display : Value → Displayed Value
  | .scalar s => return .scalar s
  | .list items => return .list (← Value.displayAll items)
  | .tuple items => return .tuple (← Value.displayAll items)
  | .poison => return .poison
  | .aborted => return .aborted
  | .payload p => return .payload (← p.display)
  | .tree u => return .tree (← u.display)
  | .plain u => return .plain (← u.display)
  | .descriptor c fields => do
    let own := Value.displayFields fields
    let shown ← ((t.fields? c.id).getD []).mapM fun f =>
      match t.memberOf? c.id own (fun s => return .scalar s) f.name with
      | some v => return (f.name, ← v)
      | none => throw .missingMember
    return .descriptor c shown
  | .function f => return .function f
  | .builder b => return .builder (← b.display)
  | .analysis result trace => do
    let r ← Value.displayResult result
    return .analysis r (← Value.displayAll trace)
  | .slot name kind arity => do
    let n ← name.display
    let k ← kind.display
    return .slot n k (← arity.display)
  | .locator c => return .locator c
  | .cls c => return .cls c
  | .builtinClass name => return .builtinClass name
  | .target u => return .target u
  | .snoc init last => do
    let i ← init.display
    return .snoc i (← last.display)
  | .cons head tail => do
    let h ← head.display
    return .cons h (← tail.display)

/-- Several values as they are displayed. -/
def Value.displayAll : List Value → Displayed (List Value)
  | [] => return []
  | v :: vs => do
    let w ← v.display
    return w :: (← Value.displayAll vs)

/-- Named values as they are displayed. -/
def Value.displayFields : List (String × Value) → List (String × Displayed Value)
  | [] => []
  | (name, v) :: fields => (name, v.display) :: Value.displayFields fields

/-- The result of an analysis as it is displayed. -/
def Value.displayResult : Option Value → Displayed (Option Value)
  | none => return none
  | some v => return some (← v.display)

/-- A payload as it is displayed. -/
def Payload.display : Payload → Displayed Payload
  | .resolved v => return .resolved (← v.display)
  | .deferred f => return .deferred f

/-- A tree as it is displayed. -/
def Tree.display : Tree → Displayed Tree
  | .done p => return .done (← p.display)
  | .suspended d => return .suspended (← d.display)
  | .failed => return .failed

/-- A tree that cannot fail, as it is displayed. -/
def PlainTree.display : PlainTree → Displayed PlainTree
  | .pure v => return .pure (← v.display)
  | .free d => return .free (← d.display)

/-- A builder as it is displayed. What is pending stays hidden. -/
def Builder.display : Builder → Displayed Builder
  | .mk u pending => return .mk (← u.display) pending

end

end EffectTrees
