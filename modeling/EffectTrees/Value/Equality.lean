import EffectTrees.Fault
import EffectTrees.Value

/-!
# Equality of values

Two values are compared part by part, from the left, up to the first difference. A comparison aborts
when it comes to the unknown argument, except that the unknown argument inside a larger value counts
as equal to itself.

* Truth values are numbers here: true equals one and false equals zero.
* Lists of different lengths differ at once. Tuples, and the outcome of an analysis, which is a
  tuple too, are compared up to the end of the shorter one first.
* Two instances are equal if they are of the very same class and have equal fields. What counts are
  the fields that the class settles for comparisons, and the values under these names now; it is a
  fault if one is missing. Instances of a class that settles nothing are equal to nothing.
* Functions, builders and targets made of functions are equal to nothing.

`Value.equal?` is the comparison.
-/

namespace EffectTrees

/-- What a comparison comes to. -/
abbrev Verdict := Except Signal Bool

namespace Scalar

/-- The number that a scalar is. -/
def number? : Scalar → Option Int
  | bool b => some (if b then 1 else 0)
  | int i => some i
  | _ => none

/-- Two scalars are equal as values. -/
def equal (a b : Scalar) : Bool :=
  match a.number?, b.number? with
  | some i, some j => i = j
  | _, _ => a = b

/-- Compares a scalar with a value. -/
def equalValue (a : Scalar) : Value → Verdict
  | .scalar b => .ok (a.equal b)
  | .poison => .error .abort
  | _ => .ok false

end Scalar

namespace Verdict

/-- Goes on with a comparison if the parts so far are equal. -/
def andThen (first : Verdict) (rest : Unit → Verdict) : Verdict := do
  if ← first then rest () else return false

/-- Compares values with others, one by one. -/
def ofTests : List (Value → Verdict) → List Value → Verdict
  | [], [] => .ok true
  | test :: tests, v :: vs => andThen (test v) fun _ => ofTests tests vs
  | _, _ => .ok false

/-- Compares a list of the given length with a value. -/
def withList (length : Nat) (compare : List Value → Verdict) : Value → Verdict
  | .list vs => if length = vs.length then compare vs else .ok false
  | .poison => .error .abort
  | _ => .ok false

/-- Compares a tuple with a value. The outcome of an analysis is the tuple of its result and its
trace. -/
def withTuple (compare : List Value → Verdict) : Value → Verdict
  | .tuple vs => compare vs
  | .analysis result trace => compare [.ofResult result, .list trace]
  | .poison => .error .abort
  | _ => .ok false

/-- The parts that an instance has under some names. -/
def members {α : Type} (find : String → Option α) (names : List String) :
    Except Signal (List α) :=
  names.mapM fun name =>
    match find name with
    | some x => .ok x
    | none => .error (.fault .missingMember)

end Verdict

section

variable (t : ClassTable)

mutual

/-- Compares two values inside larger ones. -/
def Value.equal? : Value → Value → Verdict
  | .poison, .poison => .ok true
  | .poison, _ => .error .abort
  | _, .poison => .error .abort
  | .scalar a, w => a.equalValue w
  | .list as, w => Verdict.withList as.length (fun bs => Value.equalAll? as bs) w
  | .tuple as, w => Verdict.withTuple (fun bs => Value.equalAll? as bs) w
  | .analysis r tr, w =>
    Verdict.withTuple
      (Verdict.ofTests
        [fun w => Value.equalResult? r w,
          Verdict.withList tr.length fun ws => Value.equalAll? tr ws]) w
  | .aborted, .aborted => .ok true
  | .payload p, .payload q => p.equal? q
  | .tree u, .tree u' => u.equal? u'
  | .plain u, .plain u' => u.equal? u'
  | .descriptor c fs, .descriptor d gs =>
    if c.id = d.id then
      match t.compared? c.id with
      | none => .ok false
      | some names => do
        let tests ← Verdict.members
          (t.memberOf? c.id (Value.fieldTests fs) Scalar.equalValue) names
        Verdict.ofTests tests (← Verdict.members (t.memberOf? c.id gs .scalar) names)
    else .ok false
  | .slot n k a, .slot n' k' a' =>
    .andThen (n.equal? n') fun _ => .andThen (k.equal? k') fun _ => a.equal? a'
  | .locator c, .locator d => .ok (c.id = d.id)
  | .cls c, .cls d => .ok (c.id = d.id)
  | .builtinClass m, .builtinClass n => .ok (m = n)
  | .target .list, .target .list => .ok true
  | .target .tree, .target .tree => .ok true
  | .function .betray, .function .betray => .ok true
  | .snoc i l, .snoc i' l' => .andThen (i.equal? i') fun _ => l.equal? l'
  | .cons h r, .cons h' r' => .andThen (h.equal? h') fun _ => r.equal? r'
  | _, _ => .ok false
termination_by structural v => v

/-- Compares two sequences of values. -/
def Value.equalAll? : List Value → List Value → Verdict
  | [], [] => .ok true
  | a :: as, b :: bs => .andThen (a.equal? b) fun _ => Value.equalAll? as bs
  | _, _ => .ok false
termination_by structural vs => vs

/-- How each of several named values is compared. -/
def Value.fieldTests : List (String × Value) → List (String × (Value → Verdict))
  | [] => []
  | (name, v) :: fields => (name, fun w => v.equal? w) :: Value.fieldTests fields
termination_by structural fs => fs

/-- Compares the result of an analysis with a value. -/
def Value.equalResult? : Option Value → Value → Verdict
  | none, w => Scalar.null.equalValue w
  | some _, .poison => .error .abort
  | some v, .payload (.resolved w) => v.equal? w
  | some _, _ => .ok false
termination_by structural r => r

/-- Compares two payloads. -/
def Payload.equal? : Payload → Payload → Verdict
  | .resolved v, .resolved w => v.equal? w
  | .deferred f, .deferred g => f.equal? g
  | _, _ => .ok false
termination_by structural p => p

/-- Compares two trees. -/
def Tree.equal? : Tree → Tree → Verdict
  | .done p, .done q => p.equal? q
  | .suspended d, .suspended e => d.equal? e
  | .failed, .failed => .ok true
  | _, _ => .ok false
termination_by structural u => u

/-- Compares two trees that cannot fail. -/
def PlainTree.equal? : PlainTree → PlainTree → Verdict
  | .pure v, .pure w => v.equal? w
  | .free d, .free e => d.equal? e
  | _, _ => .ok false
termination_by structural u => u

end

end

end EffectTrees
