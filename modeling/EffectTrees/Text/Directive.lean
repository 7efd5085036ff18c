/-!
# Directives

A text with directives is a pattern that a value is put into. A directive starts with a percent sign
and ends with a letter that says how the value is shown; between them may stand, in this order,
flags, a least width, a full stop with a greatest number of characters, and a letter that is
skipped.

* `Directive.read` reads one directive.
* `Directive.pieces` takes a pattern apart, up to the first directive that cannot be read or that
  asks for a part of the value by name.
* `Directive.layOut` puts a text into the place of a directive.
-/

namespace EffectTrees

/-- How a value is put into a pattern. -/
structure Directive where
  /-- The value stands at the left of its place. -/
  isLeft : Bool
  width : Option Nat
  precision : Option Nat
  conversion : Char
  deriving DecidableEq, Repr, Inhabited

namespace Directive

/-- Why a directive cannot be read. -/
inductive Flaw where
  /-- A width or precision is left to a further value. -/
  | starred
  /-- The directive has no end, or a number in it is too large. -/
  | malformed
  deriving DecidableEq, Repr, Inhabited

/-- The mark that starts a directive. -/
def mark : Char := '%'

/-- The characters that may stand before the width. -/
def flags : List Char := ['-', '+', ' ', '#', '0']

/-- The letters that are skipped before the conversion. -/
def modifiers : List Char := ['h', 'l', 'L']

/-- The greatest width. -/
def widthLimit : Nat := 0x7fffffffffffffff

/-- The greatest precision. -/
def precisionLimit : Nat := 0x7fffffff

/-- The number that decimal digits stand for. -/
def number (digits : List Char) : Nat :=
  digits.foldl (fun n c => n * 10 + (c.toNat - '0'.toNat)) 0

/-- Reads a number up to a limit, if there is one. -/
def readNumber (limit : Nat) (cs : List Char) : Except Flaw (Option Nat × List Char) :=
  if cs.head? = some '*' then .error .starred
  else
    let digits := cs.takeWhile Char.isDigit
    let n := number digits
    if n > limit then .error .malformed
    else .ok (if digits.isEmpty then none else some n, cs.dropWhile Char.isDigit)

/-- Reads a full stop and the number behind it, if there is one. A full stop alone stands for
zero. -/
def readPrecision (cs : List Char) : Except Flaw (Option Nat × List Char) :=
  match cs with
  | '.' :: rest => (readNumber precisionLimit rest).map fun r => (some (r.1.getD 0), r.2)
  | _ => .ok (none, cs)

/-- Skips a letter that means nothing. -/
def skipModifier (cs : List Char) : List Char :=
  match cs with
  | c :: rest => if modifiers.contains c then rest else c :: rest
  | [] => []

/-- Reads a directive behind its mark. -/
def read (cs : List Char) : Except Flaw (Directive × List Char) := do
  let isLeft := (cs.takeWhile flags.contains).contains '-'
  let (width, cs) ← readNumber widthLimit (cs.dropWhile flags.contains)
  let (precision, cs) ← readPrecision cs
  match skipModifier cs with
  | [] => throw .malformed
  | c :: rest => return (⟨isLeft, width, precision, c⟩, rest)

theorem suffix_of_readNumber {limit : Nat} {cs : List Char} {r : Option Nat × List Char}
    (h : readNumber limit cs = .ok r) : r.2 <:+ cs := by
  unfold readNumber at h
  split at h
  · cases h
  · dsimp only at h
    split at h
    · cases h
    · cases h
      exact List.dropWhile_suffix _

theorem suffix_of_readPrecision {cs : List Char} {r : Option Nat × List Char}
    (h : readPrecision cs = .ok r) : r.2 <:+ cs := by
  unfold readPrecision at h
  split at h
  · next rest =>
    cases hn : readNumber precisionLimit rest with
    | error e => rw [hn] at h; cases h
    | ok s =>
      rw [hn] at h
      cases h
      exact (suffix_of_readNumber hn).trans (List.suffix_cons _ _)
  · cases h
    exact List.suffix_rfl

theorem skipModifier_suffix (cs : List Char) : skipModifier cs <:+ cs := by
  unfold skipModifier
  split
  · split
    · exact List.suffix_cons _ _
    · exact List.suffix_rfl
  · exact List.suffix_rfl

/-- A directive has at least one character behind its mark. -/
theorem length_lt_of_read {cs : List Char} {r : Directive × List Char} (h : read cs = .ok r) :
    r.2.length < cs.length := by
  unfold read at h
  cases hn : readNumber widthLimit (cs.dropWhile flags.contains) with
  | error e => simp [hn, bind, Except.bind] at h
  | ok w =>
    cases hp : readPrecision w.2 with
    | error e => simp [hn, hp, bind, Except.bind] at h
    | ok p =>
      have hs : skipModifier p.2 <:+ cs :=
        (skipModifier_suffix _).trans <| (suffix_of_readPrecision hp).trans <|
          (suffix_of_readNumber hn).trans (List.dropWhile_suffix _)
      simp only [hn, hp, bind, Except.bind] at h
      split at h
      · cases h
      · next c rest heq =>
        cases h
        have := hs.length_le
        rw [heq] at this
        exact Nat.lt_of_succ_le this

/-- A part of a pattern. -/
inductive Piece where
  /-- A character that stands for itself. -/
  | char (c : Char)
  /-- A place for the value. -/
  | directive (d : Directive)
  /-- A place for a part of the value that is asked for by name. -/
  | key
  | flaw (f : Flaw)
  deriving DecidableEq, Repr, Inhabited

/-- So many open brackets are closed in what follows. -/
def closes (depth : Nat) : List Char → Bool
  | [] => false
  | c :: cs =>
    if c = '(' then closes (depth + 1) cs
    else if c = ')' then depth ≤ 1 || closes (depth - 1) cs
    else closes depth cs

/-- The parts of a pattern, up to the first that cannot be read or asks for a part by name. Two
marks in a row stand for one that is no directive. -/
def pieces (cs : List Char) : List Piece :=
  match cs with
  | [] => []
  | c :: cs =>
    if c ≠ mark then .char c :: pieces cs
    else if cs.head? = some mark then .char mark :: pieces cs.tail
    else if cs.head? = some '(' then [if closes 0 cs then .key else .flaw .malformed]
    else
      match _h : read cs with
      | .error f => [.flaw f]
      | .ok (d, rest) => .directive d :: pieces rest
termination_by cs.length
decreasing_by
  · simp
  · simp only [List.length_tail, List.length_cons]
    omega
  · have := length_lt_of_read _h
    exact Nat.lt_succ_of_lt this

/-- The greatest length of a text that is laid out. -/
def lengthLimit : Nat := 0x1000000000

/-- A text in the place of a directive: cut to its precision and filled with blanks to its width. It
may be too long to be held. -/
def layOut (d : Directive) (s : String) : Option (List Char) :=
  let cs := match d.precision with
    | some n => s.toList.take n
    | none => s.toList
  let missing := d.width.getD 0 - cs.length
  if missing > lengthLimit then none
  else
    let blanks := List.replicate missing ' '
    some (if d.isLeft then cs ++ blanks else blanks ++ cs)

end Directive

end EffectTrees
