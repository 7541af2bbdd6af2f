import BalancedTeams.Number.Binary64
import BalancedTeams.Text.DecimalDigit

/-!
# Numerals

* `Numeral.int?` : an optional sign and decimal digits;
* `Numeral.float?` : the same with a fraction, an exponent, or one of the words for an infinity
  and a NaN;
* `Numeral.isWritable` : whether an integer has a numeral.

Blanks may surround a numeral, digits may be of any script, and a single underscore may stand
between two digits. Integers of more than `maxDigits` digits are neither read nor written.
-/

namespace BalancedTeams.Numeral
open Text

/-- A nonempty run of digits with single underscores between them. -/
def digitRun? : List Char → Option (List Nat)
  | [] => none
  | [c] => (digit? c).map fun d => [d]
  | c :: '_' :: rest => do
    let d ← digit? c
    let ds ← digitRun? rest
    return d :: ds
  | c :: rest => do
    let d ← digit? c
    let ds ← digitRun? rest
    return d :: ds

def ofDigits (ds : List Nat) : Nat := ds.foldl (fun n d => 10 * n + d) 0

def splitSign : List Char → Bool × List Char
  | '-' :: rest => (true, rest)
  | '+' :: rest => (false, rest)
  | cs => (false, cs)

/-- The greatest number of digits of a decimal integer that is read or written, leading zeros
included. -/
def maxDigits : Nat := 4300

/-- The least natural number of more than `maxDigits` digits. -/
def leastUnwritable : Nat := Nat.pow 10 maxDigits

def isWritable (n : Int) : Bool := decide (n.natAbs < leastUnwritable)

def int? (t : Text) : Option Int := do
  let chars ← t.chars?
  let (neg, cs) := splitSign (trimBy isNumeralSpace chars)
  let ds ← digitRun? cs
  guard (ds.length ≤ maxDigits)
  return Binary64.applySign neg (ofDigits ds)

/-- What stands before the first element that satisfies `p`, and what after it if there is one. -/
def cutAt {α : Type} (p : α → Bool) (cs : List α) : List α × Option (List α) :=
  match cs.dropWhile (fun c => !p c) with
  | [] => (cs, none)
  | _ :: rest => (cs.takeWhile (fun c => !p c), some rest)

/-- The digits of a part that may be empty. -/
def part? (cs : List Char) : Option (List Nat) := if cs.isEmpty then some [] else digitRun? cs

/-- A mantissa: digits with a point before, between or after them, as the digits and the length of
the fraction. -/
def mantissa? (cs : List Char) : Option (List Nat × Nat) := do
  let (whole, fraction) := cutAt (· == '.') cs
  let w ← part? whole
  let f ← part? (fraction.getD [])
  if w.isEmpty && f.isEmpty then none else return (w ++ f, f.length)

def exponent? : Option (List Char) → Option Int
  | none => some 0
  | some cs => do
    let (neg, cs) := splitSign cs
    let ds ← digitRun? cs
    return Binary64.applySign neg (ofDigits ds)

def float? (t : Text) : Option Binary64 := do
  let chars ← t.chars?
  let (neg, cs) := splitSign (trimBy isNumeralSpace chars)
  let word := String.ofList (cs.map Char.toLower)
  if word = "inf" ∨ word = "infinity" then return .inf neg
  if word = "nan" then return .nan 0
  let (m, e) := cutAt (fun c => c == 'e' || c == 'E') cs
  let (ds, places) ← mantissa? m
  let exp ← exponent? e
  return Binary64.ofScaled neg (ofDigits ds) (exp - places)

end BalancedTeams.Numeral
