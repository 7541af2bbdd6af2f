import BalancedTeams.Number.Binary64

/-!
# Shortest decimal text of a binary64 number

* `Shortest.digits` : the fewest decimal digits that read back as the same number, and of those
  the nearest to it;
* `FloatStyle` : how the digits are laid out;
* `Binary64.render` : the text of a number in a style.
-/

namespace BalancedTeams
namespace Shortest

/-- `num / den` is compared with `10 ^ k`. -/
def atLeastPow (num den : Nat) (k : Int) : Bool :=
  if 0 ≤ k then decide (den * Nat.pow 10 k.toNat ≤ num)
  else decide (den ≤ num * Nat.pow 10 (-k).toNat)

/-- The greatest `k` with `10 ^ k ≤ num / den`, for a positive quotient. -/
def magnitude (num den : Nat) : Int :=
  let guess := Int.fdiv (((num.log2 : Int) - (den.log2 : Int)) * 30103) 100000
  if atLeastPow num den (guess + 1) then guess + 1
  else if atLeastPow num den guess then guess
  else guess - 1

def inUnits (num den : Nat) (k : Int) : Nat × Nat :=
  if 0 ≤ k then (num, den * Nat.pow 10 k.toNat) else (num * Nat.pow 10 (-k).toNat, den)

/-- The interval of reals that round to `mant * 2 ^ exp`, its ends and the number itself in
quarters of the last place. -/
structure Interval where
  low : Nat
  mid : Nat
  high : Nat
  /-- The unit of the three counts is `2 ^ exp`. -/
  exp : Int
  /-- The ends round to the number too. -/
  closed : Bool

def Interval.around (mant : Nat) (exp : Int) : Interval :=
  let gapBelow := if mant = Nat.pow 2 52 ∧ Binary64.minExp < exp then 1 else 2
  { low := 4 * mant - gapBelow, mid := 4 * mant, high := 4 * mant + 2, exp := exp - 2,
    closed := mant % 2 == 0 }

def Interval.ratio (i : Interval) (n : Nat) : Nat × Nat :=
  if 0 ≤ i.exp then (n * Nat.pow 2 i.exp.toNat, 1) else (n, Nat.pow 2 (-i.exp).toNat)

/-- Whether `d * 10 ^ k` rounds to the number. -/
def Interval.holds (i : Interval) (d : Nat) (k : Int) : Bool :=
  let (ln, ld) := i.ratio i.low
  let (hn, hd) := i.ratio i.high
  let (ln, ld) := inUnits ln ld k
  let (hn, hd) := inUnits hn hd k
  if i.closed then decide (ln ≤ d * ld) && decide (d * hd ≤ hn)
  else decide (ln < d * ld) && decide (d * hd < hn)

/-- The grid point of step `10 ^ k` that stands for the number: one of its two neighbours, the
nearer if both do, the even one of two equally near. -/
def Interval.onGrid? (i : Interval) (k : Int) : Option Nat :=
  let (num, den) := i.ratio i.mid
  let (num, den) := inUnits num den k
  let below := num / den
  let above := below + 1
  match i.holds below k, i.holds above k with
  | true, true => some (Binary64.roundDiv num den)
  | true, false => some below
  | false, true => some above
  | false, false => none

/-- The first grid with a point for the number, from `count` digits of 17 on. -/
def search (i : Interval) (top : Int) : Nat → Option (Nat × Int)
  | 0 => none
  | fuel + 1 =>
    let k := top - (16 - fuel : Int)
    match i.onGrid? k with
    | some d => some (d, k)
    | none => search i top fuel

/-- `digits * 10 ^ exp10` without trailing zeros among the digits. -/
def dropZeros (digits : Nat) (exp10 : Int) : Nat → Nat × Int
  | 0 => (digits, exp10)
  | fuel + 1 =>
    if digits != 0 && digits % 10 == 0 then dropZeros (digits / 10) (exp10 + 1) fuel
    else (digits, exp10)

/-- The shortest decimal `(digits, exp10)` for a positive finite number. -/
def digits (mant : Nat) (exp : Int) : Nat × Int :=
  let i := Interval.around mant exp
  let (num, den) := i.ratio i.mid
  match search i (magnitude num den) 17 with
  | some (d, k) => dropZeros d k 18
  | none => (mant, 0)

end Shortest

/-- How a number is written: the words for what is no finite number, and what stands for the
fraction of a one-digit mantissa before an exponent. -/
structure FloatStyle where
  nan : String
  infinity : String
  /-- Put after a mantissa of one digit that is followed by an exponent. -/
  wholeMantissa : String

namespace Binary64

/-- Exponent text: a sign and at least two digits. -/
def exponentText (e : Int) : String :=
  let digits := toString e.natAbs
  (if e < 0 then "e-" else "e+") ++ (if digits.length < 2 then "0" ++ digits else digits)

/-- The digits of a decimal `0.d₁d₂… * 10 ^ point`: positional while `-4 < point ≤ 16`, else with
an exponent; a whole number keeps one fractional zero. -/
def layout (style : FloatStyle) (ds : List Char) (point : Int) : String :=
  if -4 < point ∧ point ≤ 16 then
    if point ≤ 0 then "0." ++ String.ofList (List.replicate (-point).toNat '0' ++ ds)
    else if ds.length ≤ point.toNat then
      String.ofList (ds ++ List.replicate (point.toNat - ds.length) '0') ++ ".0"
    else String.ofList (ds.take point.toNat) ++ "." ++ String.ofList (ds.drop point.toNat)
  else
    match ds with
    | [] => ""
    | [d] => d.toString ++ style.wholeMantissa ++ exponentText (point - 1)
    | d :: rest => d.toString ++ "." ++ String.ofList rest ++ exponentText (point - 1)

def render (style : FloatStyle) : Binary64 → String
  | .nan _ => style.nan
  | .inf neg => (if neg then "-" else "") ++ style.infinity
  | .fin neg mant exp =>
    let sign := if neg then "-" else ""
    if mant = 0 then sign ++ "0.0"
    else
      let (d, k) := Shortest.digits mant exp
      let ds := Nat.toDigits 10 d
      sign ++ layout style ds (k + ds.length)

/-- The style of numbers in names, messages and tables: `1e+22`, `inf`, `nan`. -/
def plainStyle : FloatStyle := ⟨"nan", "inf", ""⟩

/-- The shortest text that reads back as the number. -/
def text (x : Binary64) : String := x.render plainStyle

end Binary64
end BalancedTeams
