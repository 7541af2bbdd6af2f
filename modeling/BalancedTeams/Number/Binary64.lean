/-!
# Binary64 numbers as exact dyadic rationals

* `Binary64` : a NaN with its payload, an infinity, or `± mant * 2 ^ exp` with at most 53 bits of
  `mant`;
* `Binary64.ofRatio` : the nearest number to a quotient, ties to the even neighbour, an infinity
  when the magnitude leaves the range;
* `Binary64.ofScaled` : the same for `digits * 10 ^ exp10`;
* `Binary64.ofInt?`, `Binary64.trunc?`, `Binary64.int?` : the passage to and from integers;
* `Binary64.add`, `Binary64.mul` : exact arithmetic, rounded once.
-/

namespace BalancedTeams

/-- A finite number is `mant * 2 ^ exp`, negated when `neg` holds; the least exponent is `-1074`
and every other exponent goes with a mantissa of 53 bits. The payload of a NaN has no meaning as a
number; it tells one NaN from another. -/
inductive Binary64 where
  | nan (payload : Nat)
  | inf (neg : Bool)
  | fin (neg : Bool) (mant : Nat) (exp : Int)
  deriving DecidableEq, Repr, Inhabited, Hashable

namespace Binary64

/-! ## Rounding -/

def minExp : Int := -1074

def maxExp : Int := 971

def zero (neg : Bool) : Binary64 := .fin neg 0 minExp

/-- The quotient `num / den` scaled by `2 ^ (-exp)`, as a new quotient. -/
def scaleDown (num den : Nat) (exp : Int) : Nat × Nat :=
  if 0 ≤ exp then (num, den * Nat.pow 2 exp.toNat) else (num * Nat.pow 2 (-exp).toNat, den)

/-- The integer nearest to `num / den`; a half goes to the even neighbour. -/
def roundDiv (num den : Nat) : Nat :=
  let q := num / den
  let r := num % den
  if 2 * r < den then q else if den < 2 * r then q + 1 else q + q % 2

/-- The number nearest to `num / den`. -/
def ofRatio (neg : Bool) (num den : Nat) : Binary64 :=
  if num = 0 then zero neg
  else
    let guess : Int := (num.log2 : Int) - (den.log2 : Int) - 52
    let (n, d) := scaleDown num den guess
    let exp := max minExp (if n / d < Nat.pow 2 52 then guess - 1 else guess)
    let (n, d) := scaleDown num den exp
    let mant := roundDiv n d
    let (mant, exp) := if mant = Nat.pow 2 53 then (Nat.pow 2 52, exp + 1) else (mant, exp)
    if maxExp < exp then .inf neg else .fin neg mant exp

def digitCount (n : Nat) : Nat := (Nat.toDigits 10 n).length

/-- The number nearest to `digits * 10 ^ exp10`. Exponents far outside the range are settled
without computing the power. -/
def ofScaled (neg : Bool) (digits : Nat) (exp10 : Int) : Binary64 :=
  if digits = 0 then zero neg
  else if 310 < exp10 + digitCount digits then .inf neg
  else if exp10 + digitCount digits < -330 then zero neg
  else if 0 ≤ exp10 then ofRatio neg (digits * Nat.pow 10 exp10.toNat) 1
  else ofRatio neg digits (Nat.pow 10 (-exp10).toNat)

/-! ## Integers -/

def isNaN : Binary64 → Bool
  | .nan _ => true
  | _ => false

/-- The nearest number to an integer, none when that is out of range. -/
def ofInt? (n : Int) : Option Binary64 :=
  match ofRatio (decide (n < 0)) n.natAbs 1 with
  | .inf _ => none
  | x => some x

def applySign (neg : Bool) (n : Nat) : Int := if neg then -(n : Int) else n

/-- The integer part of a finite number, towards zero. -/
def trunc? : Binary64 → Option Int
  | .fin neg mant exp =>
    some (applySign neg
      (if 0 ≤ exp then mant * Nat.pow 2 exp.toNat else mant / Nat.pow 2 (-exp).toNat))
  | _ => none

/-- The integer a finite number is equal to, if there is one. -/
def int? : Binary64 → Option Int
  | .fin neg mant exp =>
    if 0 ≤ exp then some (applySign neg (mant * Nat.pow 2 exp.toNat))
    else if mant % Nat.pow 2 (-exp).toNat = 0 then
      some (applySign neg (mant / Nat.pow 2 (-exp).toNat))
    else none
  | _ => none

/-! ## Order and arithmetic -/

/-- Below zero; `-0.0` is not. -/
def isNegative : Binary64 → Bool
  | .nan _ => false
  | .inf neg => neg
  | .fin neg mant _ => neg && mant != 0

def isPositive : Binary64 → Bool
  | .nan _ => false
  | .inf neg => !neg
  | .fin neg mant _ => !neg && mant != 0

def isZero : Binary64 → Bool
  | .fin _ mant _ => mant == 0
  | _ => false

/-- The number itself when it is above zero, else `0.0`; so a NaN counts as nothing. -/
def clampBelow (x : Binary64) : Binary64 := if x.isPositive then x else zero false

def negate : Binary64 → Binary64
  | .nan payload => .nan payload
  | .inf neg => .inf !neg
  | .fin neg mant exp => .fin (!neg) mant exp

def ofDyadic (neg : Bool) (n : Nat) (exp : Int) : Binary64 :=
  if 0 ≤ exp then ofRatio neg (n * Nat.pow 2 exp.toNat) 1
  else ofRatio neg n (Nat.pow 2 (-exp).toNat)

def add : Binary64 → Binary64 → Binary64
  | .nan payload, _ => .nan payload
  | _, .nan payload => .nan payload
  | .inf a, .inf b => if a = b then .inf a else .nan 0
  | .inf a, .fin .. => .inf a
  | .fin .., .inf b => .inf b
  | .fin a m e, .fin b n f =>
    let low := min e f
    let sum := applySign a (m * Nat.pow 2 (e - low).toNat) +
      applySign b (n * Nat.pow 2 (f - low).toNat)
    if sum = 0 then zero (a && b) else ofDyadic (decide (sum < 0)) sum.natAbs low

def mul : Binary64 → Binary64 → Binary64
  | .nan payload, _ => .nan payload
  | _, .nan payload => .nan payload
  | .inf a, .inf b => .inf (a != b)
  | .inf a, .fin b n _ => if n = 0 then .nan 0 else .inf (a != b)
  | .fin a m _, .inf b => if m = 0 then .nan 0 else .inf (a != b)
  | .fin a m e, .fin b n f => ofDyadic (a != b) (m * n) (e + f)

instance : Add Binary64 := ⟨add⟩
instance : Mul Binary64 := ⟨mul⟩
instance : Neg Binary64 := ⟨negate⟩

end Binary64
end BalancedTeams
