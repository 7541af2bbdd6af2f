import BalancedTeams.Calendar
import BalancedTeams.Number.Numeral
import BalancedTeams.Number.Shortest
import BalancedTeams.Text.Quoted

/-!
# Scalars

* `Scalar` : a value without parts;
* `Scalar.key` : what ids and names are compared by. Numbers and truth values are one kind of key,
  so `1`, `1.0` and `true` are the same id; NaNs are the same if their payloads are;
* `Scalar.plain`, `Scalar.spelling` : a scalar inside a name or table, and inside a message;
* `Scalar.toInt`, `Scalar.toFloat` : the number a scalar stands for.
-/

namespace BalancedTeams

inductive Scalar where
  | null
  | bool (b : Bool)
  | int (n : Int)
  | float (x : Binary64)
  | str (t : Text)
  | date (d : Date)
  | timestamp (t : Timestamp)
  deriving DecidableEq, Repr, Inhabited

/-- What ids are compared by. A float that is equal to an integer has that integer as its key, and
timestamps are compared as instants, those with a zone apart from those without. -/
inductive Key where
  | null
  | int (n : Int)
  | float (x : Binary64)
  | str (t : Text)
  | date (d : Date)
  | instant (zoned : Bool) (microseconds : Int)
  deriving DecidableEq, Repr, Inhabited, Hashable

/-- Why a value stands for no number. -/
inductive NumberFault where
  /-- Neither a number nor a text. -/
  | wrongType
  /-- A text that is no numeral or too long a one, or a NaN where an integer is wanted. -/
  | notANumber
  /-- Out of the range of what is wanted. -/
  | outOfRange
  deriving DecidableEq, Repr, Inhabited

def boolInt (b : Bool) : Int := if b then 1 else 0

namespace Scalar

def key : Scalar → Key
  | .null => .null
  | .bool b => .int (boolInt b)
  | .int n => .int n
  | .float x =>
    match x.int? with
    | some n => .int n
    | none => .float x
  | .str t => .str t
  | .date d => .date d
  | .timestamp t => .instant t.zone.isSome t.instant

/-- The same id or name. -/
def same (a b : Scalar) : Bool := a.key == b.key

/-- Whether a scalar can be written at all; the longest integers cannot. -/
def isWritable : Scalar → Bool
  | .int n => Numeral.isWritable n
  | _ => true

/-- A scalar as messages show it: a text is quoted. -/
def spelling : Scalar → Text
  | .null => "None"
  | .bool b => if b then "True" else "False"
  | .int n => toString n
  | .float x => x.text
  | .str t => t.quoted
  | .date d => d.quoted
  | .timestamp t => t.quoted

/-- A scalar as it stands in names and tables: a text as it is. -/
def plain : Scalar → Text
  | .str t => t
  | .date d => d.text
  | .timestamp t => t.text
  | s => s.spelling

/-- The integer a scalar stands for; a float counts by its integer part. -/
def toInt : Scalar → Except NumberFault Int
  | .null => .error .wrongType
  | .bool b => .ok (boolInt b)
  | .int n => .ok n
  | .float (.nan _) => .error .notANumber
  | .float x => (x.trunc?).elim (.error .outOfRange) .ok
  | .str t => (Numeral.int? t).elim (.error .notANumber) .ok
  | .date _ => .error .wrongType
  | .timestamp _ => .error .wrongType

def toFloat : Scalar → Except NumberFault Binary64
  | .null => .error .wrongType
  | .bool b => .ok (.ofRatio false (boolInt b).toNat 1)
  | .int n => (Binary64.ofInt? n).elim (.error .outOfRange) .ok
  | .float x => .ok x
  | .str t => (Numeral.float? t).elim (.error .notANumber) .ok
  | .date _ => .error .wrongType
  | .timestamp _ => .error .wrongType

/-- Null, false, zero and the empty text. -/
def isNothing : Scalar → Bool
  | .null => true
  | .bool b => !b
  | .int n => n == 0
  | .float x => x.isZero
  | .str t => t.isEmpty
  | .date _ => false
  | .timestamp _ => false

def integer? : Scalar → Option Int
  | .bool b => some (boolInt b)
  | .int n => some n
  | _ => none

/-! ## Arithmetic -/

def isNumber : Scalar → Bool
  | .bool _ => true
  | .int _ => true
  | .float _ => true
  | _ => false

/-- Two numbers under an operation: an integer if both are, else a binary64 number. An operand that
is no number counts before one that is out of range. -/
def combine (onInts : Int → Int → Int) (onFloats : Binary64 → Binary64 → Binary64)
    (a b : Scalar) : Except NumberFault Scalar :=
  if !a.isNumber || !b.isNumber then .error .wrongType
  else match a.integer?, b.integer? with
    | some m, some n => .ok (.int (onInts m n))
    | _, _ => do
      let x ← a.toFloat
      let y ← b.toFloat
      return .float (onFloats x y)

def add (a b : Scalar) : Except NumberFault Scalar := combine (· + ·) (· + ·) a b

def mul (a b : Scalar) : Except NumberFault Scalar := combine (· * ·) (· * ·) a b

end Scalar
end BalancedTeams
