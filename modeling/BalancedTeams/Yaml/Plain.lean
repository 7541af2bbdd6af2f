import BalancedTeams.Number.Numeral
import BalancedTeams.Scalar

/-!
# Plain scalars of YAML 1.1

* `Plain.truth?`, `Plain.isNull`, `Plain.int?`, `Plain.float?`, `Plain.time?` : the texts that stand
  for something other than themselves when they are written without quotes;
* `Plain.special?` : what they stand for;
* `Plain.isText` : whether a plain scalar stands for itself.

A text can have the form of a number or of a day and still be none: `0x_` has no digits, and the
calendar has no `2001-02-30`.
-/

namespace BalancedTeams.Yaml.Plain

/-! ## Words -/

def truth? (s : String) : Option Bool :=
  if ["yes", "Yes", "YES", "true", "True", "TRUE", "on", "On", "ON"].contains s then some true
  else if ["no", "No", "NO", "false", "False", "FALSE", "off", "Off", "OFF"].contains s then
    some false
  else none

def isNull (s : String) : Bool := ["", "~", "null", "Null", "NULL"].contains s

/-! ## Digits -/

/-- The value of an ASCII digit in a base up to 16. -/
def digit? (base : Nat) (c : Char) : Option Nat :=
  let n := c.toNat
  let d := if c.isDigit then some (n - 0x30)
    else if 0x61 ≤ n && n ≤ 0x66 then some (n - 0x61 + 10)
    else if 0x41 ≤ n && n ≤ 0x46 then some (n - 0x41 + 10)
    else none
  d.filter fun d => decide (d < base)

/-- The digits of a run in which underscores do not count; none if another character is in it. -/
def digits? (base : Nat) (cs : List Char) : Option (List Nat) :=
  (cs.filter fun c => c != '_').mapM (digit? base)

def ofDigits (base : Nat) (ds : List Nat) : Nat := ds.foldl (fun n d => base * n + d) 0

def number? (base : Nat) (cs : List Char) : Option Nat :=
  if cs.isEmpty then none else (digits? base cs).map (ofDigits base)

/-- A nonempty run of digits and underscores; underscores alone write no number. -/
def run? (base : Nat) (cs : List Char) : Option (Except NumberFault Nat) :=
  if cs.isEmpty then none
  else (digits? base cs).map fun ds =>
    if ds.isEmpty then .error .notANumber else .ok (ofDigits base ds)

def decimal? (cs : List Char) : Option (Except NumberFault Nat) :=
  if cs.isEmpty then none
  else (digits? 10 cs).map fun ds =>
    if Numeral.maxDigits < ds.length then .error .notANumber else .ok (ofDigits 10 ds)

def splitColons : List Char → List (List Char)
  | [] => [[]]
  | c :: rest =>
    match splitColons rest with
    | [] => [[c]]
    | part :: parts => if c = ':' then [] :: part :: parts else (c :: part) :: parts

/-- A later place of a base-60 number: one digit, or two of which the first is below 6. -/
def sixtieth? (cs : List Char) : Option Nat :=
  if cs.contains '_' || 2 < cs.length then none
  else (number? 10 cs).filter fun n => decide (n < 60)

/-! ## Integers -/

def unsignedInt? (cs : List Char) : Option (Except NumberFault Nat) :=
  match cs with
  | '0' :: 'b' :: ds => run? 2 ds
  | '0' :: 'x' :: ds => run? 16 ds
  | '0' :: ds => (digits? 8 ds).map fun ds => .ok (ofDigits 8 ds)
  | '_' :: _ => none
  | _ =>
    match splitColons cs with
    | [] => none
    | first :: rest => do
      let n ← decimal? first
      let ds ← rest.mapM sixtieth?
      return n.map fun n => ds.foldl (fun n d => 60 * n + d) n

/-- Integers: decimal, binary, octal, hexadecimal, or base 60 with colons. -/
def int? (cs : List Char) : Option (Except NumberFault Int) :=
  let (neg, cs) := Numeral.splitSign cs
  (unsignedInt? cs).map fun n => n.map (Binary64.applySign neg)

/-! ## Floats -/

def exponent? : List Char → Option Int
  | [] => some 0
  | e :: sign :: ds =>
    if (e = 'e' ∨ e = 'E') ∧ (sign = '-' ∨ sign = '+') ∧ !ds.contains '_' then
      (number? 10 ds).map (Binary64.applySign (sign == '-'))
    else none
  | _ => none

/-- The digits of a fraction and the exponent after it. -/
def fraction? (cs : List Char) : Option (List Nat × Int) := do
  let isPart := fun c => Char.isDigit c || c == '_'
  let ds ← digits? 10 (cs.takeWhile isPart)
  let exp ← exponent? (cs.dropWhile isPart)
  return (ds, exp)

def ofParts (whole fraction : List Nat) (exp : Int) : Binary64 :=
  .ofScaled false (Numeral.ofDigits (whole ++ fraction)) (exp - fraction.length)

def sumSixtieths (power : Nat) (total : Binary64) :
    List Binary64 → Except NumberFault Binary64
  | [] => .ok total
  | x :: rest =>
    match Binary64.ofInt? power with
    | some p => sumSixtieths (60 * power) (total + x * p) rest
    | none => .error .outOfRange

/-- A number with a point after base-60 places. -/
def sixtieths? (first : List Char) (later : List (List Char)) (fraction : List Nat) :
    Option (Except NumberFault Binary64) := do
  let n ← digits? 10 first
  let ns ← later.mapM sixtieth?
  let places := ofParts n [] 0 :: ns.map fun k => Binary64.ofRatio false k 1
  match places.reverse, later.getLast? with
  | _ :: before, some last =>
    let ds ← digits? 10 last
    return sumSixtieths 1 (.zero false) (ofParts ds fraction 0 :: before)
  | _, _ => none

def startsWithDigit (cs : List Char) : Bool := (cs.head?.map Char.isDigit).getD false

/-- A number with a point; a sign may stand before it unless it begins with the point. -/
def pointed? (signed : Bool) (cs : List Char) : Option (Except NumberFault Binary64) := do
  let (whole, after) := Numeral.cutAt (· == '.') cs
  let after ← after
  let (fraction, exp) ← fraction? after
  if whole.isEmpty then
    if !signed && startsWithDigit after then return .ok (ofParts [] fraction exp) else none
  else if !startsWithDigit whole then none
  else
    match splitColons whole with
    | [_] => do
      let ds ← digits? 10 whole
      return .ok (ofParts ds fraction exp)
    | first :: later =>
      if after.all fun c => c.isDigit || c == '_' then sixtieths? first later fraction else none
    | [] => none

def float? (cs : List Char) : Option (Except NumberFault Binary64) :=
  let (neg, rest) := Numeral.splitSign cs
  let word := String.ofList rest
  if [".inf", ".Inf", ".INF"].contains word then some (.ok (.inf neg))
  else if [".nan", ".NaN", ".NAN"].contains (String.ofList cs) then some (.ok (.nan 0))
  else (pointed? (decide (rest.length < cs.length)) rest).map fun x =>
    x.map fun x => if neg then -x else x

/-! ## Days and times -/

/-- The number of a run of `least` to `most` digits, and what follows it. -/
def digitRun? (least most : Nat) (cs : List Char) : Option (Nat × List Char) :=
  let run := (cs.take most).takeWhile Char.isDigit
  if least ≤ run.length then (number? 10 run).map fun n => (n, cs.drop run.length) else none

def expect? (c : Char) : List Char → Option (List Char)
  | d :: rest => if d = c then some rest else none
  | [] => none

def isBlank (c : Char) : Bool := c == ' ' || c == '\t'

def day? (least : Nat) (cs : List Char) : Option (Date × List Char) := do
  let (year, cs) ← digitRun? 4 4 cs
  let cs ← expect? '-' cs
  let (month, cs) ← digitRun? least 2 cs
  let cs ← expect? '-' cs
  let (day, cs) ← digitRun? least 2 cs
  return (⟨year, month, day⟩, cs)

def clock? (cs : List Char) : Option ((Nat × Nat × Nat) × List Char) := do
  let (hour, cs) ← digitRun? 1 2 cs
  let cs ← expect? ':' cs
  let (minute, cs) ← digitRun? 2 2 cs
  let cs ← expect? ':' cs
  let (second, cs) ← digitRun? 2 2 cs
  return ((hour, minute, second), cs)

/-- The microseconds after a point, if there is one; further digits do not count. -/
def microsecond (cs : List Char) : Nat × List Char :=
  match cs with
  | '.' :: rest =>
    let run := rest.takeWhile Char.isDigit
    let ds := (run.take 6).map fun c => c.toNat - 0x30
    (ofDigits 10 (ds ++ List.replicate (6 - ds.length) 0), rest.drop run.length)
  | cs => (0, cs)

/-- The minutes of a time zone to the end of the text, or no zone at all. -/
def zone? (cs : List Char) : Option (Option Int) :=
  match cs.dropWhile isBlank with
  | [] => if cs.isEmpty then some none else none
  | ['Z'] => some (some 0)
  | sign :: rest =>
    if sign ≠ '+' ∧ sign ≠ '-' then none
    else do
      let (hours, more) ← digitRun? 1 2 rest
      let minutes ← match more with
        | [] => some 0
        | more => do
          let (n, last) ← digitRun? 2 2 (← expect? ':' more)
          if last.isEmpty then some n else none
      return some (Binary64.applySign (sign == '-') (60 * hours + minutes))

/-- A time of day on a day, with a zone or without one, to the end of the text. -/
def onDay? (d : Date) (cs : List Char) : Option Timestamp := do
  let ((hour, minute, second), cs) ← clock? cs
  let (microsecond, cs) := microsecond cs
  let zone ← zone? cs
  return { date := d, hour, minute, second, microsecond, zone }

def ifValid (valid : Bool) (s : Scalar) : Except NumberFault Scalar :=
  if valid then .ok s else .error .notANumber

/-- A day and a time after it: between them stands a `T` or some blanks. -/
def timestamp? (cs : List Char) : Option Timestamp :=
  match day? 1 cs with
  | some (d, c :: rest) =>
    if c = 'T' ∨ c = 't' then onDay? d rest
    else if isBlank c then onDay? d (rest.dropWhile isBlank)
    else none
  | _ => none

def time? (cs : List Char) : Option (Except NumberFault Scalar) :=
  match day? 2 cs with
  | some (d, []) => some (ifValid d.isValid (.date d))
  | _ => (timestamp? cs).map fun t => ifValid t.isValid (.timestamp t)

/-! ## Scalars -/

/-- What a text stands for when that is not itself. -/
def special? (cs : List Char) : Option (Except NumberFault Scalar) :=
  let s := String.ofList cs
  if isNull s then some (.ok .null)
  else match truth? s with
    | some b => some (.ok (.bool b))
    | none =>
      match float? cs with
      | some x => some (x.map Scalar.float)
      | none =>
        match int? cs with
        | some n => some (n.map Scalar.int)
        | none => time? cs

/-- The sign for a default value, and the sign for the fields of another mapping. -/
def signs : List (List Char) := [['='], ['<', '<']]

/-- Whether a plain scalar reads as the text it consists of. -/
def isText (cs : List Char) : Bool := (special? cs).isNone && !signs.contains cs

end BalancedTeams.Yaml.Plain
