import BalancedTeams.Yaml.Plain
import BalancedTeams.Value

/-!
# Nodes of a YAML document

* `Node` : a scalar as it is written, a sequence, or a mapping with any nodes as keys;
* `DocumentFault` : why a document has no value;
* `Node.value?` : the value of a node. Of several faults a wrong number in quotes counts before all
  others, then the one in the outermost collection; of those in collections at one depth the first.
-/

namespace BalancedTeams

/-- The fields with a key set: in place if it is there, also in another form, else at the end. -/
def Value.putField (key : Scalar) (v : Value) : List (Scalar × Value) → List (Scalar × Value)
  | [] => [(key, v)]
  | (k, old) :: rest =>
    if k.same key then (k, v) :: rest else (k, old) :: Value.putField key v rest

namespace Yaml

inductive DocumentFault where
  /-- A character that no document can hold. -/
  | unreadable
  /-- A text in the form of a number or of a day that is none. -/
  | number (f : NumberFault)
  /-- A sign that has a meaning of its own where a value is wanted. -/
  | loneSign
  /-- A sequence or a mapping as a key. -/
  | compoundKey
  /-- An escape with a number that no code point has. -/
  | noCodePoint
  /-- An escape with a number of more than 31 bits. -/
  | codeTooLarge
  deriving DecidableEq, Repr, Inhabited

inductive Node where
  /-- A scalar without quotes; the empty one stands where a node is left out. -/
  | plain (cs : List Char)
  /-- A scalar in quotes, by the numbers of its code points. -/
  | quoted (codes : List Nat)
  | sequence (items : List Node)
  | mapping (fields : List (Node × Node))
  deriving Repr, Inhabited

namespace Node

/-- A node that is left out. -/
def missing : Node := .plain []

/-! ## Scalars -/

/-- A plain scalar that stands for itself. -/
def ofChars (cs : List Char) : Scalar := .str (cs.map CodePoint.char)

def ofPlain (cs : List Char) : Except DocumentFault Scalar :=
  if Plain.signs.contains cs then .error .loneSign
  else ((Plain.special? cs).getD (.ok (ofChars cs))).mapError .number

/-- What a plain scalar stands for as a key, where the signs stand for themselves. -/
def ofPlainKey (cs : List Char) : Except DocumentFault Scalar :=
  if Plain.signs.contains cs then .ok (ofChars cs) else ofPlain cs

/-- The least number of more than 31 bits. -/
def tooLarge : Nat := 0x80000000

def ofCode (n : Nat) : Except DocumentFault CodePoint :=
  match CodePoint.ofNat? n with
  | some c => .ok c
  | none => .error (if n < tooLarge then .noCodePoint else .codeTooLarge)

def ofCodes (codes : List Nat) : Except DocumentFault Scalar := do
  return .str (← codes.mapM ofCode)

/-! ## Values -/

/-- A result, or a fault with its rank: the number of collections around it and one, but 0 where a
wrong number is in quotes. -/
abbrev Read := Except (Nat × DocumentFault)

namespace Read
variable {α β : Type}

def ranked (rank : Nat) (x : Except DocumentFault α) : Read α := x.mapError fun f => (rank, f)

/-- Two results. Of two faults the one of lower rank counts, the first one if none is lower. -/
def both (x : Read α) (y : Read β) : Read (α × β) :=
  match x, y with
  | .ok a, .ok b => .ok (a, b)
  | .ok _, .error e => .error e
  | .error e, .ok _ => .error e
  | .error d, .error e => .error (if e.1 < d.1 then e else d)

def refuse (rank : Nat) (x : Read α) : Read β :=
  (both x (ranked rank (.error .compoundKey))).map Prod.snd

end Read

mutual

def read (rank : Nat) : Node → Read Value
  | .plain cs => (Read.ranked rank (ofPlain cs)).map Value.scalar
  | .quoted codes => (Read.ranked 0 (ofCodes codes)).map Value.scalar
  | .sequence items => (readItems (rank + 1) items).map Value.list
  | .mapping fields =>
    (readFields (rank + 1) fields).map fun fs =>
      .map (fs.foldl (fun done f => Value.putField f.1 f.2 done) [])

def readKey (rank : Nat) : Node → Read Scalar
  | .plain cs => Read.ranked rank (ofPlainKey cs)
  | .quoted codes => Read.ranked 0 (ofCodes codes)
  | .sequence items => Read.refuse rank (readItems (rank + 1) items)
  | .mapping fields => Read.refuse rank (readFields (rank + 1) fields)

def readItems (rank : Nat) : List Node → Read (List Value)
  | [] => .ok []
  | n :: rest => (Read.both (read rank n) (readItems rank rest)).map fun e => e.1 :: e.2

/-- The fields in order; a repeated key is kept each time. -/
def readFields (rank : Nat) : List (Node × Node) → Read (List (Scalar × Value))
  | [] => .ok []
  | (k, n) :: rest =>
    let field := Read.both (readKey rank k) (read rank n)
    (Read.both field (readFields rank rest)).map fun e => e.1 :: e.2

end

def value? (n : Node) : Except DocumentFault Value := (read 1 n).mapError Prod.snd

end Node
end Yaml
end BalancedTeams
