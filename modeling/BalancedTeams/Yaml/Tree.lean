import BalancedTeams.Value

/-!
# Trees to be written

* `Tree` : a value to be written, where a collection of several places stands in the first of them,
  with an anchor, and the others refer to it;
* `Tree.of` : a value as a tree without anchors, if all of its scalars can be written;
* `Tree.share` : rows of values by key as trees, where a collection stands in one place only.
-/

namespace BalancedTeams.Yaml

inductive Tree where
  | scalar (s : Scalar)
  | list (anchor : Option Nat) (items : List Tree)
  | map (anchor : Option Nat) (fields : List (Scalar × Tree))
  /-- The collection with this anchor. -/
  | reference (anchor : Nat)
  deriving Repr, Inhabited

namespace Tree

mutual

def ofValue : Value → Tree
  | .scalar s => .scalar s
  | .list items => .list none (ofItems items)
  | .map fields => .map none (ofFields fields)

def ofItems : List Value → List Tree
  | [] => []
  | v :: rest => ofValue v :: ofItems rest

def ofFields : List (Scalar × Value) → List (Scalar × Tree)
  | [] => []
  | (k, v) :: rest => (k, ofValue v) :: ofFields rest

end

def of (v : Value) : Except TextFault Tree :=
  if v.isWritable then .ok (ofValue v) else .error .tooManyDigits

/-- Only collections have anchors. -/
def isCollection : Tree → Bool
  | .list .. => true
  | .map .. => true
  | _ => false

def anchored (anchor : Nat) : Tree → Tree
  | .list _ items => .list (some anchor) items
  | .map _ fields => .map (some anchor) fields
  | t => t

/-! ## Shared collections -/

/-- The keys that come up a second time, in the order in which they do. -/
def repeated (before : List Key) : List Key → List Key
  | [] => []
  | k :: rest =>
    if before.count k = 1 then k :: repeated (k :: before) rest else repeated (k :: before) rest

/-- A tree in its place, after the places of the keys met so far. `anchors` has the keys of the
collections with several places; their anchors count from 1. -/
def place (anchors : List Key) (x : Key × Tree) : StateM (List Key) Tree := do
  let met ← get
  set (x.1 :: met)
  match anchors.idxOf? x.1 with
  | none => return x.2
  | some i => return if met.contains x.1 then .reference (i + 1) else x.2.anchored (i + 1)

/-- Rows of values as trees, where values of one key are the same. -/
def share (rows : List (List (Key × Value))) : Except TextFault (List (List Tree)) := do
  let rows ← rows.mapM (List.mapM fun x => (of x.2).map fun t => (x.1, t))
  let collections := rows.flatten.filter fun x => x.2.isCollection
  let anchors := repeated [] (collections.map Prod.fst)
  return ((rows.mapM (List.mapM (place anchors))).run []).1

end Tree
end BalancedTeams.Yaml
