import BalancedTeams.Table

/-!
# People, tags and what relations say about them

* `Person`, `Tag` : who can be placed, and what people can be grouped by;
* `Ref` : a mention of a person or tag by id;
* `Entry` : a piece of a relation, text or reference;
* `Relation` : entries with an id and a priority;
* `carriers` : the people that carry a tag;
* `EmptyTag` : what a tag that nobody carries stands for.

Ids and names may be any values. Those that cannot be looked up are refused where they are.
-/

namespace BalancedTeams

structure Person where
  id : Value
  name : Value
  /-- The keys of the tags the person carries. -/
  tags : List Key := []
  deriving DecidableEq, Repr, Inhabited

structure Tag where
  id : Value
  name : Value
  deriving DecidableEq, Repr, Inhabited

inductive Ref where
  | person (id : Value)
  | tag (id : Value)
  deriving DecidableEq, Repr, Inhabited

namespace Ref

def same : Ref → Ref → Bool
  | .person a, .person b => a.same b
  | .tag a, .tag b => a.same b
  | _, _ => false

end Ref

inductive Entry where
  | text (t : Text)
  | ref (r : Ref)
  /-- A value that is neither text nor a reference. -/
  | foreign (v : Value)
  deriving Repr, Inhabited

namespace Entry

def same : Entry → Entry → Bool
  | .text a, .text b => a == b
  | .ref a, .ref b => a.same b
  | _, _ => false

end Entry

structure Relation where
  id : Value
  entries : List Entry
  priority : Value := .int 1
  deriving Repr, Inhabited

/-- The ids of the people that carry a tag, in the order of the people. -/
def carriers (people : List Person) (tag : Key) : List Value :=
  (people.filter fun p => p.tags.contains tag).map Person.id

inductive EmptyTag where
  /-- Nobody has to be there: every roster will do. -/
  | vacuous
  /-- No roster will do. -/
  | unsatisfiable
  | error
  deriving DecidableEq, Repr, Inhabited

namespace EmptyTag

def ofName? (name : Text) : Option EmptyTag :=
  if name = "vacuous" then some .vacuous
  else if name = "unsatisfiable" then some .unsatisfiable
  else if name = "error" then some .error
  else none

def name : EmptyTag → Text
  | .vacuous => "vacuous"
  | .unsatisfiable => "unsatisfiable"
  | .error => "error"

theorem ofName?_name (p : EmptyTag) : ofName? p.name = some p := by cases p <;> rfl

end EmptyTag

end BalancedTeams
