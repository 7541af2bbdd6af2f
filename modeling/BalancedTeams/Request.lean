import BalancedTeams.Formula.Build
import BalancedTeams.Formula.Evaluate

/-!
# Requests and scores

* `Request` : whom to place in how many teams, under which relations;
* `Roster.holds` : membership in a roster;
* `score` : the priorities of the relations, summed over the teams that meet them.
-/

namespace BalancedTeams

def defaultWorkers : Int := 8

structure Request where
  people : List Person
  tags : List Tag := []
  relations : List Relation := []
  teamCount : Value
  /-- A limit on the solver's time, in seconds. -/
  timeLimit : Option Value := none
  /-- The number of the solver's workers. -/
  workers : Value := .int defaultWorkers
  /-- The name of the policy for tags that nobody carries. -/
  emptyTag : Text := "vacuous"
  warnings : List Text := []
  deriving Repr, Inhabited

/-- The ids of a team's members. -/
abbrev Roster := List Value

def Roster.holds (team : Roster) (k : Key) : Bool := team.any fun id => id.key? == some k

/-- Whether a roster meets a formula. The ids of all members need keys. -/
def Roster.meets (team : Roster) (node : Labelled) : Except Fault Bool := do
  let keys ← Fault.orNoKey (keysOf? team)
  Fault.orNoKey (node.evaluate keys.contains)

/-- Adds the priority of a relation for every team that meets its formula. -/
def addScores (node : Labelled) (priority : Value) (total : Scalar) (teams : List Roster) :
    Except Fault Scalar :=
  teams.foldlM (fun total team => do
    if ← team.meets node then
      let n ← priority.asScalar
      total.add n
    else return total) total

/-- What a partition into teams is worth. -/
def score (teams : List Roster) (relations : List Relation) (people : List Person)
    (tags : List Tag) (emptyTag : Text) : Except Fault Scalar := do
  let ctx ← Context.of? people tags emptyTag
  relations.foldlM (fun total r => do
    let f ← ctx.relation r.entries
    let node ← f.labelled
    addScores node r.priority total teams) (.int 0)

end BalancedTeams
