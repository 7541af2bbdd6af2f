import BalancedTeams.Formula.Compile
import BalancedTeams.Request

/-!
# The model of a request

* `Request.check` : what a request has to meet before a model is built, and its team count;
* `AssignmentModel` : a linear model with the people, the membership variables, and for each
  relation the variables that say which teams meet it;
* `Request.model` : one membership variable per person and team, teams of nearly equal size, every
  person in one team, every relation compiled for every team, and the sum of the priorities of the
  relations met as the objective.
-/

namespace BalancedTeams

structure AssignmentModel where
  linear : LinearModel
  personIds : List Value
  teamCount : Nat
  memberships : Memberships
  /-- For each relation, the variables of its formula on the teams in order. -/
  satisfaction : List (Value × List Text)
  deriving Inhabited

/-! ## Checks -/

/-- People are checked one after the other; `seen` are the keys of those before. -/
def checkPeople (seen : List Key) : List Person → Except Fault Unit
  | [] => .ok ()
  | p :: rest => do
    let k ← p.id.key
    if seen.contains k then
      let shown ← p.id.text
      throw (.model (.duplicatePerson shown))
    checkPeople (k :: seen) rest

def isPriority : Value → Bool
  | .int n => decide (1 ≤ n)
  | _ => false

/-- Relations are checked one after the other: first the id, then the priority. -/
def checkRelations (seen : List Key) : List Relation → Except Fault Unit
  | [] => .ok ()
  | r :: rest => do
    let k ← r.id.key
    if seen.contains k then
      let shown ← r.id.text
      throw (.model (.duplicateRelation shown))
    if !isPriority r.priority then
      let shown ← r.id.text
      throw (.model (.badPriority shown))
    checkRelations (k :: seen) rest

/-- A team count between 1 and the number of people. -/
def checkTeamCount (people : Nat) (given : Value) : Except Fault Nat :=
  match given with
  | .int n =>
    if n ≤ 0 then do
      let shown ← given.text
      throw (.model (.teamCountNotPositive shown))
    else if (people : Int) < n then do
      let shown ← given.text
      throw (.model (.tooManyTeams shown people))
    else .ok n.toNat
  | _ => do
    let shown ← given.quoted
    throw (.model (.teamCountNotAnInteger shown))

namespace Request

def check (r : Request) : Except Fault Nat := do
  let teams ← checkTeamCount r.people.length r.teamCount
  checkPeople [] r.people
  checkRelations [] r.relations
  return teams

end Request

/-! ## Parts of the model -/

def slots (teams : Nat) : List Int := (List.range teams).map Int.ofNat

/-- The membership variable of a person, whose id has this text, in a team. -/
def membershipName (person : Text) (slot : Int) : Text := "x_" ++ person ++ "_" ++ toString slot

/-- The least and the greatest size of a team. -/
def sizeBounds (people teams : Nat) : Nat × Nat :=
  (people / teams, if people % teams = 0 then people / teams else people / teams + 1)

namespace Compiler

/-- Declares the membership variables, person by person, and gives the texts of the ids. -/
def declareMemberships (people : List Person) (teams : Nat) : CompileM (List Text) :=
  people.mapM fun p => do
    let person ← liftM p.id.text
    (slots teams).forM fun t => do
      declare (membershipName person t)
      register p.id t (membershipName person t)
    return person

def teamTerms (people : List Text) (slot : Int) : Terms :=
  people.map fun p => (1, membershipName p slot)

def personTerms (teams : Nat) (person : Text) : Terms :=
  (slots teams).map fun t => (1, membershipName person t)

/-- No team is too small or too large. -/
def balanceTeams (people : List Text) (teams : Nat) : CompileM Unit :=
  let bounds := sizeBounds people.length teams
  (slots teams).forM fun t => do
    require (teamTerms people t) .ge bounds.1 ("team_min_" ++ toString t)
    require (teamTerms people t) .le bounds.2 ("team_max_" ++ toString t)

/-- Everybody is in exactly one team. -/
def placeEveryone (people : List Text) (teams : Nat) : CompileM Unit :=
  people.forM fun p => require (personTerms teams p) .eq 1 ("one_team_" ++ p)

/-- The variables of each formula on the teams in order. -/
def compileAll (teams : Nat) (nodes : List Labelled) : CompileM (List (List Text)) :=
  nodes.mapM fun node => (slots teams).mapM fun t => compile t node

/-- All of the model but the objective. -/
def assemble (people : List Person) (teams : Nat) (nodes : List Labelled) :
    CompileM (List (List Text)) := do
  let ids ← declareMemberships people teams
  balanceTeams ids teams
  placeEveryone ids teams
  compileAll teams nodes

end Compiler

/-- The weight of a relation in the objective. -/
def Relation.weight (r : Relation) : Int := (r.priority.integer?).getD 0

def objectiveTerms (relations : List Relation) (vars : List (List Text)) : Terms :=
  (relations.zip vars).flatMap fun rv => rv.2.map fun x => (rv.1.weight, x)

def Compiler.toModel (c : Compiler) (objective : Objective) (personIds : List Value)
    (teamCount : Nat) (satisfaction : List (Value × List Text)) : AssignmentModel where
  linear :=
    { vars := c.builder.vars.toList
      constraints := c.builder.constraints.toList
      objective }
  personIds
  teamCount
  memberships := c.memberships
  satisfaction

namespace Request

def formulas (r : Request) : Except Fault (List Labelled) := do
  let ctx ← Context.of? r.people r.tags r.emptyTag
  r.relations.mapM fun rel => do
    let f ← ctx.relation rel.entries
    liftM f.labelled

def model (r : Request) : Except Fault AssignmentModel := do
  let teams ← r.check
  let nodes ← r.formulas
  match (Compiler.assemble r.people teams nodes).run .empty with
  | (.error e, _) => throw e
  | (.ok vars, c) =>
    return c.toModel ⟨objectiveTerms r.relations vars, "maximize"⟩ (r.people.map Person.id) teams
      ((r.relations.map Relation.id).zip vars)

end Request
end BalancedTeams
