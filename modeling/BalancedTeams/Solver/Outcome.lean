import BalancedTeams.Model

/-!
# What solvers answer, and rosters read from it

* `Status` : the names of the ways in which a solver's run can end;
* `Outcome` : a status, values of variables, and the objective if the solver gives one;
* `Terms.reading` : a weighted sum of values as they were given;
* `AssignmentModel.rosters` : the teams that the membership variables with value 1 describe;
* `Result` : a solution or a diagnostic, with warnings.
-/

namespace BalancedTeams

namespace Status

def optimal : Text := "optimal"
def feasible : Text := "feasible"
def infeasible : Text := "infeasible"
def timedOut : Text := "timed-out"
def cancelled : Text := "cancelled"
def solverError : Text := "solver-error"

/-- Whether a status goes with values. -/
def isSolved (status : Text) : Bool := status == optimal || status == feasible

end Status

abbrev Values := List (Text × Value)

/-- The value of a variable: the last one given for its name. -/
def Values.get? (values : Values) (name : Text) : Option Value :=
  (values.reverse.find? fun e => e.1 == name).map Prod.snd

structure Outcome where
  status : Text
  values : Values := []
  objective : Option Value := none
  deriving Repr, Inhabited

/-- The greatest number of repetitions, and the greatest length of a text. -/
def maxLength : Int := 9223372036854775807

/-- The greatest length of a text or a list that there is room for. -/
def roomLength : Int := 137438953472

/-- Why a coefficient times a text or a list of some length is no number. The repetitions are made
first, as far as their number and the length of what comes out allow it. -/
def repetitionFault (isText : Bool) (times : Int) (length : Nat) : Fault :=
  if times < -maxLength - 1 ∨ maxLength < times then .number .outOfRange
  else if times * length ≤ roomLength then .number .wrongType
  else if isText && decide (maxLength < times * length) then .number .outOfRange
  else .noRoom

def Value.times (n : Int) : Value → Except Fault Scalar
  | .str t => .error (repetitionFault true n t.length)
  | .list items => .error (repetitionFault false n items.length)
  | v => do
    let x ← v.asScalar
    Scalar.mul (.int n) x

/-- A sum of coefficients times values, term by term; every variable needs a value. -/
def Terms.reading (values : Values) (terms : Terms) : Except Fault Scalar :=
  terms.foldlM (fun total t => do
    match values.get? t.2 with
    | none => throw (.unknownVariable t.2)
    | some v =>
      let product ← v.times t.1
      total.add product) (.int 0)

/-! ## Rosters -/

namespace AssignmentModel

/-- Whether a person is in a team: the membership variable has the value 1; a variable without a
value counts as 0. -/
def isChosen (m : AssignmentModel) (values : Values) (id : Value) (slot : Int) :
    Except Fault Bool := do
  let k ← id.key
  match m.memberships.find? k slot with
  | none => throw .noKey
  | some x =>
    let v ← ((values.get? x).getD (.int 0)).toInt
    return v == 1

def chosenSlots (m : AssignmentModel) (values : Values) (id : Value) : Except Fault (List Int) :=
  (slots m.teamCount).filterM fun t => m.isChosen values id t

/-- Everybody with their one team, in the order of the people. -/
def placements (m : AssignmentModel) (values : Values) : Except Fault (List (Value × Int)) :=
  m.personIds.mapM fun id => do
    match ← m.chosenSlots values id with
    | [t] => return (id, t)
    | ts =>
      let shown ← id.text
      throw (.solver (.misplaced shown ts.length))

/-- The members of the teams, each team in the order of the people. -/
def rosters (m : AssignmentModel) (values : Values) : Except Fault (List Roster) := do
  let placed ← m.placements values
  return (slots m.teamCount).map fun t => (placed.filter fun p => p.2 == t).map Prod.fst

end AssignmentModel

/-! ## Results -/

structure Solution where
  teams : List Roster
  objective : Value
  status : Text := "optimal"
  deriving Repr, Inhabited

structure Diagnostic where
  status : Text
  message : Text := ""
  deriving DecidableEq, Repr, Inhabited

structure Result where
  solution : Option Solution := none
  diagnostic : Option Diagnostic := none
  warnings : List Text := []
  deriving Repr, Inhabited

end BalancedTeams
