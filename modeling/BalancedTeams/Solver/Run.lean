import BalancedTeams.Solver.Program
import BalancedTeams.Solver.Session

/-!
# Backends from solvers

* `Outcome.ofRun` : the outcome of a run;
* `readBack` : values by name from values by number;
* `Solver.setLimit`, `Solver.setWorkers` : the parameters of a run;
* `Solver.solve`, `Backend.ofSolver` : hands a model over, runs the solver, and reads the values back.
-/

namespace BalancedTeams

/-- The outcome of a run. Values are read as integers and only count when the run found any; a
stopped run was cancelled or ran out of time. -/
def Outcome.ofRun (status : RunStatus) (cancelled : Bool) (values : Values) (objective : Terms) :
    Except Fault Outcome := do
  let solved (name : Text) : Except Fault Outcome := do
    let values ← values.mapM fun e => do
      let n ← (e.2.toInt : Except NumberFault Int)
      return (e.1, Value.int n)
    let total ← Terms.reading values objective
    let total ← (total.toInt : Except NumberFault Int)
    return { status := name, values, objective := some (.int total) }
  match status with
  | .optimal => solved Status.optimal
  | .feasible => solved Status.feasible
  | .infeasible => return { status := Status.infeasible }
  | .unknown => return { status := if cancelled then Status.cancelled else Status.timedOut }
  | .invalid => return { status := Status.solverError }

/-- The values of a model's variables, read from an assignment by number; a name stands for the last
variable declared with it. -/
def readBack (m : LinearModel) (xs : Array Int) : Values :=
  let table := Program.numbering (m.vars.map Variable.name)
  m.vars.zipIdx.filterMap fun e =>
    if table[e.1.name]? = some e.2 then some (e.1.name, .int (xs.getD e.2 0)) else none

namespace Solver

def setLimit (solver : Solver) : Option Value → Except Fault (Option Binary64)
  | none => .ok none
  | some v => do
    let x ← v.toFloat
    solver.take (.limit x)
    return some x

/-- The number of workers; nothing leaves it to the solver. -/
def setWorkers (solver : Solver) (given : Value) : Except Fault (Option Int) :=
  if given.isNothing then .ok none
  else do
    let n ← given.toInt
    solver.take (.workers n)
    return some n

/-- The outcome for a linear model. The model is translated first; a set token ends the run before
its parameters are looked at. -/
def solve (solver : Solver) (workers : Value) (m : LinearModel) (limit : Option Value)
    (cancelled : Bool) : Except Fault Outcome := do
  let p ← solver.translate m
  if cancelled then return { status := Status.cancelled }
  let limit ← solver.setLimit limit
  let workers ← solver.setWorkers workers
  let verdict := solver.run p limit workers
  Outcome.ofRun verdict.status verdict.cancelled (readBack m verdict.values) m.objective.terms

end Solver

/-- A backend that keeps nothing between runs; there is never a run it could cancel. -/
def Backend.ofSolver {τ : Type} (isSet : τ → Bool) (solver : Solver) (workers : Value) :
    Backend Unit τ where
  solve m limit token := liftM (solver.solve workers m.linear limit (token.any isSet))
  cancel := pure ()

end BalancedTeams
