import BalancedTeams.Solver.Outcome
import Std.Data.HashMap

/-!
# Integer programs, and solvers for them

* `Program` : bounds, constraints and an objective over variables `0, 1, …`;
* `Program.Feasible`, `Program.Optimal` : what there is to find;
* `Verdict` : how a run ended; `Verdict.Decides` : with an optimum, or because nothing is feasible;
* `Solver` : a library that takes or refuses what it is asked, call by call, and runs programs;
* `Solver.translate` : the program of a linear model, handed over to a solver; a name stands for the
  last variable declared with it.
-/

namespace BalancedTeams

abbrev IndexTerms := List (Int × Nat)

def IndexTerms.value (xs : Array Int) (terms : IndexTerms) : Int :=
  terms.foldr (fun t total => t.1 * xs.getD t.2 0 + total) 0

structure IndexConstraint where
  terms : IndexTerms
  comparison : Comparison
  rhs : Int
  deriving DecidableEq, Repr, Inhabited

def IndexConstraint.holds (xs : Array Int) (c : IndexConstraint) : Bool :=
  c.comparison.holds (c.terms.value xs) c.rhs

structure Program where
  bounds : List (Int × Int)
  constraints : List IndexConstraint
  objective : IndexTerms
  maximize : Bool
  deriving DecidableEq, Repr, Inhabited

namespace Program

/-- Every variable is within its bounds and every constraint holds. -/
def Feasible (p : Program) (xs : Array Int) : Prop :=
  xs.size = p.bounds.length ∧
    (∀ i (h : i < p.bounds.length), p.bounds[i].1 ≤ xs.getD i 0 ∧ xs.getD i 0 ≤ p.bounds[i].2) ∧
    ∀ c ∈ p.constraints, c.holds xs = true

/-- The first value is worth at least as much as the second. -/
def AtLeast (p : Program) (a b : Int) : Prop := if p.maximize then b ≤ a else a ≤ b

/-- A feasible assignment that no other one beats. -/
def Optimal (p : Program) (xs : Array Int) : Prop :=
  p.Feasible xs ∧
    ∀ ys, p.Feasible ys → p.AtLeast (p.objective.value xs) (p.objective.value ys)

/-- The number of each name. -/
abbrev Numbering := Std.HashMap Text Nat

def numbering (names : List Text) : Numbering :=
  names.zipIdx.foldl (fun table e => table.insert e.1 e.2) ∅

end Program

/-! ## Runs -/

inductive RunStatus where
  | optimal
  | feasible
  | infeasible
  /-- Stopped before anything was known. -/
  | unknown
  /-- The program or a parameter is invalid. -/
  | invalid
  deriving DecidableEq, Repr, Inhabited

structure Verdict where
  status : RunStatus
  /-- The values that were found, by number. -/
  values : Array Int := #[]
  /-- Somebody cancelled the run while it went on. -/
  cancelled : Bool := false
  deriving Repr, Inhabited

/-- The run has found an optimum of the program, or that nothing is feasible. -/
def Verdict.Decides (v : Verdict) (p : Program) : Prop :=
  v.status = .optimal ∧ p.Optimal v.values ∨ v.status = .infeasible ∧ ∀ xs, ¬ p.Feasible xs

/-! ## Solvers -/

/-- What a solver is asked before it runs. -/
inductive SolverCall where
  /-- A new variable. -/
  | declare (x : Variable)
  /-- A term to be added to a sum. -/
  | extend (ts : IndexTerms) (t : Int × Nat)
  /-- A row that compares a sum with a number. -/
  | compare (c : IndexConstraint)
  /-- A row without terms. -/
  | constant (holds : Bool)
  /-- A name for the row before. -/
  | label (name : Text)
  | objective (maximize : Bool) (ts : IndexTerms)
  | limit (seconds : Binary64)
  | workers (n : Int)
  deriving DecidableEq, Repr, Inhabited

/-- A library that solves programs. The time limit and the number of workers of a run are its own
where none are given. -/
structure Solver where
  take : SolverCall → Except ProgramFault Unit
  run : Program → Option Binary64 → Option Int → Verdict

namespace Solver

/-- A sum with one more term, whose variable is looked up first. -/
def extend (solver : Solver) (table : Program.Numbering) (done : IndexTerms) (t : Int × Text) :
    Except Fault IndexTerms :=
  match table[t.2]? with
  | some i => do
    solver.take (.extend done (t.1, i))
    return done ++ [(t.1, i)]
  | none => throw (.unknownVariable t.2)

/-- A sum with numbers for names. -/
def terms (solver : Solver) (table : Program.Numbering) (ts : Terms) : Except Fault IndexTerms :=
  ts.foldlM (solver.extend table) []

/-- A row with numbers for names. The variables are looked at first, then the operator. -/
def row (solver : Solver) (table : Program.Numbering) (c : LinearConstraint) :
    Except Fault IndexConstraint := do
  let ts ← solver.terms table c.terms
  match Comparison.ofText? c.operator with
  | some op => do
    solver.take (if ts.isEmpty then .constant (op.holds 0 c.rhs) else .compare ⟨ts, op, c.rhs⟩)
    if !c.name.isEmpty then solver.take (.label c.name)
    return ⟨ts, op, c.rhs⟩
  | none => throw (.model (.unknownOperator c.operator))

/-- Hands a model over: its variables, its rows, and an objective if it has terms. -/
def translate (solver : Solver) (m : LinearModel) : Except Fault Program := do
  m.vars.forM fun x => liftM (solver.take (.declare x))
  let table := Program.numbering (m.vars.map Variable.name)
  let constraints ← m.constraints.mapM (solver.row table)
  let objective ← solver.terms table m.objective.terms
  if !objective.isEmpty then solver.take (.objective m.objective.isMaximize objective)
  return {
    bounds := m.vars.map fun x => (x.low, x.high)
    constraints
    objective
    maximize := m.objective.isMaximize }

end Solver
end BalancedTeams
