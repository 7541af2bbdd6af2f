import BalancedTeams.Proofs.Solver.Running
import BalancedTeams.Proofs.Solver.Search

/-!
# Solving any linear model

* `AssignmentModel.solve_finds` : a backend finds an optimum of every model that its solver handles, or that
  there is no feasible assignment; `LinearModel.slope` is a model with all kinds of constraints.
-/

namespace BalancedTeams
namespace AssignmentModel

variable {τ : Type} {m : AssignmentModel} {solver : Solver} {workers : Value} {w : Option Int}
  {isSet : τ → Bool} {token : Option τ}

/-- **The translation preserves every linear model.** Without a time limit and a set token, a backend whose
solver decides the program it is given answers with values that are within their bounds, meet every
constraint, and are worth the most, or the least if the objective is to be minimized, of all such
assignments; it answers that there are none exactly if there are none. -/
theorem solve_finds (hm : m.linear.IsWellFormed) (hsolver : solver.Handles m.linear w)
    (hworkers : solver.setWorkers workers = .ok w) (htoken : token.any isSet = false) :
    ((∃ v, m.linear.Feasible v) → ∃ v, m.linear.IsOptimum v ∧
      (Backend.ofSolver isSet solver workers).solve m none token =
        pure { status := Status.optimal, values := m.linear.vars.map fun x => (x.name, .int (v x.name)),
               objective := some (.int (m.linear.value v)) }) ∧
    ((¬ ∃ v, m.linear.Feasible v) ↔
      (Backend.ofSolver isSet solver workers).solve m none token =
        pure { status := Status.infeasible }) := by
  have hsolve : (Backend.ofSolver isSet solver workers).solve m none token =
      liftM (solver.solve workers m.linear none false) := by
    rw [← htoken]
    rfl
  rw [hsolve]
  rcases solve_cases hm hsolver hworkers with ⟨v, hv, hrun⟩ | ⟨hnone, hrun⟩
  · rw [hrun]
    refine ⟨fun _ => ⟨v, hv, rfl⟩, fun h => absurd ⟨v, hv.feasible⟩ h, fun h => ?_⟩
    have hstatus := congrArg Outcome.status (Except.ok.inj (congrArg Prod.fst (congrFun h ())))
    exact absurd hstatus (by decide : Status.optimal ≠ Status.infeasible)
  · rw [hrun]
    exact ⟨fun ⟨v, hv⟩ => absurd hv (hnone v), fun _ => rfl, fun _ ⟨v, hv⟩ => hnone v hv⟩

def ofLinear (m : LinearModel) : AssignmentModel where
  linear := m
  personIds := []
  teamCount := 0
  memberships := .empty
  satisfaction := []

end AssignmentModel

/-- Two variables that may be negative, one of them twice in a constraint and in the objective, and a
constraint without terms. -/
def LinearModel.slope : LinearModel where
  vars := [⟨"x", -2, 3⟩, ⟨"y", 0, 4⟩]
  constraints := [⟨[(2, "x"), (3, "y"), (1, "x")], "<=", 7, "cap"⟩, ⟨[(1, "x"), (-1, "y")], ">=", -3, ""⟩,
    ⟨[], "==", 0, ""⟩]
  objective := ⟨[(1, "x"), (-2, "y"), (1, "x")], "minimize"⟩

theorem LinearModel.isWellFormed_slope : slope.IsWellFormed where
  nodup := by decide
  ordered := by decide
  declared := by decide
  operators := by
    simp only [slope, List.forall_mem_cons]
    exact ⟨⟨.le, rfl⟩, ⟨.ge, rfl⟩, ⟨.eq, rfl⟩, nofun⟩
  objective := by decide

theorem AssignmentModel.solve_finds_slope :
    LinearModel.slope.Feasible (fun _ => 0) ∧ ∃ v, LinearModel.slope.IsOptimum v ∧
      (Backend.ofSolver id Solver.exhaustive (.int 8)).solve (.ofLinear .slope) none (some false) =
        pure { status := Status.optimal, values := [("x", .int (v "x")), ("y", .int (v "y"))],
               objective := some (.int (LinearModel.slope.value v)) } := by
  have hfeasible : LinearModel.slope.Feasible fun _ => 0 := ⟨by decide, by decide⟩
  exact ⟨hfeasible, (AssignmentModel.solve_finds (m := .ofLinear .slope) LinearModel.isWellFormed_slope
    (Solver.handles_exhaustive LinearModel.isWellFormed_slope (some 8)) rfl rfl).1 ⟨_, hfeasible⟩⟩

end BalancedTeams
