import BalancedTeams.Proofs.Model.Partition
import BalancedTeams.Proofs.Model.WellFormed
import BalancedTeams.Proofs.Solver.Running
import BalancedTeams.Proofs.Solver.Search
import BalancedTeams.Proofs.Solver.Sessions

/-!
# The best teams of a request

* `Roster.meets_congr`, `IsBalanced.score_listed` : the order of a team's members does not matter;
* `Built.exists_score` : balanced teams are worth as much as an assignment;
* `Solution.IsBest` : balanced teams with their score, which no other balanced teams exceed;
* `Request.solve_isBest` : solving a request finds the best teams.
-/

namespace BalancedTeams
open Compiler

/-! ## Scores of balanced teams -/

theorem Roster.meets_congr {a b : Roster} (ha : ∀ id ∈ a, id.key?.isSome = true)
    (hab : (a.map Value.key?).Perm (b.map Value.key?)) (node : Labelled) :
    a.meets node = b.meets node := by
  have hb : ∀ id ∈ b, id.key?.isSome = true := by
    intro id hid
    obtain ⟨other, hother, hkey⟩ := List.mem_map.1 (hab.mem_iff.2 (List.mem_map_of_mem hid))
    rw [← hkey]
    exact ha other hother
  have hholds : a.holds = b.holds := by
    funext k
    rw [Bool.eq_iff_iff, Roster.holds_iff, Roster.holds_iff, hab.mem_iff]
  rw [Roster.meets_eq_evaluate ha, Roster.meets_eq_evaluate hb, hholds]

theorem IsBalanced.score_listed {people : List Person} {n : Nat} {teams : List Roster}
    (h : IsBalanced (people.map Person.id) n teams) (hids : DistinctKeys (people.map Person.id))
    (relations : List Relation) (tags : List Tag) (policy : Text) :
    score (teams.map (listed (people.map Person.id))) relations people tags policy =
      score teams relations people tags policy := by
  refine score_congr ?_ relations people tags policy
  rw [List.forall₂_map_left_iff, List.forall₂_same]
  intro team hteam node
  refine Roster.meets_congr (fun id hid => ?_) (h.listed_perm hids hteam) node
  exact hids.keyed id (List.mem_filter.1 hid).1

/-- The solution that is read from an optimum. -/
def AssignmentModel.solution (m : AssignmentModel) (people : List Person) (v : Text → Int) :
    Solution where
  teams := teamsOf people m.teamCount (chosen v)
  objective := .int (m.linear.value v)
  status := Status.optimal

namespace Built

variable {r : Request} {m : AssignmentModel} {nodes : List Labelled} {compiled : List (List Text)}
  {c₀ c : Compiler} {ds : Circuit} (h : Built r m nodes compiled c₀ ds c)

include h

theorem exists_score (hlabels : Labelled.Unambiguous nodes) {teams : List Roster}
    (hteams : IsBalanced (r.people.map Person.id) m.teamCount teams) :
    ∃ v, m.linear.Feasible v ∧
      score teams r.relations r.people r.tags r.emptyTag = .ok (.int (m.linear.value v)) := by
  obtain ⟨v, hv, hagree⟩ := h.exists_feasible (hteams.isSeating h.people h.pos)
  have hscore := h.score_eq hlabels hv
  rw [← teamsOf_congr hagree, hteams.teamsOf_isIn, hteams.score_listed h.people] at hscore
  exact ⟨v, hv, hscore⟩

theorem exists_feasible_assignment : ∃ v, m.linear.Feasible v := by
  have hteams := isBalanced_roundRobin (r.people.map Person.id) h.pos
  obtain ⟨v, hv, -⟩ := h.exists_feasible (hteams.isSeating h.people h.pos)
  exact ⟨v, hv⟩

theorem result_optimum {v : Text → Int} (hv : m.linear.Feasible v) :
    m.result (m.optimum v) = .ok { solution := some (m.solution r.people v) } := by
  have hsolved : Status.isSolved (m.optimum v).status = true := rfl
  have hrosters := h.rosters_eq (h.feasible_iff.1 hv).2.1
  unfold AssignmentModel.result
  rw [if_pos hsolved]
  exact bind_eq_ok_iff.2 ⟨_, hrosters, rfl⟩

end Built

/-! ## Solutions -/

/-- Balanced teams with their score, which no other balanced teams exceed. -/
structure Solution.IsBest (s : Solution) (r : Request) : Prop where
  status : s.status = Status.optimal
  count : r.teamCount = .int s.teams.length
  members : s.teams.flatten.Perm (r.people.map Person.id)
  balanced : IsBalanced (r.people.map Person.id) s.teams.length s.teams
  objective : ∃ best : Int, s.objective = .int best ∧
    score s.teams r.relations r.people r.tags r.emptyTag = .ok (.int best) ∧
    ∀ teams, IsBalanced (r.people.map Person.id) s.teams.length teams →
      ∃ n : Int, score teams r.relations r.people r.tags r.emptyTag = .ok (.int n) ∧ n ≤ best

theorem Built.isBest {r : Request} {m : AssignmentModel} {nodes : List Labelled}
    {compiled : List (List Text)} {c₀ c : Compiler} {ds : Circuit}
    (h : Built r m nodes compiled c₀ ds c) (hlabels : Labelled.Unambiguous nodes) {v : Text → Int}
    (hv : m.linear.IsMaximum v) : (m.solution r.people v).IsBest r := by
  have hseating := (h.feasible_iff.1 hv.feasible).2.1
  have hbalanced := hseating.isBalanced h.pos
  have hlength : (m.solution r.people v).teams.length = m.teamCount := hbalanced.length
  refine ⟨rfl, ?_, hseating.flatten_perm, ?_, m.linear.value v, rfl,
    h.score_eq hlabels hv.feasible, fun teams hteams => ?_⟩
  · rw [hlength]
    exact h.count
  · rw [hlength]
    exact hbalanced
  · rw [hlength] at hteams
    obtain ⟨w, hw, hscore⟩ := h.exists_score hlabels hteams
    exact ⟨_, hscore, hv.greatest w hw⟩

/-- **Solving a request finds the best teams**, whatever the relations: where the solver handles the model,
and neither a time limit nor a set token ends the run, the answer is a solution, never that there is
none. -/
theorem Request.solve_isBest {τ : Type} {r : Request} {m : AssignmentModel} {solver : Solver}
    {workers : Value} {w : Option Int} {isSet : τ → Bool} {token : Option τ} (listening : Bool)
    (s : Session Unit) (h : r.model = .ok m) (hlabels : r.Unambiguous)
    (hsolver : solver.Handles m.linear w) (hworkers : solver.setWorkers workers = .ok w)
    (hlimit : r.timeLimit = none) (htoken : token.any isSet = false) :
    ∃ solution, solution.IsBest r ∧
      (solveRequest (Backend.ofSolver isSet solver workers) r token listening).run s =
        (.ok { solution := some solution, warnings := r.warnings },
          s.reporting listening [.build, .solve, .map]) := by
  obtain ⟨nodes, compiled, c₀, ds, c, hbuilt⟩ := exists_built h
  rcases AssignmentModel.solve_cases (isWellFormed_of_model h) hsolver hworkers with
    ⟨v, hv, hrun⟩ | ⟨hnone, -⟩
  · have hmaximum := hv.isMaximum hbuilt.isMaximize
    refine ⟨_, hbuilt.isBest (hlabels nodes hbuilt.formulas) hmaximum, ?_⟩
    have hsolve : ((Backend.ofSolver isSet solver workers).solve m r.timeLimit token).run s.backend =
        (.ok (m.optimum v), s.backend) := by
      rw [← hrun, hlimit, ← htoken]
      rfl
    rw [run_solveRequest_of_built token listening s h, hsolve, ok_bind,
      hbuilt.result_optimum hmaximum.feasible]
    rfl
  · obtain ⟨v, hv⟩ := hbuilt.exists_feasible_assignment
    exact absurd hv (hnone v)

theorem Request.solve_isBest_pair :
    (∃ m, pair.model = .ok m ∧ Solver.exhaustive.Handles m.linear (some 8)) ∧ pair.Unambiguous ∧
      Solver.exhaustive.setWorkers pair.workers = .ok (some 8) ∧ pair.timeLimit = none ∧
      ∃ solution, solution.IsBest pair ∧
        (solveRequest (Backend.ofSolver id Solver.exhaustive pair.workers) pair (some false) true).run
          ⟨(), []⟩ =
            (.ok { solution := some solution }, ⟨(), [.build, .solve, .map]⟩) := by
  obtain ⟨m, hm, -⟩ := exists_model_pair
  have hsolver := Solver.handles_exhaustive (isWellFormed_of_model hm) (some 8)
  exact ⟨⟨m, hm, hsolver⟩, unambiguous_pair, rfl, rfl,
    solve_isBest true ⟨(), []⟩ hm unambiguous_pair hsolver rfl rfl rfl⟩

end BalancedTeams
