import BalancedTeams.Proofs.Model.Placement
import BalancedTeams.Proofs.Solver.Translation
import BalancedTeams.Solver.Run

/-!
# Runs of a solver

* `LinearModel.IsOptimum`, `LinearModel.IsMaximum` : a feasible assignment that no other one beats;
* `Terms.reading_eq` : a sum over given values is that of the assignment;
* `LinearModel.cases_of_decides` : what a verdict on the program says of the model;
* `Solver.Handles` : what a solver has to do with a model that is handed over to it;
* `AssignmentModel.solve_cases` : the outcome of a run that no limit and no token ends.
-/

namespace BalancedTeams

/-- A feasible assignment that is worth at least as much as every other one. -/
structure LinearModel.IsMaximum (m : LinearModel) (v : Text → Int) : Prop where
  feasible : m.Feasible v
  greatest : ∀ w, m.Feasible w → m.value w ≤ m.value v

/-- A feasible assignment that is worth at least as much as every other one if the objective is to be
maximized, and at most as much otherwise. -/
structure LinearModel.IsOptimum (m : LinearModel) (v : Text → Int) : Prop where
  feasible : m.Feasible v
  best : ∀ w, m.Feasible w →
    if m.objective.isMaximize then m.value w ≤ m.value v else m.value v ≤ m.value w

theorem LinearModel.IsOptimum.isMaximum {m : LinearModel} {v : Text → Int} (h : m.IsOptimum v)
    (hmax : m.objective.isMaximize = true) : m.IsMaximum v where
  feasible := h.feasible
  greatest w hw := by
    have hbest := h.best w hw
    rwa [if_pos hmax] at hbest

/-! ## Values -/

theorem readBack_eq {m : LinearModel} {xs : Array Int} {v : Text → Int}
    (hnames : (m.vars.map Variable.name).Nodup)
    (h : Program.Holds (m.vars.map Variable.name) xs v) :
    readBack m xs = m.vars.map fun x => (x.name, .int (v x.name)) := by
  have hkept : ∀ e ∈ m.vars.zipIdx,
      (if (Program.numbering (m.vars.map Variable.name))[e.1.name]? = some e.2 then
        some (e.1.name, Value.int (xs.getD e.2 0)) else none) =
        some (e.1.name, Value.int (v e.1.name)) := by
    intro e he
    have hname : (m.vars.map Variable.name)[e.2]? = some e.1.name := by
      rw [List.getElem?_map, List.mem_zipIdx_iff_getElem?.1 he]
      rfl
    rw [if_pos ((Program.numbering_eq_some_iff hnames).2 hname), h.getD_eq hname]
  unfold readBack
  rw [List.filterMap_congr hkept]
  have hfst : m.vars.zipIdx.map Prod.fst = m.vars := List.zipIdx_map_fst 0 m.vars
  calc m.vars.zipIdx.filterMap (fun e => some (e.1.name, Value.int (v e.1.name)))
      = (m.vars.zipIdx.map Prod.fst).map fun x => (x.name, Value.int (v x.name)) := by
        rw [List.map_map, ← List.filterMap_eq_map]
        rfl
    _ = m.vars.map fun x => (x.name, Value.int (v x.name)) := by rw [hfst]

theorem Terms.reading_eq {values : Values} {v : Text → Int} {terms : Terms}
    (h : ∀ t ∈ terms, values.get? t.2 = some (.int (v t.2))) :
    Terms.reading values terms = .ok (.int (terms.value v)) := by
  unfold reading
  rw [← Int.zero_add (terms.value v)]
  generalize (0 : Int) = n
  induction terms generalizing n with
  | nil =>
    rw [Terms.value_nil, Int.add_zero]
    rfl
  | cons t terms ih =>
    obtain ⟨ht, hrest⟩ := List.forall_mem_cons.1 h
    rw [List.foldlM_cons, ht, Terms.value_cons, ← Int.add_assoc]
    exact ih hrest (n + t.1 * v t.2)

/-! ## Optima -/

namespace LinearModel
variable {m : LinearModel}

theorem isOptimum_of_program (hm : m.IsWellFormed) {xs : Array Int} {v : Text → Int}
    (hxs : m.program.Optimal xs) (hv : Program.Holds m.names xs v) : m.IsOptimum v := by
  refine ⟨(feasible_program_iff hm hv).1 hxs.1, fun w hw => ?_⟩
  have hys := Program.holds_map m.names w
  have hbest := hxs.2 _ ((feasible_program_iff hm hys).2 hw)
  rwa [value_program hm hv, value_program hm hys] at hbest

/-- A verdict that decides the program of a model decides the model. -/
theorem cases_of_decides (hm : m.IsWellFormed) {verdict : Verdict} (h : verdict.Decides m.program) :
    (∃ v, verdict.status = .optimal ∧ Program.Holds m.names verdict.values v ∧ m.IsOptimum v) ∨
      verdict.status = .infeasible ∧ ∀ v, ¬ m.Feasible v := by
  rcases h with ⟨hstatus, hoptimal⟩ | ⟨hstatus, hnone⟩
  · have hsize : verdict.values.size = m.names.length := by
      rw [hoptimal.1.1, program, List.length_map, names, List.length_map]
    obtain ⟨v, hv⟩ := Program.exists_holds hm.nodup hsize
    exact Or.inl ⟨v, hstatus, hv, isOptimum_of_program hm hoptimal hv⟩
  · refine Or.inr ⟨hstatus, fun v hv => ?_⟩
    exact hnone _ ((feasible_program_iff hm (Program.holds_map m.names v)).2 hv)

end LinearModel

/-! ## Runs -/

/-- The solver refuses none of the calls that a model comes to, and a run without a time limit decides the
program that it becomes. -/
structure Solver.Handles (solver : Solver) (m : LinearModel) (workers : Option Int) : Prop where
  takes : ∀ f, solver.translate m ≠ .error (.program f)
  decides : ∀ p, solver.translate m = .ok p → (solver.run p none workers).Decides p

namespace AssignmentModel
variable {m : AssignmentModel}

/-- The outcome of a run that ends with an optimum. -/
def optimum (m : AssignmentModel) (v : Text → Int) : Outcome where
  status := Status.optimal
  values := m.valuesOf v
  objective := some (.int (m.linear.value v))

theorem ofRun_valuesOf (cancelled : Bool) (v : Text → Int)
    (h : ∀ t ∈ m.linear.objective.terms, t.2 ∈ m.linear.vars.map Variable.name) :
    Outcome.ofRun .optimal cancelled (m.valuesOf v) m.linear.objective.terms = .ok (m.optimum v) := by
  have hread : (m.valuesOf v).mapM (fun e => do
      let k ← (e.2.toInt : Except NumberFault Int)
      return (e.1, Value.int k)) = (.ok (m.valuesOf v) : Except Fault Values) := by
    refine (mapM_eq_ok (g := id) fun e he => ?_).trans (by rw [List.map_id])
    obtain ⟨x, -, rfl⟩ := List.mem_map.1 he
    rfl
  have htotal : Terms.reading (m.valuesOf v) m.linear.objective.terms =
      .ok (.int (m.linear.value v)) := by
    refine Terms.reading_eq fun t ht => ?_
    obtain ⟨x, hx, hname⟩ := List.mem_map.1 (h t ht)
    rw [← hname]
    exact get?_valuesOf hx
  exact bind_eq_ok_iff.2 ⟨_, hread, bind_eq_ok_iff.2 ⟨_, htotal, rfl⟩⟩

/-- Without a limit and a set token, a run ends with an optimum of the model, or with the answer that there
is no feasible assignment. -/
theorem solve_cases {solver : Solver} {workers : Value} {w : Option Int} (hm : m.linear.IsWellFormed)
    (hsolver : solver.Handles m.linear w) (hworkers : solver.setWorkers workers = .ok w) :
    (∃ v, m.linear.IsOptimum v ∧ solver.solve workers m.linear none false = .ok (m.optimum v)) ∨
      (∀ v, ¬ m.linear.Feasible v) ∧
        solver.solve workers m.linear none false = .ok { status := Status.infeasible } := by
  have hprogram : solver.translate m.linear = .ok m.linear.program := by
    rcases solver.gives_translate hm with h | ⟨call, f, -, h⟩
    · exact h
    · exact absurd h (hsolver.takes f)
  have hlimit : solver.setLimit none = .ok none := rfl
  unfold Solver.solve
  rw [hprogram, ok_bind, if_neg Bool.false_ne_true, hlimit, ok_bind, hworkers, ok_bind]
  rcases LinearModel.cases_of_decides hm (hsolver.decides _ hprogram) with
    ⟨v, hstatus, hv, hoptimum⟩ | ⟨hstatus, hnone⟩
  · refine Or.inl ⟨v, hoptimum, ?_⟩
    dsimp only
    rw [hstatus, readBack_eq hm.nodup hv]
    exact ofRun_valuesOf _ v hm.objective
  · refine Or.inr ⟨hnone, ?_⟩
    dsimp only
    rw [hstatus]
    rfl

end AssignmentModel
end BalancedTeams
