import BalancedTeams.Proofs.Model.Rosters
import BalancedTeams.Proofs.Solver.Running
import BalancedTeams.Proofs.Solver.Sessions
import BalancedTeams.Solver.Scripted

/-!
# Outcomes with values for some of the variables

* `Outcome.GivesInts` : a solved outcome with integers for names, and no objective;
* `IsPlaced` : these integers put everybody in one team, a missing one counting as 0;
* `Terms.reading_eq_error` : a sum ends at its first variable without a value;
* `AssignmentModel.result_of_valued`, `AssignmentModel.result_of_unvalued` : what everybody's placement
  comes to with all values of the objective, and without one of them;
* `Request.solveModel_of_ints` : the three answers there are; the rosters read a missing value as 0, and
  the objective does not.
-/

namespace BalancedTeams

variable {ints : List (Text × Int)}

/-- A solver's integers for names, without an objective. -/
structure Outcome.GivesInts (outcome : Outcome) (ints : List (Text × Int)) : Prop where
  solved : Status.isSolved outcome.status = true
  values : outcome.values = .ofInts ints
  objective : outcome.objective = none ∨ outcome.objective = some .null

/-- Everybody is in exactly one team, where a variable without an integer counts as 0. -/
def IsPlaced (people : List Person) (teams : Nat) (ints : List (Text × Int)) : Prop :=
  ∀ p ∈ people, (slots teams).countP (chosen (intAt ints) p) = 1

instance (people : List Person) (teams : Nat) (ints : List (Text × Int)) :
    Decidable (IsPlaced people teams ints) :=
  inferInstanceAs (Decidable (∀ p ∈ people, (slots teams).countP (chosen (intAt ints) p) = 1))

/-! ## Sums -/

theorem Terms.reading_ofInts {terms : Terms} (h : ∀ t ∈ terms, t.2 ∈ ints.map Prod.fst) :
    Terms.reading (.ofInts ints) terms = .ok (.int (terms.value (intAt ints))) :=
  Terms.reading_eq fun t ht => get?_ofInts_of_mem (h t ht)

theorem Terms.reading_eq_error {before after : Terms} {t : Int × Text}
    (hbefore : ∀ u ∈ before, u.2 ∈ ints.map Prod.fst) (ht : t.2 ∉ ints.map Prod.fst) :
    Terms.reading (.ofInts ints) (before ++ t :: after) = .error (.unknownVariable t.2) := by
  have hread := reading_ofInts hbefore
  unfold reading at hread ⊢
  rw [List.foldlM_append, hread, ok_bind, List.foldlM_cons, get?_ofInts_eq_none_iff.2 ht]
  rfl

/-! ## Results -/

namespace AssignmentModel
variable {m : AssignmentModel} {outcome : Outcome} {teams : List Roster}

/-- The rosters are read first, and the objective is then a sum over the values. -/
theorem result_eq_of_rosters (h : outcome.GivesInts ints) (hteams : m.rosters (.ofInts ints) = .ok teams) :
    m.result outcome = (do
      let total ← Terms.reading (.ofInts ints) m.linear.objective.terms
      let objective ← (total.toInt : Except NumberFault Int)
      return { solution := some { teams, objective := .int objective, status := outcome.status } }) := by
  unfold result
  rw [if_pos h.solved, h.values, hteams, ok_bind]
  rcases h.objective with hnone | hnone
  · rw [hnone]
  · rw [hnone]

theorem result_of_valued (h : outcome.GivesInts ints) (hteams : m.rosters (.ofInts ints) = .ok teams)
    (hvalued : ∀ t ∈ m.linear.objective.terms, t.2 ∈ ints.map Prod.fst) :
    m.result outcome =
      .ok { solution := some ⟨teams, .int (m.linear.value (intAt ints)), outcome.status⟩ } := by
  rw [result_eq_of_rosters h hteams, Terms.reading_ofInts hvalued]
  rfl

theorem result_of_unvalued (h : outcome.GivesInts ints) (hteams : m.rosters (.ofInts ints) = .ok teams)
    {before after : Terms} {t : Int × Text} (hterms : m.linear.objective.terms = before ++ t :: after)
    (hbefore : ∀ u ∈ before, u.2 ∈ ints.map Prod.fst) (ht : t.2 ∉ ints.map Prod.fst) :
    m.result outcome = .error (.unknownVariable t.2) := by
  rw [result_eq_of_rosters h hteams, hterms, Terms.reading_eq_error hbefore ht]
  rfl

theorem result_of_misplaced {e : Fault} (h : outcome.GivesInts ints)
    (herror : m.rosters (.ofInts ints) = .error e) : m.result outcome = .error e := by
  unfold result
  rw [if_pos h.solved, h.values, herror]
  rfl

end AssignmentModel

/-! ## Models -/

namespace Request
open Compiler

variable {σ τ : Type} {backend : Backend σ τ} {r : Request} {m : AssignmentModel} {outcome : Outcome}
  {limit : Option Value} {token : Option τ} {s : Session σ} {b : σ}

theorem exists_var_of_seat (h : r.model = .ok m) {e : Person × Int}
    (he : e ∈ seats r.people m.teamCount) : ∃ x ∈ m.linear.vars, x.name = seatName e := by
  obtain ⟨nodes, compiled, c₀, ds, c, hbuilt⟩ := exists_built h
  exact (hbuilt.exists_var_iff _).2 (hbuilt.assembled.since.builder.declares (hbuilt.declares_seat he))

theorem solveModel_eq_result
    (hrun : (backend.solve m limit token).run s.backend = (.ok outcome, b)) :
    (solveModel backend m limit token).run s = (m.result outcome, { s with backend := b }) := by
  rw [run_solveModel, hrun]
  rfl

/-- **Integers for some of the variables.** If they do not put everybody in exactly one team, a missing one
counting as 0, the answer is a fault of the solver. If they do and every variable of the objective has one,
it is the solution with these rosters and the value of the objective. But the objective does not read a
missing integer as 0: where its variables lack one, the answer is the fault that the first of these
is unknown, which is not one of a solver. -/
theorem solveModel_of_ints (h : r.model = .ok m) (hints : outcome.GivesInts ints)
    (hrun : (backend.solve m limit token).run s.backend = (.ok outcome, b)) :
    ∃ answer, (solveModel backend m limit token).run s = (answer, { s with backend := b }) ∧
      (IsPlaced r.people m.teamCount ints ∧
          (∀ t ∈ m.linear.objective.terms, t.2 ∈ ints.map Prod.fst) ∧
          answer = .ok { solution := some ⟨teamsOf r.people m.teamCount (chosen (intAt ints)),
            .int (m.linear.value (intAt ints)), outcome.status⟩ } ∨
        ¬ IsPlaced r.people m.teamCount ints ∧
          (∃ fault, fault.status = Status.solverError ∧ answer = .error (.solver fault)) ∨
        IsPlaced r.people m.teamCount ints ∧ ∃ before t after,
          m.linear.objective.terms = before ++ t :: after ∧ (∀ u ∈ before, u.2 ∈ ints.map Prod.fst) ∧
          t.2 ∉ ints.map Prod.fst ∧ answer = .error (.unknownVariable t.2)) := by
  refine ⟨m.result outcome, solveModel_eq_result hrun, ?_⟩
  by_cases hplaced : IsPlaced r.people m.teamCount ints
  · have hteams := rosters_of_one h hplaced
    by_cases hvalued : ∀ t ∈ m.linear.objective.terms, t.2 ∈ ints.map Prod.fst
    · exact Or.inl ⟨hplaced, hvalued, AssignmentModel.result_of_valued hints hteams hvalued⟩
    · obtain ⟨before, t, after, hterms, hbefore, ht⟩ := exists_first_not hvalued
      exact Or.inr (Or.inr ⟨hplaced, before, t, after, hterms, hbefore, ht,
        AssignmentModel.result_of_unvalued hints hteams hterms hbefore ht⟩)
  · obtain ⟨_, p, _, -, -, -, herror⟩ := exists_misplaced h hplaced
    exact Or.inr (Or.inl ⟨hplaced, _, rfl, AssignmentModel.result_of_misplaced hints herror⟩)

/-! ## A request with one wish -/

/-- Two people in two teams, each of which had better have the first of them. -/
def wish : Request := { pair with relations := [⟨.str "r", [.ref (.person (.str "a"))], .int 3⟩] }

theorem formulas_wish : wish.formulas = .ok [annNode] := by
  refine Request.formulas_eq_ok_iff.2 ⟨⟨pair.people, [.str "a", .str "b"], ⟨[]⟩, .vacuous⟩, rfl,
    .cons ⟨_, ?_, labelled_ann⟩ .nil⟩
  with_unfolding_all rfl

theorem unambiguous_wish : wish.Unambiguous := by
  intro nodes hnodes
  cases formulas_wish.symm.trans hnodes
  decide

theorem exists_model_wish : ∃ m, wish.model = .ok m ∧ m.teamCount = 2 := by
  have hcheck : wish.check = .ok 2 := by with_unfolding_all rfl
  refine exists_model hcheck formulas_wish (by decide) (by decide) unambiguous_wish ?_
  intro node hnode id hid
  cases List.mem_singleton.1 hnode
  replace hid : id ∈ [Value.str "a"] := hid
  cases List.mem_singleton.1 hid
  exact ⟨_, List.mem_cons_self, rfl⟩

theorem objective_wish (h : wish.model = .ok m) (htwo : m.teamCount = 2) :
    m.linear.objective.terms = [(3, membershipName "a" 0), (3, membershipName "a" 1)] := by
  obtain ⟨nodes, compiled, c₀, ds, c, hbuilt⟩ := exists_built h
  cases formulas_wish.symm.trans hbuilt.formulas
  have hslots : slots m.teamCount = [0, 1] := by rw [htwo]; rfl
  have hseat : ∀ t ∈ slots m.teamCount, ∀ x,
      Stands ([annNode].flatMap Labelled.parts) c₀ ds t x (annNode.formula = ·) →
        x = membershipName "a" t := by
    rintro t ht x ⟨f, hf, hwanted⟩
    cases hwanted (unambiguous_wish _ formulas_wish)
    cases hf with
    | person hk hx =>
      have hfound := hbuilt.assembled.find?_eq hbuilt.people List.mem_cons_self ht hk
      exact Option.some.inj (hx.symm.trans hfound)
  have hstands := hbuilt.assembled.stands
  rw [hslots] at hstands hseat
  match compiled, hstands with
  | [[x, y]], .cons (.cons hx (.cons hy .nil)) .nil =>
    cases hseat 0 List.mem_cons_self x hx
    cases hseat 1 (List.mem_cons_of_mem _ List.mem_cons_self) y hy
    rw [hbuilt.eq_toModel]
    rfl

def answerOf (m : AssignmentModel) (ints : List (Text × Int)) : Except Fault Result :=
  ((solveModel (Backend.scripted [⟨Status.optimal, .ofInts ints, none⟩]) m none (none : Option Unit)).run
    ⟨{}, []⟩).1

theorem run_scripted (m : AssignmentModel) (outcome : Outcome) :
    ((Backend.scripted [outcome]).solve m none (none : Option Unit)).run {} =
      (.ok outcome, ⟨[⟨none, none⟩]⟩) := rfl

theorem givesInts_optimal (ints : List (Text × Int)) :
    Outcome.GivesInts ⟨Status.optimal, .ofInts ints, none⟩ ints := ⟨rfl, rfl, Or.inl rfl⟩

def valuesOfWish : List (Text × Int) := [("x_a_0", 1), ("x_a_1", 0), ("x_b_1", 1)]

/-- The second person needs no value for the first team. -/
theorem solveModel_of_ints_wish : ∃ m, wish.model = .ok m ∧ answerOf m valuesOfWish =
    .ok { solution := some ⟨[[.str "a"], [.str "b"]], .int 3, Status.optimal⟩ } := by
  obtain ⟨m, hm, htwo⟩ := exists_model_wish
  have hterms := objective_wish hm htwo
  have hplaced : IsPlaced wish.people m.teamCount valuesOfWish := by
    rw [htwo]
    decide
  have hvalued : ∀ t ∈ m.linear.objective.terms, t.2 ∈ valuesOfWish.map Prod.fst := by
    rw [hterms]
    decide
  obtain ⟨answer, hrun, hcases⟩ := solveModel_of_ints (s := ⟨({} : Script Unit), []⟩) hm
    (givesInts_optimal valuesOfWish) (run_scripted m _)
  have hanswer : answerOf m valuesOfWish = answer := congrArg Prod.fst hrun
  rcases hcases with ⟨-, -, h⟩ | ⟨hnot, -⟩ | ⟨-, before, t, after, hsplit, -, ht, -⟩
  · refine ⟨m, hm, hanswer.trans (h.trans ?_)⟩
    rw [LinearModel.value, hterms, htwo]
    rfl
  · exact absurd hplaced hnot
  · exact absurd (hvalued t (hsplit ▸ List.mem_append_right _ List.mem_cons_self)) ht

def onesOfWish : List (Text × Int) := [("x_a_0", 1), ("x_b_1", 1)]

/-- Values of variables of the model give rosters, but a fault that is none of a solver. -/
theorem unsolved_of_ones : ∃ m, wish.model = .ok m ∧
    (∀ e ∈ onesOfWish, ∃ x ∈ m.linear.vars, x.name = e.1) ∧
    m.rosters (.ofInts onesOfWish) = .ok [[.str "a"], [.str "b"]] ∧
    answerOf m onesOfWish = .error (.unknownVariable (membershipName "a" 1)) := by
  obtain ⟨m, hm, htwo⟩ := exists_model_wish
  have hteams : m.rosters (.ofInts onesOfWish) = .ok [[.str "a"], [.str "b"]] := by
    rw [rosters_of_one hm (by rw [htwo]; decide), htwo]
    rfl
  refine ⟨m, hm, ?_, hteams, ?_⟩
  · have hseats : ∀ e ∈ onesOfWish, e.1 ∈ (seats wish.people 2).map seatName := by decide
    intro e he
    obtain ⟨seat, hseat, hname⟩ := List.mem_map.1 (hseats e he)
    exact hname ▸ exists_var_of_seat hm (htwo ▸ hseat)
  · have hterms : m.linear.objective.terms =
        [(3, membershipName "a" 0)] ++ (3, membershipName "a" 1) :: [] := objective_wish hm htwo
    refine (congrArg Prod.fst (solveModel_eq_result (run_scripted m _))).trans ?_
    exact AssignmentModel.result_of_unvalued (givesInts_optimal onesOfWish) hteams hterms (by decide)
      (by decide)

end Request
end BalancedTeams
