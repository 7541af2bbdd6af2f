import BalancedTeams.Proofs.Model.Feasible

/-!
# Every balanced division is the rosters of one assignment

* `Built.eq_of_rosters_eq` : feasible assignments with the same rosters are the same;
* `Request.exists_unique_assignment` : balanced teams are the rosters of one assignment.
-/

namespace BalancedTeams
open Compiler

namespace Built

variable {r : Request} {m : AssignmentModel} {nodes : List Labelled} {compiled : List (List Text)}
  {c₀ c : Compiler} {ds : Circuit} {v w : Text → Int}
  (h : Built r m nodes compiled c₀ ds c)

include h

/-- Feasible assignments with the same rosters are equal on all variables. -/
theorem eq_of_rosters_eq (hv : m.linear.Feasible v) (hw : m.linear.Feasible w)
    (heq : m.rosters (m.valuesOf w) = m.rosters (m.valuesOf v)) :
    ∀ x ∈ m.linear.vars, w x.name = v x.name := by
  obtain ⟨hvbin, hvseat, hvcs⟩ := h.feasible_iff.1 hv
  obtain ⟨hwbin, hwseat, hwcs⟩ := h.feasible_iff.1 hw
  rw [h.rosters_eq hvseat, h.rosters_eq hwseat, Except.ok.injEq] at heq
  have hchosen := teamsOf_inj h.people heq
  have hseats : ∀ x, c₀.builder.declares x = true → w x = v x := by
    intro x hx
    obtain ⟨⟨p, t⟩, he, rfl⟩ := List.mem_map.1 ((h.assembled.declares_iff x).1 hx)
    have hsame := hchosen p (mem_seats.1 he).1 t (mem_seats.1 he).2
    exact (h.isBit_seat hwbin _ he).eq_of_beq (h.isBit_seat hvbin _ he) hsame
  have hwf := h.assembled.since.builder.wellFormed
  -- both assignments are the solution of the circuit for the seats they share
  have hsolve : ∀ u : Text → Int, c.IsBinary u → (∀ k ∈ ds.constraints, k.holds u = true) →
      (∀ x, c₀.builder.declares x = true → u x = v x) →
      ∀ x, c.builder.declares x = true → u x = Circuit.solve v ds x := by
    intro u hu hcs huv x hx
    exact (Circuit.holds_constraints_iff hwf (h.assembled.since.isBinary_iff.1 hu) huv).1 hcs x
      ((h.assembled.since.declares_iff x).1 hx)
  intro x hx
  have hdeclared := (h.exists_var_iff x.name).1 ⟨x, hx, rfl⟩
  rw [hsolve w hwbin hwcs hseats _ hdeclared, hsolve v hvbin hvcs (fun _ _ => rfl) _ hdeclared]

end Built

/-- **Balanced teams are the rosters of exactly one feasible assignment**, whatever the relations: it
gives all variables of the model their values, and the rosters list each team in the order of the
people. -/
theorem Request.exists_unique_assignment {r : Request} {m : AssignmentModel} {teams : List Roster}
    (h : r.model = .ok m) (hteams : IsBalanced (r.people.map Person.id) m.teamCount teams) :
    (∀ team ∈ teams, ((listed (r.people.map Person.id) team).map Value.key?).Perm
        (team.map Value.key?)) ∧
    ∃ v, (m.linear.Feasible v ∧
        m.rosters (m.valuesOf v) = .ok (teams.map (listed (r.people.map Person.id)))) ∧
      ∀ w, m.linear.Feasible w →
        m.rosters (m.valuesOf w) = .ok (teams.map (listed (r.people.map Person.id))) →
        ∀ x ∈ m.linear.vars, w x.name = v x.name := by
  obtain ⟨nodes, compiled, c₀, ds, c, hbuilt⟩ := exists_built h
  have hseating := hteams.isSeating hbuilt.people hbuilt.pos
  obtain ⟨v, hv, hagree⟩ := hbuilt.exists_feasible hseating
  have hrosters : m.rosters (m.valuesOf v) = .ok (teams.map (listed (r.people.map Person.id))) := by
    rw [hbuilt.rosters_eq (hbuilt.feasible_iff.1 hv).2.1, ← teamsOf_congr hagree,
      hteams.teamsOf_isIn]
  refine ⟨fun team hteam => hteams.listed_perm hbuilt.people hteam, v, ⟨hv, hrosters⟩, ?_⟩
  exact fun w hw heq => hbuilt.eq_of_rosters_eq hv hw (heq.trans hrosters.symm)

/-- The second person in the first team. -/
theorem Request.exists_unique_assignment_pair :
    ∃ m, pair.model = .ok m ∧ ∃ v,
      (m.linear.Feasible v ∧ m.rosters (m.valuesOf v) = .ok [[.str "b"], [.str "a"]]) ∧
      ∀ w, m.linear.Feasible w → m.rosters (m.valuesOf w) = .ok [[.str "b"], [.str "a"]] →
        ∀ x ∈ m.linear.vars, w x.name = v x.name := by
  obtain ⟨m, hm, hcount⟩ := exists_model_pair
  have hteams := hcount ▸ isBalanced_pair
  exact ⟨m, hm, (exists_unique_assignment hm hteams).2⟩

end BalancedTeams
