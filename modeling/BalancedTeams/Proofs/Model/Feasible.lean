import BalancedTeams.Proofs.Model.Existence
import BalancedTeams.Proofs.Model.Placement

/-!
# The feasible assignments of a model

* `seatValue` : the membership variables of a choice of teams;
* `Built` : a model with all that it was built from (`Request.exists_built`);
* `Built.feasible_iff` : an assignment is feasible if it is binary, seats everybody, and solves the
  circuit;
* `Built.rosters_eq` : the rosters of an assignment that seats everybody;
* `Built.exists_feasible` : every choice that seats everybody is that of a feasible assignment.
-/

namespace BalancedTeams
open Compiler

/-! ## Assignments from choices -/

/-- The values of membership variables for a choice of teams. -/
def seatValue (seats : List (Person × Int)) (chosen : Person → Int → Bool) (x : Text) : Int :=
  if seats.any (fun e => seatName e == x && chosen e.1 e.2) then 1 else 0

theorem isBit_seatValue (seats : List (Person × Int)) (chosen : Person → Int → Bool) (x : Text) :
    IsBit (seatValue seats chosen x) := by
  unfold seatValue
  split
  · exact Or.inr rfl
  · exact Or.inl rfl

theorem chosen_seatValue {seats : List (Person × Int)} (choice : Person → Int → Bool)
    (hnodup : (seats.map seatName).Nodup) {p : Person} {t : Int} (he : (p, t) ∈ seats) :
    chosen (seatValue seats choice) p t = choice p t := by
  have hany : seats.any (fun f => seatName f == seatName (p, t) && choice f.1 f.2) = choice p t := by
    rw [Bool.eq_iff_iff, List.any_eq_true]
    constructor
    · rintro ⟨f, hf, hboth⟩
      rw [Bool.and_eq_true, beq_iff_eq] at hboth
      cases List.inj_on_of_nodup_map hnodup hf he hboth.1
      exact hboth.2
    · intro hchoice
      exact ⟨(p, t), he, by rw [beq_self_eq_true, Bool.true_and, hchoice]⟩
  rw [chosen, seatValue, hany]
  cases choice p t <;> rfl

/-! ## Models -/

/-- The model of a request, with its formulas, their variables, the compiler before and after they
were compiled, and the circuit that was recorded then. -/
structure Built (r : Request) (m : AssignmentModel) (nodes : List Labelled)
    (compiled : List (List Text)) (c₀ : Compiler) (ds : Circuit) (c : Compiler) : Prop where
  formulas : r.formulas = .ok nodes
  count : r.teamCount = .int m.teamCount
  pos : 0 < m.teamCount
  le : m.teamCount ≤ r.people.length
  people : DistinctKeys (r.people.map Person.id)
  relations : DistinctKeys (r.relations.map Relation.id)
  priorities : ∀ rel ∈ r.relations, isPriority rel.priority = true
  assembled : Assembled r.people m.teamCount nodes compiled c₀ ds c
  eq_toModel : m = c.toModel ⟨objectiveTerms r.relations compiled, "maximize"⟩
    (r.people.map Person.id) m.teamCount ((r.relations.map Relation.id).zip compiled)

theorem Request.exists_built {r : Request} {m : AssignmentModel} (h : r.model = .ok m) :
    ∃ nodes compiled c₀ ds c, Built r m nodes compiled c₀ ds c := by
  obtain ⟨n, nodes, compiled, c, hcheck, hnodes, hrun, rfl⟩ := Request.model_eq_ok_iff.1 h
  obtain ⟨hcount, hn, hpeople, hrelations, hpriorities⟩ := Request.check_eq_ok_iff.1 hcheck
  obtain ⟨c₀, ds, hassembled⟩ := exists_assembled hrun
  exact ⟨nodes, compiled, c₀, ds, c, hnodes, hcount, hn.1, hn.2, hpeople, hrelations,
    hpriorities, hassembled, rfl⟩

namespace Built

variable {r : Request} {m : AssignmentModel} {nodes : List Labelled} {compiled : List (List Text)}
  {c₀ c : Compiler} {ds : Circuit} {v : Text → Int} {choice : Person → Int → Bool}
  (h : Built r m nodes compiled c₀ ds c)

include h

theorem vars_eq : m.linear.vars = c.builder.vars.toList := by rw [h.eq_toModel]; rfl

theorem constraints_eq : m.linear.constraints = c.builder.constraints.toList := by
  rw [h.eq_toModel]
  rfl

theorem personIds_eq : m.personIds = r.people.map Person.id := by rw [h.eq_toModel]; rfl

theorem memberships_eq : m.memberships = c₀.memberships := by
  rw [h.eq_toModel]
  exact h.assembled.since.memberships

theorem satisfaction_eq : m.satisfaction = (r.relations.map Relation.id).zip compiled := by
  rw [h.eq_toModel]
  rfl

theorem value_eq : m.linear.value v = Terms.value v (objectiveTerms r.relations compiled) := by
  rw [h.eq_toModel]
  rfl

theorem bounds {x : Variable} (hx : x ∈ m.linear.vars) : x.low = 0 ∧ x.high = 1 := by
  rw [h.vars_eq, h.assembled.since.builder.vars, h.assembled.vars, List.mem_append] at hx
  rcases hx with hx | hx
  all_goals
    obtain ⟨_, -, rfl⟩ := List.mem_map.1 hx
    exact ⟨rfl, rfl⟩

theorem exists_var_iff (x : Text) : (∃ y ∈ m.linear.vars, y.name = x) ↔ c.builder.declares x = true := by
  rw [h.vars_eq, Builder.declares_iff]

theorem declares_seat {e : Person × Int} (he : e ∈ seats r.people m.teamCount) :
    c₀.builder.declares (seatName e) = true :=
  (h.assembled.declares_iff _).2 (List.mem_map_of_mem he)

theorem isBit_seat (hv : c.IsBinary v) : ∀ e ∈ seats r.people m.teamCount, IsBit (v (seatName e)) :=
  fun _ he => hv _ (h.assembled.since.builder.declares (h.declares_seat he))

/-- An assignment is feasible if it is binary, seats everybody, and solves the circuit. -/
theorem feasible_iff : m.linear.Feasible v ↔ c.IsBinary v ∧
    IsSeating r.people m.teamCount (chosen v) ∧ ∀ k ∈ ds.constraints, k.holds v = true := by
  have hbinary : (∀ x ∈ m.linear.vars, x.low ≤ v x.name ∧ v x.name ≤ x.high) ↔ c.IsBinary v := by
    constructor
    · intro hbounds x hx
      obtain ⟨y, hy, rfl⟩ := (h.exists_var_iff x).2 hx
      have := hbounds y hy
      rw [(h.bounds hy).1, (h.bounds hy).2] at this
      exact isBit_iff.2 this
    · intro hv x hx
      rw [(h.bounds hx).1, (h.bounds hx).2]
      exact isBit_iff.1 (hv _ ((h.exists_var_iff _).1 ⟨x, hx, rfl⟩))
  rw [LinearModel.Feasible, hbinary, h.constraints_eq, h.assembled.since.builder.constraints,
    h.assembled.constraints]
  refine and_congr_right fun hv => ?_
  rw [List.forall_mem_append, holds_iff_isSeating (h.isBit_seat hv)]

theorem isChosen_eq {p : Person} {t : Int} (hp : p ∈ r.people) (ht : t ∈ slots m.teamCount) :
    m.isChosen (m.valuesOf v) p.id t = .ok (chosen v p t) := by
  obtain ⟨k, hk⟩ := Option.isSome_iff_exists.1 (h.people.keyed_map p hp)
  refine AssignmentModel.isChosen_valuesOf hk ?_ ?_
  · rw [h.memberships_eq]
    exact h.assembled.find?_eq h.people hp ht hk
  · rw [h.exists_var_iff]
    exact h.assembled.since.builder.declares (h.declares_seat (mem_seats.2 ⟨hp, ht⟩))

theorem rosters_eq (hv : IsSeating r.people m.teamCount (chosen v)) :
    m.rosters (m.valuesOf v) = .ok (teamsOf r.people m.teamCount (chosen v)) :=
  AssignmentModel.rosters_eq h.personIds_eq (fun _ hp _ ht => h.isChosen_eq hp ht)
    fun _ hp => hv.exists_filter_eq hp

/-- A choice that seats everybody is that of a feasible assignment, whatever the relations: the
membership variables are given, and the circuit is solved. -/
theorem exists_feasible (hchoice : IsSeating r.people m.teamCount choice) :
    ∃ v, m.linear.Feasible v ∧
      ∀ p ∈ r.people, ∀ t ∈ slots m.teamCount, choice p t = chosen v p t := by
  obtain ⟨v, ⟨hv₀, hbits, hcs⟩, -⟩ := Circuit.exists_unique_extension
    h.assembled.since.builder.wellFormed fun x _ => isBit_seatValue (seats r.people m.teamCount) choice x
  have hagree : ∀ p ∈ r.people, ∀ t ∈ slots m.teamCount, choice p t = chosen v p t := by
    intro p hp t ht
    have he : (p, t) ∈ seats r.people m.teamCount := mem_seats.2 ⟨hp, ht⟩
    rw [← chosen_seatValue choice h.assembled.nodup he, chosen, chosen, hv₀ _ (h.declares_seat he)]
  exact ⟨v, h.feasible_iff.2 ⟨h.assembled.since.isBinary_iff.2 hbits, hchoice.congr hagree, hcs⟩,
    hagree⟩

end Built

theorem Request.isBalanced_pair :
    IsBalanced (pair.people.map Person.id) 2 [[.str "b"], [.str "a"]] :=
  ⟨rfl, by decide +kernel, by decide +kernel⟩

end BalancedTeams
