import BalancedTeams.Proofs.Compile.Census
import BalancedTeams.Proofs.Compile.History
import BalancedTeams.Proofs.Model.WellFormed
import Mathlib.Tactic.Ring

/-!
# How large a model is

* `Compiler.prepare` : an assembly before the formulas are compiled (`Compiler.yields_assemble_iff`);
* `Request.exists_settled` : a model is prepared and then has the formulas settled;
* `Compiler.length_census`, `Compiler.sum_census` : the numbers of variables and of constraints that the
  census counts;
* `Request.model_size` : the size of every model; `Request.shared` has one with shared parts.
-/

namespace BalancedTeams
namespace Compiler
open Labelled

variable {people : List Person} {teams : Nat} {nodes : List Labelled} {vars : List (List Text)}
  {c c₀ c' : Compiler} {ds : Circuit}

/-! ## Assemblies in two steps -/

/-- The part of an assembly that does not depend on the formulas. -/
def prepare (people : List Person) (teams : Nat) : CompileM Unit := do
  let ids ← declareMemberships people teams
  balanceTeams ids teams
  placeEveryone ids teams

theorem yields_assemble_iff : Yields (assemble people teams nodes) c vars c' ↔
    ∃ d, Yields (prepare people teams) c () d ∧ Yields (compileAll teams nodes) d vars c' := by
  have hsplit : assemble people teams nodes =
      prepare people teams >>= fun _ => compileAll teams nodes := by
    simp only [assemble, prepare, bind_assoc]
  rw [hsplit, yields_bind_iff]
  exact ⟨fun ⟨_, d, hd, h⟩ => ⟨d, hd, h⟩, fun ⟨d, hd, h⟩ => ⟨(), d, hd, h⟩⟩

theorem prepared_of_yields_prepare {u : Unit} (h : Yields (prepare people teams) .empty u c) :
    Prepared people teams c := by
  obtain ⟨ids, d, hids, hrest⟩ := yields_bind_iff.1 h
  obtain ⟨_, e, hsizes, hplaces⟩ := yields_bind_iff.1 hrest
  exact prepared_of_yields hids hsizes hplaces

theorem isReserved_membershipName (p : Text) (slot : Int) : isReserved (membershipName p slot) = false := by
  have htrue : (membershipName p slot == trueName) = false := by
    rw [beq_eq_false_iff_ne]
    exact membershipName_ne_trueName p slot
  have hprefix : (Text.ofString "n_").isPrefixOf (membershipName p slot) = false := by
    rw [← Bool.not_eq_true, List.isPrefixOf_iff_prefix]
    rintro ⟨rest, hrest⟩
    simp [membershipName, Text.ofString] at hrest
  rw [isReserved, htrue, hprefix, Bool.false_or]

/-- Before any formula is compiled, nothing is defined. -/
theorem Prepared.consistent (h : Prepared people teams c) (nodes : List Labelled) :
    Consistent nodes c c [] := by
  refine .start h.memo h.isGrounded fun x hx => ?_
  obtain ⟨e, -, rfl⟩ := List.mem_map.1 ((h.declares_iff x).1 hx)
  exact isReserved_membershipName _ _

/-! ## Lengths -/

theorem length_seats (people : List Person) (teams : Nat) :
    (seats people teams).length = people.length * teams := by
  simp only [seats, List.length_flatMap, List.length_map, length_slots, List.map_const',
    List.sum_replicate_nat]

theorem length_sizeConstraints (people : List Text) (teams : Nat) (slots : List Int) :
    (sizeConstraints people teams slots).length = 2 * slots.length := by
  simp only [sizeConstraints, List.length_flatMap, List.length_cons, List.length_nil, List.map_const',
    List.sum_replicate_nat]
  ring

theorem length_placeConstraints (teams : Nat) (people : List Text) :
    (placeConstraints teams people).length = people.length := List.length_map _

theorem length_indicators (labels : List String) (teams rows : Nat) :
    (indicators labels teams rows).length = labels.length * teams := by
  simp only [indicators, List.length_flatMap, List.length_map, length_slots, List.map_const',
    List.sum_replicate_nat]

theorem sum_indicators (labels : List String) (teams rows : Nat) :
    ((indicators labels teams rows).map Prod.snd).sum = labels.length * teams * rows := by
  have hrows : ∀ e ∈ indicators labels teams rows, e.2 = rows := fun e he => (mem_indicators.1 he).1
  rw [List.map_congr_left hrows, List.map_const', List.sum_replicate_nat, length_indicators]

theorem length_pinned (nodes : List Labelled) :
    (pinned nodes).length = if (nodes.flatMap parts).any isAlways then 1 else 0 := by
  rw [pinned, apply_ite List.length]
  rfl

theorem length_census (nodes : List Labelled) (teams : Nat) : (census nodes teams).length =
    teams * ((labelsOf isBinary nodes).length + (labelsOf isNegation nodes).length) +
      (if (nodes.flatMap parts).any isAlways then 1 else 0) := by
  simp only [census, List.length_append, length_pinned, length_indicators]
  ring

theorem sum_pinned (nodes : List Labelled) : ((pinned nodes).map Prod.snd).sum = (pinned nodes).length := by
  unfold pinned
  split
  · rfl
  · rfl

/-- The number of constraints that the census counts. -/
theorem sum_census (nodes : List Labelled) (teams : Nat) : ((census nodes teams).map Prod.snd).sum =
    teams * (3 * (labelsOf isBinary nodes).length + (labelsOf isNegation nodes).length) +
      (if (nodes.flatMap parts).any isAlways then 1 else 0) := by
  simp only [census, List.map_append, List.sum_append, sum_pinned, length_pinned, sum_indicators]
  ring

theorem length_constraints (ds : Circuit) :
    ds.constraints.length = (ds.map fun d => (d.2.constraints d.1).length).sum := List.length_flatMap

theorem Assembled.length_compiled (h : Assembled people teams nodes vars c₀ ds c) :
    ∀ xs ∈ vars, xs.length = teams := by
  intro xs hxs
  obtain ⟨node, -, hstands⟩ := exists_of_mem_right h.stands hxs
  rw [← hstands.length_eq, length_slots]

end Compiler

theorem length_objectiveTerms {relations : List Relation} {compiled : List (List Text)} {n : Nat}
    (h : relations.length = compiled.length) (hlength : ∀ xs ∈ compiled, xs.length = n) :
    (objectiveTerms relations compiled).length = relations.length * n := by
  have heach : ∀ rv ∈ relations.zip compiled, (rv.2.map fun x => (rv.1.weight, x)).length = n :=
    fun rv hrv => (List.length_map _).trans (hlength rv.2 (List.of_mem_zip hrv).2)
  rw [objectiveTerms, List.length_flatMap, List.map_congr_left heach, List.map_const',
    List.sum_replicate_nat, List.length_zip, ← h, Nat.min_self]

/-! ## Models -/

namespace Request
open Compiler Labelled

variable {r : Request} {m : AssignmentModel}

theorem identified_of_formulas {nodes : List Labelled} (h : r.formulas = .ok nodes)
    (hlabels : r.Unambiguous) : Identified nodes := by
  refine (hlabels nodes h).identified fun node hnode => ?_
  obtain ⟨ctx, -, hall⟩ := formulas_eq_ok_iff.1 h
  obtain ⟨rel, -, f, -, hf⟩ := exists_of_mem_right hall hnode
  rw [Formula.formula_of_labelled hf]
  exact hf

/-- A model is what was prepared, and then every formula settled on every team. -/
theorem exists_settled (h : r.model = .ok m) (hlabels : r.Unambiguous) :
    ∃ nodes c₀ c, r.formulas = .ok nodes ∧ Prepared r.people m.teamCount c₀ ∧
      Settles nodes c₀ c₀ [] (tasks nodes m.teamCount) c ∧
      m.linear.vars = c.builder.vars.toList ∧ m.linear.constraints = c.builder.constraints.toList := by
  obtain ⟨n, nodes, vars, c, -, hnodes, hrun, rfl⟩ := model_eq_ok_iff.1 h
  obtain ⟨c₀, hprepare, hcompile⟩ := yields_assemble_iff.1 hrun
  have hprepared := prepared_of_yields_prepare hprepare
  exact ⟨nodes, c₀, c, hnodes, hprepared, settles_of_yields_compileAll (hprepared.consistent nodes)
    (identified_of_formulas hnodes hlabels) (List.Subset.refl _) hcompile, rfl, rfl⟩

/-- **Every part of the relations is compiled once for each team.** The model of a request has a variable
for every person and team, one for every label of a compound part and team, and possibly one that is
pinned; two constraints for every team, one for every person, and three or one for every indicator; and
every relation counts for every team. -/
theorem model_size (h : r.model = .ok m) (hlabels : r.Unambiguous) :
    ∃ (nodes : List Labelled) (teams : Nat), r.formulas = .ok nodes ∧ r.teamCount = .int teams ∧
      m.linear.vars.length = r.people.length * teams + teams *
        ((labelsOf isBinary nodes).length + (labelsOf isNegation nodes).length) +
          (if (nodes.flatMap parts).any isAlways then 1 else 0) ∧
      (m.linear.vars.map Variable.name).Nodup ∧
      m.linear.constraints.length = 2 * teams + r.people.length + teams *
        (3 * (labelsOf isBinary nodes).length + (labelsOf isNegation nodes).length) +
          (if (nodes.flatMap parts).any isAlways then 1 else 0) ∧
      m.linear.objective.terms.length = teams * r.relations.length := by
  obtain ⟨nodes, compiled, d₀, ds, d, hbuilt⟩ := exists_built h
  obtain ⟨nodes', c₀, c, hnodes, hprepared, hsettles, hvars, hconstraints⟩ := exists_settled h hlabels
  cases hnodes.symm.trans hbuilt.formulas
  obtain ⟨es, hextends, hperm⟩ := hsettles.perm_census (identified_of_formulas hnodes hlabels) hbuilt.pos
  have hdefined : es.length = (census nodes m.teamCount).length := by
    rw [← hperm.length_eq, List.length_map]
  have hrows : es.constraints.length = ((census nodes m.teamCount).map Prod.snd).sum := by
    rw [length_constraints, ← (hperm.map Prod.snd).sum_eq, List.map_map]
    rfl
  refine ⟨nodes, m.teamCount, hnodes, hbuilt.count, ?_, (isWellFormed_of_model h).nodup, ?_, ?_⟩
  · rw [hvars, hextends.vars, hprepared.vars, Circuit.names]
    simp only [List.length_append, List.length_map, length_seats, hdefined, length_census]
    ring
  · rw [hconstraints, hextends.constraints, hprepared.constraints]
    simp only [List.length_append, length_sizeConstraints, length_placeConstraints, length_slots,
      List.length_map, hrows, sum_census]
    ring
  · have hlength : r.relations.length = compiled.length := by
      obtain ⟨ctx, -, hall⟩ := formulas_eq_ok_iff.1 hnodes
      rw [hall.length_eq, hbuilt.assembled.stands.length_eq]
    rw [hbuilt.objective_eq, length_objectiveTerms hlength hbuilt.assembled.length_compiled, Nat.mul_comm]

/-! ## A request with shared parts -/

/-- Two people who are to be together in a team, to be apart, and a tag that nobody has. -/
def shared : Request where
  people := [⟨.str "a", .str "Ann", []⟩, ⟨.str "b", .str "Bob", []⟩]
  tags := [⟨.str "t", .str "tall"⟩]
  relations :=
    let together : List Entry := [.ref (.person (.str "a")), .text " AND ", .ref (.person (.str "b"))]
    [⟨.str "r", together, .int 3⟩, ⟨.str "s", [.text "NOT ("] ++ together ++ [.text ")"], .int 1⟩,
      ⟨.str "u", [.ref (.tag (.str "t"))], .int 1⟩]
  teamCount := .int 2

def bothNode : Labelled := .and "6001cd0e97a4a5e5" annNode (.person "bd444afb8cc26b2f" (.str "b"))

def both : Formula := .and (.person (.str "a")) (.person (.str "b"))

theorem labelled_both : both.labelled = .ok bothNode := by
  have hbob : Formula.labelOf "PERSON" ["b"] = "bd444afb8cc26b2f" := by decide +kernel
  have hboth : Formula.labelOf "AND" [annNode.label, "bd444afb8cc26b2f"] = bothNode.label := by
    decide +kernel
  rw [both, Formula.labelled, labelled_ann]
  show Except.ok (Labelled.and (Formula.labelOf "AND" [annNode.label, Formula.labelOf "PERSON" ["b"]])
    annNode (.person (Formula.labelOf "PERSON" ["b"]) (.str "b"))) = _
  rw [hbob, hboth]
  rfl

def sharedNodes : List Labelled :=
  [bothNode, .not "0262b4c1d5707f6e" bothNode, .always "fddf1df7c30cac79"]

theorem formulas_shared : shared.formulas = .ok sharedNodes := by
  have hnot : Formula.labelOf "NOT" [bothNode.label] = "0262b4c1d5707f6e" := by decide +kernel
  have halways : Formula.labelOf "TRUE" [] = "fddf1df7c30cac79" := by decide +kernel
  refine formulas_eq_ok_iff.2 ⟨⟨shared.people, [.str "a", .str "b"],
    ⟨[(.str "t", ⟨.str "t", .str "tall"⟩)]⟩, .vacuous⟩, rfl,
    .cons ⟨both, ?_, labelled_both⟩ (.cons ⟨.not both, ?_, ?_⟩ (.cons ⟨.always, ?_, ?_⟩ .nil))⟩
  · with_unfolding_all rfl
  · with_unfolding_all rfl
  · rw [Formula.labelled, labelled_both]
    exact congrArg (fun l => Except.ok (Labelled.not l bothNode)) hnot
  · with_unfolding_all rfl
  · exact congrArg (fun l => Except.ok (Labelled.always l)) halways

theorem unambiguous_shared : shared.Unambiguous := by
  intro nodes hnodes
  cases formulas_shared.symm.trans hnodes
  decide

theorem exists_model_shared : ∃ m, shared.model = .ok m ∧ m.teamCount = 2 := by
  have hcheck : shared.check = .ok 2 := by with_unfolding_all rfl
  refine exists_model hcheck formulas_shared (by decide) (by decide) unambiguous_shared ?_
  decide

theorem model_size_shared : ∃ m, shared.model = .ok m ∧ m.linear.vars.length = 9 ∧
    (m.linear.vars.map Variable.name).Nodup ∧ m.linear.constraints.length = 15 ∧
    m.linear.objective.terms.length = 6 := by
  obtain ⟨m, hm, -⟩ := exists_model_shared
  obtain ⟨nodes, teams, hnodes, hteams, hvars, hnames, hconstraints, hterms⟩ :=
    model_size hm unambiguous_shared
  cases formulas_shared.symm.trans hnodes
  have htwo : (2 : Int) = teams := Scalar.int.inj (Value.scalar.inj hteams)
  obtain rfl : teams = 2 := by omega
  exact ⟨m, hm, hvars, hnames, hconstraints, hterms⟩

end Request
end BalancedTeams
