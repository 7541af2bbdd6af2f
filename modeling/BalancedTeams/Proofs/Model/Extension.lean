import BalancedTeams.Proofs.Model.Size

/-!
# One relation more

* `Compiler.yields_compileAll_append_iff` : formulas are compiled after others as if there were nothing
  before;
* `Compiler.Settles.nothing_missing`, `Compiler.Settles.nothing_defined` : what is settled needs no more
  variables, and gets none;
* `Request.withRelation` : a request with one more relation;
* `Request.model_withRelation` : its model is that of the request, possibly with more at the end.
-/

namespace BalancedTeams
namespace Compiler
open Labelled

variable {α β : Type} {nodes more : List Labelled} {node : Labelled} {teams : Nat} {t : Int}
  {c₀ c c' : Compiler} {ds : Circuit} {x : Text} {vars : List (List Text)}

/-! ## Formulas after others -/

theorem Yields.length_mapM {f : α → CompileM β} {xs : List α} {ys : List β}
    (h : Yields (xs.mapM f) c ys c') : ys.length = xs.length := by
  refine h.mapM_induction (I := fun done results _ => results.length = done.length) ?_ rfl
  intro done results x y d d' _ hlength _
  simp only [List.length_append, hlength, List.length_singleton]

theorem yields_compileAll_append_iff : Yields (compileAll teams (nodes ++ more)) c vars c' ↔
    ∃ us d ws, Yields (compileAll teams nodes) c us d ∧ Yields (compileAll teams more) d ws c' ∧
      vars = us ++ ws := by
  rw [compileAll, List.mapM_append, yields_bind_iff]
  simp only [yields_bind_iff, yields_pure_iff]
  constructor
  · rintro ⟨us, d, hus, ws, e, hws, rfl, rfl⟩
    exact ⟨us, d, ws, hus, hws, rfl⟩
  · rintro ⟨us, d, ws, hus, hws, rfl⟩
    exact ⟨us, d, hus, ws, c', hws, rfl, rfl⟩

theorem exists_of_yields_compileAll_singleton (h : Yields (compileAll teams [node]) c vars c') :
    ∃ xs, vars = [xs] ∧ xs.length = teams := by
  rw [compileAll, List.mapM_cons] at h
  obtain ⟨xs, d, hxs, hrest⟩ := yields_bind_iff.1 h
  obtain ⟨ys, e, hys, hvars⟩ := yields_bind_iff.1 hrest
  obtain ⟨rfl, rfl⟩ := yields_pure_iff.1 hys
  obtain ⟨rfl, rfl⟩ := yields_pure_iff.1 hvars
  exact ⟨xs, rfl, hxs.length_mapM.trans (length_slots teams)⟩

/-- A formula whose compound parts are settled needs no variables. -/
theorem Settles.nothing_missing {known : List Labelled}
    (h : Settles known c₀ c₀ [] (tasks nodes teams) c) (hsame : Identified known)
    (hnodes : nodes ⊆ known)
    (hparts : ∀ part ∈ node.parts, (∃ l id, part = .person l id) ∨ part ∈ nodes.flatMap parts)
    (ht : t ∈ slots teams) : ¬ c.Missing t node x := by
  rintro ⟨part, hpart, hown, hnone⟩
  obtain ⟨es, hgrows, hdone⟩ := h
  rcases hparts part hpart with ⟨l, id, rfl⟩ | hknown
  · cases hown
  · obtain ⟨other, hother, hpart⟩ := List.mem_flatMap.1 hknown
    obtain ⟨y, hy⟩ := hdone (other, t) (mem_tasks.2 ⟨hother, ht⟩)
    obtain ⟨z, hz⟩ :=
      hgrows.consistent.var?_of_parts hsame (parts_subset_flatMap (hnodes hother)) hy part hpart
    rw [hnone] at hz
    cases hz

/-- Nothing is defined for it. -/
theorem Settles.nothing_defined {known : List Labelled} {es : Circuit}
    (h : Settles known c₀ c₀ [] (tasks nodes teams) c) (hsame : Identified known)
    (hnodes : nodes ⊆ known)
    (hparts : ∀ part ∈ node.parts, (∃ l id, part = .person l id) ∨ part ∈ nodes.flatMap parts)
    (hgrows : Grows known c₀ c ds (fun x => ∃ e ∈ tasks [node] teams, c.Missing e.2 e.1 x) es c') :
    es = [] := by
  refine List.eq_nil_iff_forall_not_mem.2 fun d hd => ?_
  obtain ⟨⟨other, t⟩, htask, hmissing⟩ := hgrows.missing d.1 (List.mem_map_of_mem hd)
  obtain ⟨hother, ht⟩ := mem_tasks.1 htask
  cases List.mem_singleton.1 hother
  exact h.nothing_missing hsame hnodes hparts ht hmissing

end Compiler

/-! ## Requests -/

theorem DistinctKeys.of_append {ids ids' : List Value} (h : DistinctKeys (ids ++ ids')) :
    DistinctKeys ids where
  keyed id hid := h.keyed id (List.mem_append_left _ hid)
  nodup := by
    have hnodup := h.nodup
    rw [List.map_append] at hnodup
    exact (List.nodup_append'.1 hnodup).1

namespace Request
open Compiler Labelled

variable {r : Request} {rel : Relation} {m : AssignmentModel}

/-- The request with one more relation, after all others. -/
def withRelation (r : Request) (rel : Relation) : Request :=
  { r with relations := r.relations ++ [rel] }

theorem check_of_withRelation {n : Nat} (h : (r.withRelation rel).check = .ok n) : r.check = .ok n := by
  obtain ⟨hcount, hn, hpeople, hrelations, hpriorities⟩ := check_eq_ok_iff.1 h
  rw [withRelation, List.map_append] at hrelations
  exact check_eq_ok_iff.2 ⟨hcount, hn, hpeople, hrelations.of_append,
    fun other hother => hpriorities other (List.mem_append_left _ hother)⟩

theorem formulas_of_withRelation {nodes : List Labelled}
    (h : (r.withRelation rel).formulas = .ok nodes) :
    ∃ before node, r.formulas = .ok before ∧ nodes = before ++ [node] := by
  obtain ⟨ctx, hctx, hall⟩ := formulas_eq_ok_iff.1 h
  obtain ⟨before, last, rfl, hbefore, hlast⟩ := exists_append_of_forall₂ hall
  obtain ⟨node, rfl⟩ := List.length_eq_one_iff.1 hlast.length_eq.symm
  exact ⟨before, node, formulas_eq_ok_iff.2 ⟨ctx, hctx, hbefore⟩, rfl⟩

theorem length_formulas {nodes : List Labelled} (h : r.formulas = .ok nodes) :
    nodes.length = r.relations.length := by
  obtain ⟨ctx, -, hall⟩ := formulas_eq_ok_iff.1 h
  exact hall.length_eq.symm

/-- **One more relation only extends the model.** If the request with the relation has a model, it has
one without, whose variables and constraints the larger one begins with; what is added to the objective
and the relations are the variables of the relation on the teams; and if every compound part of the
relation occurs in the others, there are no other variables or constraints. -/
theorem model_withRelation {m' : AssignmentModel} (h : (r.withRelation rel).model = .ok m')
    (hlabels : (r.withRelation rel).Unambiguous) :
    ∃ m nodes node xs, r.model = .ok m ∧ r.formulas = .ok nodes ∧
      (r.withRelation rel).formulas = .ok (nodes ++ [node]) ∧
      m.linear.vars <+: m'.linear.vars ∧ m.linear.constraints <+: m'.linear.constraints ∧
      xs.length = m.teamCount ∧
      m'.linear.objective =
        ⟨m.linear.objective.terms ++ xs.map (rel.weight, ·), m.linear.objective.sense⟩ ∧
      m'.satisfaction = m.satisfaction ++ [(rel.id, xs)] ∧
      (m'.personIds = m.personIds ∧ m'.teamCount = m.teamCount ∧ m'.memberships = m.memberships) ∧
      ((∀ part ∈ node.parts, (∃ l id, part = .person l id) ∨ part ∈ nodes.flatMap parts) →
        m'.linear.vars = m.linear.vars ∧ m'.linear.constraints = m.linear.constraints) := by
  obtain ⟨n, all, vars, c', hcheck, hall, hrun, rfl⟩ := model_eq_ok_iff.1 h
  obtain ⟨nodes, node, hnodes, rfl⟩ := formulas_of_withRelation hall
  obtain ⟨c₀, hprepare, hcompile⟩ := yields_assemble_iff.1 hrun
  obtain ⟨us, c, ws, hus, hws, rfl⟩ := yields_compileAll_append_iff.1 hcompile
  obtain ⟨xs, rfl, hxs⟩ := exists_of_yields_compileAll_singleton hws
  have hsame := identified_of_formulas hall hlabels
  have hsettles := settles_of_yields_compileAll
    ((prepared_of_yields_prepare hprepare).consistent (nodes ++ [node])) hsame
    (List.subset_append_left _ _) hus
  obtain ⟨es, hgrows, -⟩ := id hsettles
  obtain ⟨fs, hgrows', -⟩ := settles_of_yields_compileAll hgrows.consistent hsame
    (List.subset_append_right _ _) hws
  have hvars := hgrows'.builder.vars
  have hconstraints := hgrows'.builder.constraints
  have hlength : r.relations.length = us.length :=
    (length_formulas hnodes).symm.trans hus.length_mapM.symm
  refine ⟨_, nodes, node, xs, model_eq_ok_iff.2 ⟨n, nodes, us, c, check_of_withRelation hcheck, hnodes,
    yields_assemble_iff.2 ⟨c₀, hprepare, hus⟩, rfl⟩, hnodes, hall, ⟨_, hvars.symm⟩,
    ⟨_, hconstraints.symm⟩, hxs, ?_, ?_, ⟨rfl, rfl, hgrows'.keeps.memberships⟩, fun hparts => ?_⟩
  · show (⟨objectiveTerms (r.relations ++ [rel]) (us ++ [xs]), _⟩ : Objective) = _
    rw [objectiveTerms, List.zip_append hlength, List.flatMap_append, List.zip_cons_cons, List.zip_nil_left,
      List.flatMap_singleton]
    rfl
  · show ((r.relations ++ [rel]).map Relation.id).zip (us ++ [xs]) = _
    rw [List.map_append, List.zip_append ((List.length_map _).trans hlength)]
    rfl
  · obtain rfl := hsettles.nothing_defined hsame (List.subset_append_left _ _) hparts hgrows'
    exact ⟨hvars.trans (List.append_nil _), hconstraints.trans (List.append_nil _)⟩

def again : Relation := ⟨.str "s", [.text "NOT ", .ref (.person (.str "a"))], .int 1⟩

theorem formulas_again : (pair.withRelation again).formulas = .ok [notAnnNode, notAnnNode] := by
  obtain ⟨ctx, hctx, hall⟩ := formulas_eq_ok_iff.1 formulas_pair
  cases hall with
  | cons hnode hrest => exact formulas_eq_ok_iff.2 ⟨ctx, hctx, .cons hnode (.cons hnode .nil)⟩

theorem unambiguous_again : (pair.withRelation again).Unambiguous := by
  intro nodes hnodes
  cases formulas_again.symm.trans hnodes
  decide

theorem exists_model_again : ∃ m, (pair.withRelation again).model = .ok m ∧ m.teamCount = 2 := by
  have hcheck : (pair.withRelation again).check = .ok 2 := by with_unfolding_all rfl
  exact exists_model hcheck formulas_again (by decide) (by decide) unambiguous_again (by decide)

theorem model_withRelation_again : ∃ m m', pair.model = .ok m ∧
    (pair.withRelation again).model = .ok m' ∧ m'.linear.vars = m.linear.vars ∧
    m'.linear.constraints = m.linear.constraints ∧
    m'.linear.objective.terms.length = m.linear.objective.terms.length + m.teamCount := by
  obtain ⟨m', hm', -⟩ := exists_model_again
  obtain ⟨m, nodes, node, xs, hm, hnodes, hall, -, -, hxs, hobjective, -, -, hknown⟩ :=
    model_withRelation hm' unambiguous_again
  cases formulas_pair.symm.trans hnodes
  cases formulas_again.symm.trans hall
  have hparts : ∀ part ∈ notAnnNode.parts, (∃ l id, part = .person l id) ∨
      part ∈ [notAnnNode].flatMap parts := fun part hpart => Or.inr (by simpa using hpart)
  refine ⟨m, m', hm, hm', (hknown hparts).1, (hknown hparts).2, ?_⟩
  rw [hobjective, List.length_append, List.length_map, hxs]

end Request
end BalancedTeams
