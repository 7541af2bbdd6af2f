import BalancedTeams.Proofs.Model.Refusals
import BalancedTeams.Proofs.Relation.Reordering
import BalancedTeams.Proofs.Solver.Optimality
import Mathlib.Data.Int.LeastGreatest

/-!
# The order of a request does not matter

* `Request.Reordered` : the same request with people, tags and relations in another order;
* `Request.Reordered.score_eq` : a score without floats is the same in every order;
* `Request.Reordered.exists_model` : a model in one order is a model in every order;
* `Built.exists_maximum` : every model has a maximum;
* `Request.Reordered.exists_assignment` : assignments are worth the same in every order;
* `Request.order_irrelevant` : all of it together.
-/

namespace BalancedTeams

/-- The same request with people, tags and relations in another order. -/
structure Request.Reordered (r r' : Request) : Prop where
  people : r.people.Perm r'.people
  tags : r.tags.Perm r'.tags
  relations : r.relations.Perm r'.relations
  teamCount : r'.teamCount = r.teamCount
  emptyTag : r'.emptyTag = r.emptyTag

/-! ## Labels -/

/-- Where no label stands for two formulas of the relations, none does within one of them. -/
theorem Request.Unambiguous.of_relation {r : Request} {nodes : List Labelled} {ctx : Context}
    (h : r.Unambiguous) (hnodes : r.formulas = .ok nodes)
    (hctx : Context.of? r.people r.tags r.emptyTag = .ok ctx) {rel : Relation} (hrel : rel ∈ r.relations)
    {f : Formula} {node : Labelled} (hf : ctx.relation rel.entries = .ok f)
    (hnode : f.labelled = .ok node) : Labelled.Unambiguous [node] := by
  obtain ⟨other, hother, hall⟩ := formulas_eq_ok_iff.1 hnodes
  cases hctx.symm.trans hother
  obtain ⟨node', hmem, g, hg, hnode'⟩ := exists_of_mem_right hall.flip hrel
  cases hf.symm.trans hg
  cases hnode.symm.trans hnode'
  have hparts := Labelled.parts_subset_flatMap hmem
  rw [Labelled.Unambiguous, List.flatMap_singleton]
  exact fun s hs t ht => h nodes hnodes s (hparts hs) t (hparts ht)

namespace Request.Reordered
variable {r r' : Request} (h : r.Reordered r')
include h

theorem symm : r'.Reordered r :=
  ⟨h.people.symm, h.tags.symm, h.relations.symm, h.teamCount.symm, h.emptyTag.symm⟩

/-! ## Scores -/

theorem exists_formulas (hnodes : ∃ nodes, r.formulas = .ok nodes) :
    ∃ nodes, r'.formulas = .ok nodes := by
  obtain ⟨policy, hpolicy, hpeople, htags, hall⟩ := exists_formulas_iff.1 hnodes
  refine exists_formulas_iff.2 ⟨policy, h.emptyTag.trans hpolicy,
    fun p hp => hpeople p (h.people.symm.subset hp), fun g hg => htags g (h.tags.symm.subset hg), ?_⟩
  intro rel hrel
  obtain ⟨htokens, hres⟩ := hall rel (h.relations.symm.subset hrel)
  exact ⟨htokens, fun ref href => (hres ref href).of_perm h.people h.tags⟩

/-- Without floats, teams have the same score in every order, their members too. -/
theorem score_eq (hlabels : r.Unambiguous) (hlabels' : r'.Unambiguous)
    (hfloat : ∀ rel ∈ r.relations, ∀ x, rel.priority ≠ .float x) {teams teams' : List Roster}
    (hteams : Regrouped teams teams') {s : Scalar}
    (hs : score teams r.relations r.people r.tags r.emptyTag = .ok s) :
    score teams' r'.relations r'.people r'.tags r'.emptyTag = .ok s := by
  obtain ⟨ctx, hctx, -⟩ := bind_eq_ok_iff.1 hs
  obtain ⟨worths, hworths, rfl⟩ := (score_eq_ok_iff hctx hfloat).1 hs
  have hformulas : ∃ nodes, r.formulas = .ok nodes := by
    have hevery : ∀ rel ∈ r.relations, ∃ node, ∃ f, ctx.relation rel.entries = .ok f ∧
        f.labelled = .ok node := by
      intro rel hrel
      obtain ⟨w, -, truths, ⟨f, node, hf, hnode, -⟩, -⟩ := exists_of_mem_right hworths.flip hrel
      exact ⟨node, f, hf, hnode⟩
    obtain ⟨nodes, hnodes⟩ := exists_forall₂ hevery
    exact ⟨nodes, formulas_eq_ok_iff.2 ⟨ctx, hctx, hnodes⟩⟩
  obtain ⟨nodes', hnodes'⟩ := h.exists_formulas hformulas
  obtain ⟨nodes, hnodes⟩ := hformulas
  obtain ⟨ctx', hctx', -⟩ := formulas_eq_ok_iff.1 hnodes'
  obtain ⟨policy, hpolicy⟩ := Context.exists_policy hctx
  have hsame : ∀ rel ∈ r.relations, ∀ w, IsWorth ctx teams rel w → IsWorth ctx' teams' rel w := by
    rintro rel hrel w ⟨truths, hmeets, hinteger, rfl⟩
    obtain ⟨truths', hperm, hmeets'⟩ := Context.exists_meets_of_perm (hpolicy ▸ hctx)
      (hpolicy ▸ h.emptyTag ▸ hctx') h.people h.tags hteams
      (fun f node => hlabels.of_relation hnodes hctx hrel)
      (fun f node => hlabels'.of_relation hnodes' hctx' (h.relations.subset hrel)) hmeets
    refine ⟨truths', hmeets', fun hmem => hinteger (hperm.symm.subset hmem), ?_⟩
    rw [hperm.count_eq]
  have hworths' : List.Forall₂ (IsWorth ctx' teams') r.relations worths :=
    ((List.forall₂_and_left _ _).2 ⟨fun rel hrel => hrel, hworths⟩).imp
      fun rel w hw => hsame rel hw.1 w hw.2
  obtain ⟨worths', hall, hperm⟩ := List.perm_comp_forall₂ h.relations.symm hworths'
  refine (score_eq_ok_iff hctx' fun rel hrel => hfloat rel (h.relations.symm.subset hrel)).2
    ⟨worths', hall, ?_⟩
  rw [hperm.sum_eq]

end Request.Reordered

theorem Request.score_of_formulas {r : Request} {nodes : List Labelled} (hnodes : r.formulas = .ok nodes)
    (hlabels : r.Unambiguous) (hpriorities : ∀ rel ∈ r.relations, ∃ n : Int, rel.priority = .int n)
    {teams : List Roster} (hteams : ∀ team ∈ teams, ∀ id ∈ team, id.key?.isSome = true) :
    score teams r.relations r.people r.tags r.emptyTag = .ok (.int (weighted r.relations
      (nodes.map fun node => teams.map fun team => node.formula.eval team.holds))) := by
  obtain ⟨ctx, hctx, hall⟩ := formulas_eq_ok_iff.1 hnodes
  obtain ⟨policy, hpolicy⟩ := Context.exists_policy hctx
  refine BalancedTeams.score_eq hctx hpriorities ?_
  rw [List.forall₂_map_right_iff]
  refine ((List.forall₂_and_left _ _).2 ⟨fun rel hrel => hrel, hall⟩).imp ?_
  rintro rel node ⟨hrel, f, hf, hnode⟩
  refine ⟨f, node, hf, hnode, ?_⟩
  rw [List.forall₂_map_right_iff, List.forall₂_same]
  intro team hteam
  refine Roster.meets_eq_eval (hteams team hteam) (hlabels.of_relation hnodes hctx hrel hf hnode) ?_
  rw [Formula.formula_of_labelled hnode]
  exact (Context.evaluable_of_relation (hpolicy ▸ hctx) hf).1.keyed

/-! ## Models -/

namespace Request.Reordered
variable {r r' : Request} (h : r.Reordered r')
include h

theorem keyed (hkeys : r.Keyed) : r'.Keyed where
  people p hp := hkeys.people p (h.people.symm.subset hp)
  tags g hg := hkeys.tags g (h.tags.symm.subset hg)
  relations rel hrel := hkeys.relations rel (h.relations.symm.subset hrel)
  mentions rel hrel := hkeys.mentions rel (h.relations.symm.subset hrel)

theorem hasLabelTexts (htexts : r.HasLabelTexts) : r'.HasLabelTexts :=
  fun rel hrel ref href => (htexts rel (h.relations.symm.subset hrel) ref href).of_perm h.people

theorem buildable (hr : r.Buildable) : r'.Buildable where
  teamCount := by
    obtain ⟨n, hcount, hn⟩ := hr.teamCount
    exact ⟨n, h.teamCount.trans hcount, h.people.length_eq ▸ hn⟩
  people := hr.people.of_perm (h.people.map _)
  texts := (h.people.map _).nodup hr.texts
  relations := hr.relations.of_perm (h.relations.map _)
  priorities rel hrel := hr.priorities rel (h.relations.symm.subset hrel)
  policy := h.emptyTag ▸ hr.policy
  tokens rel hrel := hr.tokens rel (h.relations.symm.subset hrel)
  mentions rel hrel ref href :=
    (hr.mentions rel (h.relations.symm.subset hrel) ref href).of_perm h.people h.tags
  carried herror rel hrel ref href :=
    (hr.carried (h.emptyTag ▸ herror) rel (h.relations.symm.subset hrel) ref href).of_perm h.people

/-- A request that has a model in one order has one in every order. -/
theorem exists_model (hlabels : r.Unambiguous) (hlabels' : r'.Unambiguous) {m : AssignmentModel}
    (hm : r.model = .ok m) : ∃ m', r'.model = .ok m' := by
  have hkeys := keyed_of_model hm
  obtain ⟨hbuildable, hwritable, htexts⟩ := (exists_model_iff hkeys hlabels).1 ⟨m, hm⟩
  exact (exists_model_iff (h.keyed hkeys) hlabels').2 ⟨h.buildable hbuildable,
    fun p hp => hwritable p (h.people.symm.subset hp), h.hasLabelTexts htexts⟩

end Request.Reordered

/-! ## Maxima -/

theorem Terms.exists_bound (ts : Terms) :
    ∃ b, ∀ v : Text → Int, (∀ t ∈ ts, IsBit (v t.2)) → ts.value v ≤ b := by
  induction ts with
  | nil => exact ⟨0, fun v _ => Int.le_refl 0⟩
  | cons t ts ih =>
    obtain ⟨b, hb⟩ := ih
    refine ⟨max 0 t.1 + b, fun v hv => ?_⟩
    obtain ⟨ht, hrest⟩ := List.forall_mem_cons.1 hv
    have hfirst : t.1 * v t.2 ≤ max 0 t.1 := by
      rcases ht with ht | ht
      · rw [ht, Int.mul_zero]
        exact Int.le_max_left 0 t.1
      · rw [ht, Int.mul_one]
        exact Int.le_max_right 0 t.1
    rw [Terms.value_cons]
    exact Int.add_le_add hfirst (hb v hrest)

/-- Every model has a maximum: there are feasible assignments, and the objective is bounded. -/
theorem Built.exists_maximum {r : Request} {m : AssignmentModel} {nodes : List Labelled}
    {compiled : List (List Text)} {c₀ c : Compiler} {ds : Circuit} (h : Built r m nodes compiled c₀ ds c) :
    ∃ v, m.linear.IsMaximum v := by
  obtain ⟨b, hb⟩ := m.linear.objective.terms.exists_bound
  have hbound : ∀ v, m.linear.Feasible v → m.linear.value v ≤ b := by
    refine fun v hv => hb v fun t ht => ?_
    rw [h.objective_eq] at ht
    obtain ⟨xs, hxs, hx⟩ := mem_objectiveTerms ht
    exact h.isBit_compiled hv xs hxs t.2 hx
  obtain ⟨w, hw⟩ := h.exists_feasible_assignment
  obtain ⟨best, ⟨v, hv, hbest⟩, hgreatest⟩ := Int.exists_greatest_of_bdd
    (P := fun z => ∃ v, m.linear.Feasible v ∧ m.linear.value v = z)
    ⟨_, by rintro z ⟨v, hv, rfl⟩; exact hbound v hv⟩ ⟨_, w, hw, rfl⟩
  exact ⟨v, hv, fun u hu => hbest ▸ hgreatest _ ⟨u, hu, rfl⟩⟩

namespace Request
variable {r r' : Request}

/-- Whatever an assignment is worth is what one of the other order is worth. -/
theorem Reordered.exists_assignment (h : r.Reordered r') (hlabels : r.Unambiguous)
    (hlabels' : r'.Unambiguous) {m m' : AssignmentModel} (hm : r.model = .ok m) (hm' : r'.model = .ok m')
    {v : Text → Int} (hv : m.linear.Feasible v) :
    ∃ v', m'.linear.Feasible v' ∧ m'.linear.value v' = m.linear.value v := by
  obtain ⟨nodes, compiled, c₀, ds, c, hbuilt⟩ := exists_built hm
  obtain ⟨nodes', compiled', c₀', ds', c', hbuilt'⟩ := exists_built hm'
  have hcount : m'.teamCount = m.teamCount := by
    have hcounts := hbuilt'.count.symm.trans (h.teamCount.trans hbuilt.count)
    simpa using hcounts
  have hteams := ((hbuilt.feasible_iff.1 hv).2.1.isBalanced hbuilt.pos).of_perm (h.people.map Person.id)
  rw [← hcount] at hteams
  obtain ⟨v', hv', hscore'⟩ := hbuilt'.exists_score (hlabels' nodes' hbuilt'.formulas) hteams
  have hfloat : ∀ rel ∈ r.relations, ∀ x, rel.priority ≠ .float x := by
    intro rel hrel x hx
    obtain ⟨n, hn, -⟩ := isPriority_iff.1 (hbuilt.priorities rel hrel)
    cases hn.symm.trans hx
  have hscore := h.score_eq hlabels hlabels' hfloat (Regrouped.refl _)
    (hbuilt.score_eq (hlabels nodes hbuilt.formulas) hv)
  rw [hcount] at hscore'
  refine ⟨v', hv', ?_⟩
  simpa using hscore'.symm.trans hscore

/-- **The order of a request does not matter.** In every order of people, tags, relations, teams and
members, teams have the same score if no priority is a float. A request with a model in one order has
one in every order, with the same values of feasible assignments, and with the same maximum. -/
theorem order_irrelevant (h : r.Reordered r') (hlabels : r.Unambiguous) (hlabels' : r'.Unambiguous) :
    ((∀ rel ∈ r.relations, ∀ x, rel.priority ≠ .float x) → ∀ teams teams' s, Regrouped teams teams' →
      score teams r.relations r.people r.tags r.emptyTag = .ok s →
      score teams' r'.relations r'.people r'.tags r'.emptyTag = .ok s) ∧
    ∀ m, r.model = .ok m → ∃ m', r'.model = .ok m' ∧
      (∀ z, (∃ v, m.linear.Feasible v ∧ m.linear.value v = z) ↔
        ∃ v, m'.linear.Feasible v ∧ m'.linear.value v = z) ∧
      ∃ v v', m.linear.IsMaximum v ∧ m'.linear.IsMaximum v' ∧
        m.linear.value v = m'.linear.value v' := by
  refine ⟨fun hfloat teams teams' s hteams => h.score_eq hlabels hlabels' hfloat hteams, fun m hm => ?_⟩
  obtain ⟨m', hm'⟩ := h.exists_model hlabels hlabels' hm
  have hforth := fun {v} => h.exists_assignment (v := v) hlabels hlabels' hm hm'
  have hback := fun {v} => h.symm.exists_assignment (v := v) hlabels' hlabels hm' hm
  refine ⟨m', hm', fun z => ⟨?_, ?_⟩, ?_⟩
  · rintro ⟨v, hv, rfl⟩
    exact hforth hv
  · rintro ⟨v, hv, rfl⟩
    exact hback hv
  · obtain ⟨nodes, compiled, c₀, ds, c, hbuilt⟩ := exists_built hm
    obtain ⟨v, hv⟩ := hbuilt.exists_maximum
    obtain ⟨v', hv', hvalue⟩ := hforth hv.feasible
    refine ⟨v, v', hv, ⟨hv', fun w hw => ?_⟩, hvalue.symm⟩
    obtain ⟨u, hu, huw⟩ := hback hw
    rw [hvalue, ← huw]
    exact hv.greatest u hu

/-! ## Two orders -/

/-- Three people, one of whom carries a tag. -/
def crew : Request where
  people := [⟨.str "a", .str "Ann", [.str "t"]⟩, ⟨.str "b", .str "Bob", []⟩, ⟨.str "c", .str "Cy", []⟩]
  tags := [⟨.str "t", .str "Tall"⟩, ⟨.str "u", .str "Usual"⟩]
  relations := [⟨.str "r", [.text "NOT ", .ref (.tag (.str "t"))], .int 3⟩,
    ⟨.str "s", [.ref (.person (.str "a"))], .int 2⟩]
  teamCount := .int 2

/-- The crew from the last to the first. -/
def crewBackwards : Request where
  people := crew.people.reverse
  tags := crew.tags.reverse
  relations := crew.relations.reverse
  teamCount := .int 2

theorem reordered_crew : crew.Reordered crewBackwards :=
  ⟨(List.reverse_perm _).symm, (List.reverse_perm _).symm, (List.reverse_perm _).symm, rfl, rfl⟩

theorem formulas_crew : crew.formulas = .ok [notAnnNode, annNode] := by
  refine formulas_eq_ok_iff.2 ⟨⟨crew.people, [.str "a", .str "b", .str "c"],
    ⟨[(.str "u", ⟨.str "u", .str "Usual"⟩), (.str "t", ⟨.str "t", .str "Tall"⟩)]⟩, .vacuous⟩, rfl,
    .cons ⟨_, ?_, labelled_notAnn⟩ (.cons ⟨_, ?_, labelled_ann⟩ .nil)⟩
  · with_unfolding_all rfl
  · with_unfolding_all rfl

theorem formulas_crewBackwards : crewBackwards.formulas = .ok [annNode, notAnnNode] := by
  refine formulas_eq_ok_iff.2 ⟨⟨crewBackwards.people, [.str "c", .str "b", .str "a"],
    ⟨[(.str "t", ⟨.str "t", .str "Tall"⟩), (.str "u", ⟨.str "u", .str "Usual"⟩)]⟩, .vacuous⟩, rfl,
    .cons ⟨_, ?_, labelled_ann⟩ (.cons ⟨_, ?_, labelled_notAnn⟩ .nil)⟩
  · with_unfolding_all rfl
  · with_unfolding_all rfl

theorem unambiguous_crew : crew.Unambiguous := by
  intro nodes hnodes
  cases formulas_crew.symm.trans hnodes
  decide

theorem unambiguous_crewBackwards : crewBackwards.Unambiguous := by
  intro nodes hnodes
  cases formulas_crewBackwards.symm.trans hnodes
  decide

theorem score_crew : score [[.str "a", .str "c"], [.str "b"]] crew.relations crew.people crew.tags
    crew.emptyTag = .ok (.int 5) :=
  score_of_formulas formulas_crew unambiguous_crew (by simp [crew]) (by decide)

theorem exists_model_crew : ∃ m, crew.model = .ok m := by
  have hcheck : crew.check = .ok 2 := by with_unfolding_all rfl
  obtain ⟨m, hm, -⟩ := exists_model hcheck formulas_crew (by decide) (by decide) unambiguous_crew
    (known_of_formulas formulas_crew)
  exact ⟨m, hm⟩

theorem order_irrelevant_crew :
    score [[.str "b"], [.str "c", .str "a"]] crewBackwards.relations crewBackwards.people
      crewBackwards.tags crewBackwards.emptyTag = .ok (.int 5) ∧
    ∃ m m', crew.model = .ok m ∧ crewBackwards.model = .ok m' ∧
      ∃ v v', m.linear.IsMaximum v ∧ m'.linear.IsMaximum v' ∧
        m.linear.value v = m'.linear.value v' := by
  obtain ⟨hscore, hmodel⟩ :=
    order_irrelevant reordered_crew unambiguous_crew unambiguous_crewBackwards
  obtain ⟨m, hm⟩ := exists_model_crew
  obtain ⟨m', hm', -, hmaximum⟩ := hmodel m hm
  refine ⟨hscore ?_ _ _ _ ?_ score_crew, m, m', hm, hm', hmaximum⟩
  · simp [crew]
  · exact ⟨[[.str "b"], [.str "a", .str "c"]], .swap _ _ _, .cons (.refl _) (.cons (.swap _ _ _) .nil)⟩

end Request
end BalancedTeams
