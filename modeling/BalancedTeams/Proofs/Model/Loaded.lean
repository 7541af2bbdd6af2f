import BalancedTeams.Proofs.Config.Requests
import BalancedTeams.Proofs.Model.Existence
import BalancedTeams.Proofs.Model.Feasible

/-!
# Which loaded requests have a model

* `Request.Nameable` : ids whose texts can be had, and are different for different people;
* `Request.nameable_of_model` : a model is only had for such ids;
* `Request.Coherent.exists_formulas` : the formulas of the relations, which name the request's people;
* `Request.exists_model_iff_of_load` : what loads with a possible team count has a model exactly if
  its ids are such;
* `Request.no_model_of_twins` : ids that are different but have one text.
-/

namespace BalancedTeams

/-- The ids of people have texts that are all different, and those of the people that relations are
about have texts for labels. -/
structure Request.Nameable (r : Request) : Prop where
  writable : ∀ p ∈ r.people, p.id.isWritable = true
  nodup : (r.people.map (·.id.plain)).Nodup
  labels : ∀ rel ∈ r.relations, HaveLabelTexts r.people rel.entries

/-! ## What is needed -/

theorem nodup_texts_of_seats {people : List Person} {teams : Nat} (hteams : 0 < teams)
    (h : ((seats people teams).map seatName).Nodup) : (people.map (·.id.plain)).Nodup := by
  have hfirst : (0 : Int) ∈ slots teams := List.mem_map.2 ⟨0, List.mem_range.2 hteams, rfl⟩
  have hsub : ∀ people : List Person, (people.map (·, (0 : Int))).Sublist (seats people teams) := by
    intro people
    induction people with
    | nil => exact List.Sublist.refl _
    | cons p rest ih =>
      have hseat : (p, (0 : Int)) ∈ (slots teams).map (p, ·) := List.mem_map_of_mem hfirst
      rw [seats, List.flatMap_cons]
      exact (List.singleton_sublist.2 hseat).append ih
  have hnames := h.sublist ((hsub people).map seatName)
  rw [List.map_map] at hnames
  apply List.Nodup.of_map (membershipName · 0)
  rwa [List.map_map]

namespace Compiler

theorem isWritable_of_declareMemberships {people : List Person} {teams : Nat} {ids : List Text}
    {c : Compiler} (h : Yields (declareMemberships people teams) .empty ids c) :
    ∀ p ∈ people, p.id.isWritable = true := by
  refine h.mapM_induction (I := fun done _ _ => ∀ p ∈ done, p.id.isWritable = true) ?_ nofun
  intro done results p y d d' _ hdone hy
  obtain ⟨person, htext, -⟩ := yields_lift_bind_iff.1 hy
  intro q hq
  rcases List.mem_append.1 hq with hq | hq
  · exact hdone q hq
  · rw [List.mem_singleton.1 hq]
    exact (text_eq_ok_iff.1 (liftText_eq_ok_iff.1 htext)).1

theorem isWritable_of_assemble {people : List Person} {teams : Nat} {nodes : List Labelled}
    {vars : List (List Text)} {c : Compiler} (h : (assemble people teams nodes).run .empty = (.ok vars, c)) :
    ∀ p ∈ people, p.id.isWritable = true := by
  replace h : Yields (assemble people teams nodes) .empty vars c := h
  obtain ⟨ids, d, hids, -⟩ := yields_bind_iff.1 h
  exact isWritable_of_declareMemberships hids

end Compiler

namespace Formula

theorem IsOver.exists_of_mem_ids {people : List Person} {f : Formula} (h : f.IsOver people) {id : Value}
    (hid : id ∈ f.ids) : ∃ p ∈ people, p.id = id := by
  induction f with
  | person w =>
    rw [ids, List.mem_singleton] at hid
    exact hid ▸ h
  | always => exact h.elim
  | not f ih => exact ih h hid
  | and f g ihf ihg | or f g ihf ihg =>
    rcases List.mem_append.1 hid with hid | hid
    · exact ihf h.1 hid
    · exact ihg h.2 hid

end Formula

namespace Request
variable {v : Value} {r : Request}

/-- The formulas of a coherent request name its people, if labels can be had. -/
theorem Coherent.exists_formulas (h : r.Coherent)
    (hlabels : ∀ rel ∈ r.relations, HaveLabelTexts r.people rel.entries) :
    ∃ nodes, r.formulas = .ok nodes ∧
      ∀ node ∈ nodes, ∀ id ∈ node.formula.ids, ∃ p ∈ r.people, p.id.key? = id.key? := by
  obtain ⟨policy, hpolicy⟩ := h.policy
  obtain ⟨ctx, hctx⟩ := h.lists.exists_context policy
  have hrelation : ∀ rel ∈ r.relations, ∃ node, (∃ f, ctx.relation rel.entries = .ok f ∧
      f.labelled = .ok node) ∧ node.formula.IsOver r.people := by
    intro rel hrel
    obtain ⟨ts, hts⟩ := h.tokens rel hrel
    obtain ⟨f, hover, heval, hf⟩ :=
      h.lists.exists_relation hts (h.mentions rel hrel) (hlabels rel hrel)
    obtain ⟨node, hnode⟩ := heval.labelled
    exact ⟨node, ⟨f, hf hctx, hnode⟩, (Formula.formula_of_labelled hnode).symm ▸ hover⟩
  obtain ⟨nodes, hnodes⟩ := exists_forall₂ hrelation
  refine ⟨nodes, formulas_eq_ok_iff.2 ⟨ctx, hpolicy ▸ hctx, hnodes.imp fun _ _ h => h.1⟩, ?_⟩
  intro node hnode id hid
  obtain ⟨rel, -, -, hover⟩ := exists_of_mem_right hnodes hnode
  obtain ⟨p, hp, rfl⟩ := hover.exists_of_mem_ids hid
  exact ⟨p, hp, rfl⟩

/-- A coherent request with a model has ids that can be told apart by their texts. -/
theorem nameable_of_model (h : r.Coherent) {m : AssignmentModel} (hm : r.model = .ok m) : r.Nameable where
  writable := by
    obtain ⟨n, nodes, vars, c, -, -, hrun, -⟩ := model_eq_ok_iff.1 hm
    exact Compiler.isWritable_of_assemble hrun
  nodup := by
    obtain ⟨nodes, compiled, c₀, ds, c, hbuilt⟩ := exists_built hm
    exact nodup_texts_of_seats hbuilt.pos hbuilt.assembled.nodup
  labels := by
    obtain ⟨n, nodes, vars, c, -, hnodes, -, -⟩ := model_eq_ok_iff.1 hm
    obtain ⟨ctx, hctx, hall⟩ := formulas_eq_ok_iff.1 hnodes
    obtain ⟨policy, hpolicy⟩ := h.policy
    rw [hpolicy] at hctx
    intro rel hrel
    obtain ⟨node, -, f, hf, -⟩ := exists_of_mem_right hall.flip hrel
    exact ((h.lists.exists_relation_iff hctx (h.mentions rel hrel)).1 ⟨f, hf⟩).2

/-- **What loads with a possible team count has a model**, exactly if the ids of its people have texts
that tell them apart, provided that no label stands for two formulas. -/
theorem exists_model_iff_of_load (h : Request.load v = .ok r) {n : Nat} (hcount : r.teamCount = .int n)
    (hpos : 1 ≤ n) (hle : n ≤ r.people.length) (hlabels : r.Unambiguous) :
    (∃ m, r.model = .ok m ∧ m.teamCount = n) ↔ r.Nameable := by
  have hr := coherent_of_load h
  constructor
  · rintro ⟨m, hm, -⟩
    exact nameable_of_model hr hm
  · rintro ⟨hwritable, hnodup, htexts⟩
    have hpriorities : ∀ rel ∈ r.relations, isPriority rel.priority = true :=
      fun rel hrel => isPriority_iff.2 (hr.priorities rel hrel)
    have hcheck : r.check = .ok n := check_eq_ok_iff.2
      ⟨hcount, ⟨hpos, hle⟩, hr.lists.personIds, hr.relationIds, hpriorities⟩
    obtain ⟨nodes, hnodes, hpeople⟩ := hr.exists_formulas htexts
    exact exists_model hcheck hnodes hwritable hnodup hlabels hpeople

theorem formulas_tall :
    tall.formulas = .ok [.person (Formula.labelOf "PERSON" ["1"]) (.int 1)] := by
  have htext : Formula.idText (.int 1) = .ok "1" := by decide +kernel
  refine formulas_eq_ok_iff.2 ⟨⟨tall.people, [.int 0, .int 1],
    ⟨[(.int 0, ⟨.int 0, .str "tall"⟩)]⟩, .vacuous⟩, rfl, .cons ⟨.person (.int 1), ?_, ?_⟩ .nil⟩
  · decide +kernel
  · rw [Formula.labelled, htext]
    rfl

theorem unambiguous_tall : tall.Unambiguous := by
  intro nodes hnodes
  rw [formulas_tall] at hnodes
  cases hnodes
  intro node hnode other hother _
  cases List.mem_singleton.1 hnode
  cases List.mem_singleton.1 hother
  rfl

theorem exists_model_tall : ∃ m, tall.model = .ok m ∧ m.teamCount = 2 := by
  refine (exists_model_iff_of_load load_tall rfl (by decide) (by decide) unambiguous_tall).2 ?_
  exact ⟨by decide +kernel, by decide +kernel, fun _ _ => haveLabelTexts_tall _⟩

/-! ## Ids with one text -/

/-- Two people, one with a number and one with its numeral as the id. -/
def twinDocument : Value :=
  .map [(.str "num_teams", .int 1), (.str "people", .list [
    .map [(.str "id", .int 1), (.str "name", .str "Ann")],
    .map [(.str "id", .str "1"), (.str "name", .str "Bob")]])]

def twins : Request where
  people := [⟨.int 1, .str "Ann", []⟩, ⟨.str "1", .str "Bob", []⟩]
  teamCount := .int 1

/-- Different ids with the same text load, but have no model. -/
theorem no_model_of_twins : Request.load twinDocument = .ok twins ∧ twins.teamCount = .int 1 ∧
    1 ≤ twins.people.length ∧ twins.Unambiguous ∧ ∀ m, twins.model ≠ .ok m := by
  have hload : Request.load twinDocument = .ok twins := by with_unfolding_all rfl
  have hsame : ¬ (twins.people.map (·.id.plain)).Nodup := by decide +kernel
  refine ⟨hload, rfl, by decide, ?_, ?_⟩
  · intro nodes hnodes
    cases hnodes
    decide
  · intro m hm
    exact hsame (nameable_of_model (coherent_of_load hload) hm).nodup

end Request
end BalancedTeams
