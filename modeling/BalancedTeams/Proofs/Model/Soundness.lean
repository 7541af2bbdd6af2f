import BalancedTeams.Proofs.Model.Feasible
import BalancedTeams.Proofs.Score

/-!
# What feasible assignments of a model mean

* `AssignmentModel.satisfactionOf?` : the variables of a relation on the teams;
* `Built.meets_eq` : a variable of a relation is 1 exactly if the team meets it;
* `value_objectiveTerms` : the objective as a sum over the relations;
* `Built.score_eq` : the objective is the score of the teams;
* `Request.feasible_sound` : the rosters of a feasible assignment, the relations they meet, and what
  they are worth.
-/

namespace BalancedTeams
open Compiler

/-- The variables of a relation on the teams, in order. -/
def AssignmentModel.satisfactionOf? (m : AssignmentModel) (id : Value) : Option (List Text) :=
  (m.satisfaction.find? fun e => e.1.same id).map Prod.snd

theorem find?_zip_eq {α : Type} {R : Relation → α → Prop} {relations : List Relation} {items : List α}
    (hids : DistinctKeys (relations.map Relation.id)) (h : List.Forall₂ R relations items) :
    ∀ rel ∈ relations, ∃ a, (((relations.map Relation.id).zip items).find?
      fun e => e.1.same rel.id).map Prod.snd = some a ∧ R rel a := by
  induction h with
  | nil => exact nofun
  | @cons r a relations items hra hrest ih =>
    rw [List.map_cons, DistinctKeys.cons_iff] at hids
    obtain ⟨k, hk, hids, hnew⟩ := hids
    intro rel hrel
    rw [List.map_cons, List.zip_cons_cons]
    rcases List.mem_cons.1 hrel with rfl | hrel
    · have hsame : rel.id.same rel.id = true := same_eq_true_iff.2 ⟨k, hk, hk⟩
      refine ⟨a, ?_, hra⟩
      rw [List.find?_cons_of_pos (by exact hsame), Option.map_some]
    · rw [List.find?_cons_of_neg]
      · exact ih hids rel hrel
      · rw [same_eq_true_iff]
        rintro ⟨l, hl, hrl⟩
        rw [hk] at hl
        exact hnew rel.id (List.mem_map_of_mem hrel) (hl ▸ hrl)

/-! ## The objective -/

theorem Terms.value_append (v : Text → Int) (ts us : Terms) :
    Terms.value v (ts ++ us) = Terms.value v ts + Terms.value v us := by
  induction ts with
  | nil => rw [List.nil_append, Terms.value_nil, Int.zero_add]
  | cons t ts ih => rw [List.cons_append, Terms.value_cons, Terms.value_cons, ih, Int.add_assoc]

/-- Over zeros and ones the objective counts for every relation the variables that are 1. -/
theorem value_objectiveTerms {v : Text → Int} {relations : List Relation}
    {compiled : List (List Text)} (hbit : ∀ xs ∈ compiled, ∀ x ∈ xs, IsBit (v x)) :
    Terms.value v (objectiveTerms relations compiled) =
      weighted relations (compiled.map fun xs => xs.map (v · == 1)) := by
  induction compiled generalizing relations with
  | nil => cases relations <;> rfl
  | cons xs compiled ih =>
    obtain ⟨hxs, hrest⟩ := List.forall_mem_cons.1 hbit
    cases relations with
    | nil => rfl
    | cons r relations =>
      have ih' : Terms.value v (objectiveTerms relations compiled) = _ := ih hrest
      rw [objectiveTerms, weighted] at ih' ⊢
      rw [List.zip_cons_cons, List.flatMap_cons, Terms.value_append, ih', List.map_cons,
        List.zipWith_cons_cons, List.sum_cons]
      congr 1
      rw [Terms.value_map r.weight (fun x => x) hxs, List.count_eq_countP, List.countP_map]
      congr 2
      refine List.countP_congr fun x _ => ?_
      rw [Function.comp_apply, beq_true]

namespace Built

variable {r : Request} {m : AssignmentModel} {nodes : List Labelled} {compiled : List (List Text)}
  {c₀ c : Compiler} {ds : Circuit} {v : Text → Int} (h : Built r m nodes compiled c₀ ds c)

include h

/-! ## Relations -/

theorem exists_keysOf?_team {t : Int} (ht : t ∈ slots m.teamCount) :
    ∃ keys, keysOf? ((r.people.filter (chosen v · t)).map Person.id) = some keys ∧
      keys.contains = c₀.memberships.team v t := by
  have hkeyed : ∀ id ∈ (r.people.filter (chosen v · t)).map Person.id, id.key?.isSome = true := by
    intro id hid
    obtain ⟨p, hp, rfl⟩ := List.mem_map.1 hid
    exact h.people.keyed_map p (List.mem_filter.1 hp).1
  obtain ⟨keys, hkeys⟩ := exists_keysOf? hkeyed
  refine ⟨keys, hkeys, funext fun k => ?_⟩
  have hmem : keys.contains k = true ↔
      ∃ p ∈ r.people, chosen v p t = true ∧ p.id.key? = some k := by
    have hmap := congrArg (some k ∈ ·) (keysOf?_eq_some_iff.1 hkeys)
    simp only [List.mem_map, List.mem_filter, Option.some.injEq, exists_eq_right, eq_iff_iff] at hmap
    rw [List.contains_iff_mem, ← hmap]
    constructor
    · rintro ⟨_, ⟨p, ⟨hp, hc⟩, rfl⟩, hk⟩
      exact ⟨p, hp, hc, hk⟩
    · rintro ⟨p, hp, hc, hk⟩
      exact ⟨p.id, ⟨p, ⟨hp, hc⟩, rfl⟩, hk⟩
  rw [Bool.eq_iff_iff, hmem, Memberships.team]
  constructor
  · rintro ⟨p, hp, hc, hk⟩
    rw [h.assembled.find?_eq h.people hp ht hk]
    exact hc
  · intro hteam
    split at hteam
    · next x hx =>
      obtain ⟨⟨p, s⟩, he, hk, rfl, rfl⟩ := h.assembled.sound k t x hx
      exact ⟨p, (mem_seats.1 he).1, hteam, hk⟩
    · cases hteam

/-- A variable that stands for a formula is 1 exactly if the team meets it. -/
theorem meets_eq (hlabels : Labelled.Unambiguous nodes) (hv : m.linear.Feasible v)
    {node : Labelled} (hnode : node ∈ nodes) {t : Int} (ht : t ∈ slots m.teamCount) {x : Text}
    (hx : Stands (nodes.flatMap Labelled.parts) c₀ ds t x (node.formula = ·)) :
    Roster.meets ((r.people.filter (chosen v · t)).map Person.id) node = .ok (v x == 1) := by
  obtain ⟨hbinary, -, hcs⟩ := h.feasible_iff.1 hv
  obtain ⟨keys, hkeys, hteam⟩ := h.exists_keysOf?_team (v := v) ht
  have heval := h.assembled.since.evaluate_eq h.assembled.isGrounded hlabels
    (Labelled.parts_subset_flatMap hnode) hx hbinary (h.assembled.since.emitted_eq ▸ hcs)
  rw [Roster.meets, hkeys]
  change Fault.orNoKey (node.evaluate keys.contains) = _
  rw [hteam, heval]
  rfl

theorem forall₂_meets (hlabels : Labelled.Unambiguous nodes) (hv : m.linear.Feasible v) :
    List.Forall₂ (fun node xs => List.Forall₂
      (fun team x => Roster.meets team node = .ok (v x == 1))
      (teamsOf r.people m.teamCount (chosen v)) xs) nodes compiled := by
  have hnodes := (List.forall₂_and_left _ _).2 ⟨fun node hnode => hnode, h.assembled.stands⟩
  refine hnodes.imp ?_
  rintro node xs ⟨hnode, hxs⟩
  rw [teamsOf, divide, List.map_map, List.forall₂_map_left_iff]
  refine ((List.forall₂_and_left _ _).2 ⟨fun t ht => ht, hxs⟩).imp ?_
  rintro t x ⟨ht, hx⟩
  exact h.meets_eq hlabels hv hnode ht hx

theorem isBit_compiled (hv : m.linear.Feasible v) : ∀ xs ∈ compiled, ∀ x ∈ xs, IsBit (v x) :=
  fun xs hxs x hx => (h.feasible_iff.1 hv).1 x (h.assembled.declares_compiled xs hxs x hx)

/-- Every relation has a formula, and variables that tell which teams meet it. -/
theorem forall₂_relations {ctx : Context} (hlabels : Labelled.Unambiguous nodes)
    (hv : m.linear.Feasible v)
    (hformulas : List.Forall₂ (fun rel node => ∃ f, ctx.relation rel.entries = .ok f ∧
      f.labelled = .ok node) r.relations nodes) :
    List.Forall₂ (fun rel xs => ∃ f node, ctx.relation rel.entries = .ok f ∧
      f.labelled = .ok node ∧ List.Forall₂ (fun team x => Roster.meets team node = .ok (v x == 1))
        (teamsOf r.people m.teamCount (chosen v)) xs) r.relations compiled := by
  refine (forall₂_comp hformulas (h.forall₂_meets hlabels hv)).imp ?_
  rintro rel xs ⟨node, -, ⟨f, hf, hnode⟩, hxs⟩
  exact ⟨f, node, hf, hnode, hxs⟩

/-- The objective is the score of the teams. -/
theorem score_eq (hlabels : Labelled.Unambiguous nodes) (hv : m.linear.Feasible v) :
    score (teamsOf r.people m.teamCount (chosen v)) r.relations r.people r.tags r.emptyTag =
      .ok (.int (m.linear.value v)) := by
  obtain ⟨ctx, hctx, hformulas⟩ := Request.formulas_eq_ok_iff.1 h.formulas
  rw [h.value_eq, value_objectiveTerms (h.isBit_compiled hv)]
  refine BalancedTeams.score_eq hctx (fun rel hrel => ?_) ?_
  · obtain ⟨n, hn, -⟩ := isPriority_iff.1 (h.priorities rel hrel)
    exact ⟨n, hn⟩
  · rw [List.forall₂_map_right_iff]
    refine (h.forall₂_relations hlabels hv hformulas).imp ?_
    rintro rel xs ⟨f, node, hf, hnode, hxs⟩
    exact ⟨f, node, hf, hnode, List.forall₂_map_right_iff.2 hxs⟩

end Built

/-- **The meaning of feasible assignments.** -/
theorem Request.feasible_sound {r : Request} {m : AssignmentModel} {v : Text → Int}
    (h : r.model = .ok m) (hlabels : r.Unambiguous) (hv : m.linear.Feasible v) :
    ∃ teams ctx, m.rosters (m.valuesOf v) = .ok teams ∧
      Context.of? r.people r.tags r.emptyTag = .ok ctx ∧
      r.teamCount = .int teams.length ∧
      teams.flatten.Perm (r.people.map Person.id) ∧ DistinctKeys teams.flatten ∧
      IsBalanced (r.people.map Person.id) teams.length teams ∧
      teams.countP (fun team => team.length == r.people.length / teams.length + 1) =
        r.people.length % teams.length ∧
      (∀ rel ∈ r.relations, ∃ f node xs, ctx.relation rel.entries = .ok f ∧
        f.labelled = .ok node ∧ m.satisfactionOf? rel.id = some xs ∧
        List.Forall₂ (fun team x => Roster.meets team node = .ok (v x == 1)) teams xs) ∧
      score teams r.relations r.people r.tags r.emptyTag = .ok (.int (m.linear.value v)) := by
  obtain ⟨nodes, compiled, c₀, ds, c, hbuilt⟩ := exists_built h
  have hseating := (hbuilt.feasible_iff.1 hv).2.1
  have hbalanced := hseating.isBalanced hbuilt.pos
  have hperm := hseating.flatten_perm
  obtain ⟨ctx, hctx, hformulas⟩ := formulas_eq_ok_iff.1 hbuilt.formulas
  have hrelations := hbuilt.forall₂_relations (hlabels nodes hbuilt.formulas) hv hformulas
  refine ⟨_, ctx, hbuilt.rosters_eq hseating, hctx, ?_, hperm, ⟨?_, ?_⟩, ?_, ?_, ?_, ?_⟩
  · rw [hbalanced.length]
    exact hbuilt.count
  · intro id hid
    exact hbuilt.people.keyed id (hperm.subset hid)
  · exact hbalanced.members.nodup_iff.2 hbuilt.people.nodup
  · rw [hbalanced.length]
    exact hbalanced
  · have hlarger := hbalanced.countP_larger hbuilt.pos
    rw [List.length_map] at hlarger
    rw [hbalanced.length]
    exact hlarger
  · intro rel hrel
    obtain ⟨xs, hfind, f, node, hf, hnode, hxs⟩ := find?_zip_eq hbuilt.relations hrelations rel hrel
    rw [← hbuilt.satisfaction_eq] at hfind
    exact ⟨f, node, xs, hf, hnode, hfind, hxs⟩
  · exact hbuilt.score_eq (hlabels nodes hbuilt.formulas) hv

/-- The second person in the first team: the first team meets the relation. -/
theorem Request.feasible_sound_pair :
    ∃ m v teams, pair.model = .ok m ∧ m.linear.Feasible v ∧ m.rosters (m.valuesOf v) = .ok teams ∧
      score teams pair.relations pair.people pair.tags pair.emptyTag =
        .ok (.int (m.linear.value v)) := by
  obtain ⟨m, hm, hcount⟩ := exists_model_pair
  obtain ⟨nodes, compiled, c₀, ds, c, hbuilt⟩ := exists_built hm
  have hteams := hcount ▸ isBalanced_pair
  obtain ⟨v, hv, -⟩ := hbuilt.exists_feasible (hteams.isSeating hbuilt.people hbuilt.pos)
  obtain ⟨teams, ctx, hrosters, -, -, -, -, -, -, -, hscore⟩ :=
    feasible_sound hm unambiguous_pair hv
  exact ⟨m, v, teams, hm, hv, hrosters, hscore⟩

end BalancedTeams
