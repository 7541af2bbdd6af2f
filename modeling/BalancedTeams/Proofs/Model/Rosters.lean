import BalancedTeams.Proofs.Model.Loaded

/-!
# Rosters from values that may be anything

* `Values.ofInts`, `intAt` : integers for names, which need not solve a model;
* `AssignmentModel.rosters_eq_error` : the first person who is not in exactly one team ends the reading;
* `Request.rosters_of_model` : rosters can be read exactly if everybody is in one team, and which they are.
-/

namespace BalancedTeams

variable {people : List Person} {ints : List (Text × Int)}

/-! ## Integers for names -/

def Values.ofInts (ints : List (Text × Int)) : Values := ints.map fun e => (e.1, .int e.2)

/-- The integer for a name, the last one if there are several and 0 if there is none. -/
def intAt (ints : List (Text × Int)) (x : Text) : Int :=
  ((ints.reverse.find? fun e => e.1 == x).map Prod.snd).getD 0

theorem get?_ofInts (ints : List (Text × Int)) (x : Text) : (Values.ofInts ints).get? x =
    (ints.reverse.find? fun e => e.1 == x).map fun e => .int e.2 := by
  rw [Values.get?, Values.ofInts, ← List.map_reverse, List.find?_map, Option.map_map]
  rfl

theorem getD_get?_ofInts (ints : List (Text × Int)) (x : Text) :
    ((Values.ofInts ints).get? x).getD (.int 0) = .int (intAt ints x) := by
  rw [get?_ofInts, intAt]
  cases ints.reverse.find? fun e => e.1 == x with
  | none => rfl
  | some e => rfl

theorem get?_ofInts_eq_none_iff {x : Text} :
    (Values.ofInts ints).get? x = none ↔ x ∉ ints.map Prod.fst := by
  rw [get?_ofInts, Option.map_eq_none_iff, List.find?_eq_none, List.mem_map]
  simp only [List.mem_reverse, beq_iff_eq]
  constructor
  · rintro h ⟨e, he, hx⟩
    exact h e he hx
  · intro h e he hx
    exact h ⟨e, he, hx⟩

theorem get?_ofInts_of_mem {x : Text} (h : x ∈ ints.map Prod.fst) :
    (Values.ofInts ints).get? x = some (.int (intAt ints x)) := by
  obtain ⟨v, hv⟩ := Option.ne_none_iff_exists'.1 fun hnone => get?_ofInts_eq_none_iff.1 hnone h
  have hread := getD_get?_ofInts ints x
  rw [hv, Option.getD_some] at hread
  rw [hv, hread]

/-! ## Somebody who is not in one team -/

namespace AssignmentModel
variable {m : AssignmentModel} {values : Values} {chosen : Person → Int → Bool} {id : Value}
  {ts : List Int}

def placement (m : AssignmentModel) (values : Values) (id : Value) : Except Fault (Value × Int) := do
  match ← m.chosenSlots values id with
  | [t] => return (id, t)
  | ts =>
    let shown ← id.text
    throw (.solver (.misplaced shown ts.length))

theorem placements_eq (m : AssignmentModel) (values : Values) :
    m.placements values = m.personIds.mapM (m.placement values) := rfl

theorem exists_placement (h : m.chosenSlots values id = .ok ts) (hone : ts.length = 1) :
    ∃ e, m.placement values id = .ok e := by
  obtain ⟨t, rfl⟩ := List.length_eq_one_iff.1 hone
  exact ⟨(id, t), by rw [placement, h]; rfl⟩

theorem placement_eq_error (h : m.chosenSlots values id = .ok ts) (hne : ts.length ≠ 1)
    (hid : id.isWritable = true) :
    m.placement values id = .error (.solver (.misplaced id.plain ts.length)) := by
  have htext : id.text = .ok id.plain := text_eq_ok_iff.2 ⟨hid, rfl⟩
  rw [placement, h, ok_bind]
  match ts with
  | [] => rw [htext]; rfl
  | [t] => exact absurd rfl hne
  | s :: t :: rest => rw [htext]; rfl

/-- The first person who is not in exactly one team is named, with the number of their teams. -/
theorem rosters_eq_error (hids : m.personIds = people.map Person.id)
    (hchosen : ∀ p ∈ people, ∀ t ∈ slots m.teamCount, m.isChosen values p.id t = .ok (chosen p t))
    {before after : List Person} {p : Person} (hpeople : people = before ++ p :: after)
    (hbefore : ∀ q ∈ before, (slots m.teamCount).countP (chosen q) = 1)
    (hne : (slots m.teamCount).countP (chosen p) ≠ 1) (hp : p.id.isWritable = true) :
    m.rosters values =
      .error (.solver (.misplaced p.id.plain ((slots m.teamCount).countP (chosen p)))) := by
  have hslots : ∀ q ∈ before ++ p :: after,
      m.chosenSlots values q.id = .ok ((slots m.teamCount).filter (chosen q)) :=
    fun q hq => filterM_eq_ok (hchosen q (hpeople ▸ hq))
  have hplaced : ∀ q ∈ before, ∃ e, m.placement values q.id = .ok e := by
    intro q hq
    refine exists_placement (hslots q (List.mem_append_left _ hq)) ?_
    rw [← List.countP_eq_length_filter]
    exact hbefore q hq
  have hfails : m.placement values p.id =
      .error (.solver (.misplaced p.id.plain ((slots m.teamCount).countP (chosen p)))) := by
    rw [List.countP_eq_length_filter] at hne ⊢
    exact placement_eq_error (hslots p (List.mem_append_right _ List.mem_cons_self)) hne hp
  have hplacements : m.placements values =
      .error (.solver (.misplaced p.id.plain ((slots m.teamCount).countP (chosen p)))) := by
    rw [placements_eq, hids, List.mapM_map, hpeople]
    exact mapM_eq_error hplaced hfails
  rw [rosters, hplacements]
  rfl

end AssignmentModel

/-! ## Models -/

theorem exists_first_not {α : Type} {P : α → Prop} {xs : List α} (h : ¬ ∀ x ∈ xs, P x) :
    ∃ before x after, xs = before ++ x :: after ∧ (∀ y ∈ before, P y) ∧ ¬ P x := by
  induction xs with
  | nil => exact absurd (List.forall_mem_nil P) h
  | cons x xs ih =>
    by_cases hx : P x
    · obtain ⟨before, y, after, rfl, hbefore, hy⟩ := ih fun hxs => h (List.forall_mem_cons.2 ⟨hx, hxs⟩)
      exact ⟨x :: before, y, after, rfl, List.forall_mem_cons.2 ⟨hx, hbefore⟩, hy⟩
    · exact ⟨[], x, xs, rfl, List.forall_mem_nil P, hx⟩

namespace Request
open Compiler

variable {r : Request} {m : AssignmentModel}

/-- The people of a request with a model have ids that can be written. -/
theorem isWritable_of_model (h : r.model = .ok m) : ∀ p ∈ r.people, p.id.isWritable = true := by
  obtain ⟨n, nodes, vars, c, -, -, hrun, -⟩ := model_eq_ok_iff.1 h
  exact isWritable_of_assemble hrun

/-- Each person has a membership variable for each team, no two of them the same. -/
theorem memberships_of_model (h : r.model = .ok m) :
    (∀ p ∈ r.people, ∀ t ∈ slots m.teamCount, ∃ k, p.id.key? = some k ∧
      m.memberships.find? k t = some (seatName (p, t))) ∧
    ((seats r.people m.teamCount).map seatName).Nodup := by
  obtain ⟨nodes, compiled, c₀, ds, c, hbuilt⟩ := exists_built h
  refine ⟨fun p hp t ht => ?_, hbuilt.assembled.nodup⟩
  obtain ⟨k, hk⟩ := Option.isSome_iff_exists.1 (hbuilt.people.keyed_map p hp)
  refine ⟨k, hk, ?_⟩
  rw [hbuilt.memberships_eq]
  exact hbuilt.assembled.find?_eq hbuilt.people hp ht hk

theorem isChosen_ofInts (h : r.model = .ok m) (ints : List (Text × Int)) : ∀ p ∈ r.people,
    ∀ t ∈ slots m.teamCount, m.isChosen (.ofInts ints) p.id t = .ok (chosen (intAt ints) p t) := by
  intro p hp t ht
  obtain ⟨k, hk, hx⟩ := (memberships_of_model h).1 p hp t ht
  exact AssignmentModel.isChosen_of_get? hk hx (getD_get?_ofInts ints _)

theorem personIds_of_model (h : r.model = .ok m) : m.personIds = r.people.map Person.id := by
  obtain ⟨nodes, compiled, c₀, ds, c, hbuilt⟩ := exists_built h
  exact hbuilt.personIds_eq

theorem rosters_of_one (h : r.model = .ok m)
    (hone : ∀ p ∈ r.people, (slots m.teamCount).countP (chosen (intAt ints) p) = 1) :
    m.rosters (.ofInts ints) = .ok (teamsOf r.people m.teamCount (chosen (intAt ints))) := by
  refine AssignmentModel.rosters_eq (personIds_of_model h) (isChosen_ofInts h ints) fun p hp => ?_
  rw [← List.length_eq_one_iff, ← List.countP_eq_length_filter]
  exact hone p hp

theorem exists_misplaced (h : r.model = .ok m)
    (hone : ¬ ∀ p ∈ r.people, (slots m.teamCount).countP (chosen (intAt ints) p) = 1) :
    ∃ before p after, r.people = before ++ p :: after ∧
      (∀ q ∈ before, (slots m.teamCount).countP (chosen (intAt ints) q) = 1) ∧
      (slots m.teamCount).countP (chosen (intAt ints) p) ≠ 1 ∧ m.rosters (.ofInts ints) =
        .error (.solver (.misplaced p.id.plain ((slots m.teamCount).countP (chosen (intAt ints) p)))) := by
  obtain ⟨before, p, after, hpeople, hbefore, hne⟩ := exists_first_not hone
  have hp : p ∈ r.people := hpeople ▸ List.mem_append_right _ List.mem_cons_self
  exact ⟨before, p, after, hpeople, hbefore, hne, AssignmentModel.rosters_eq_error
    (personIds_of_model h) (isChosen_ofInts h ints) hpeople hbefore hne (isWritable_of_model h p hp)⟩

theorem one_of_rosters {teams : List Roster} (h : r.model = .ok m)
    (hteams : m.rosters (.ofInts ints) = .ok teams) :
    ∀ p ∈ r.people, (slots m.teamCount).countP (chosen (intAt ints) p) = 1 := by
  by_contra hone
  obtain ⟨before, p, after, -, -, -, herror⟩ := exists_misplaced h hone
  rw [herror] at hteams
  cases hteams

/-- **Rosters are read exactly from values that put everybody in one team.** Each person has a variable
of their own for each team. If exactly one of them is 1 for everybody, the rosters are the people of each
team in their order, and divide all people. Otherwise the first person with another number of teams is
reported, with this number. -/
theorem rosters_of_model (h : r.model = .ok m) (ints : List (Text × Int)) :
    ((∀ p ∈ r.people, ∀ t ∈ slots m.teamCount, ∃ k, p.id.key? = some k ∧
        m.memberships.find? k t = some (seatName (p, t))) ∧
      ((seats r.people m.teamCount).map seatName).Nodup) ∧
    ((∃ teams, m.rosters (.ofInts ints) = .ok teams) ↔
      ∀ p ∈ r.people, (slots m.teamCount).countP (chosen (intAt ints) p) = 1) ∧
    (∀ teams, m.rosters (.ofInts ints) = .ok teams →
      teams = (slots m.teamCount).map (fun t =>
        (r.people.filter (chosen (intAt ints) · t)).map Person.id) ∧
      teams.flatten.Perm (r.people.map Person.id) ∧ (teams.flatten.map Value.key?).Nodup) ∧
    ((∀ teams, m.rosters (.ofInts ints) ≠ .ok teams) → ∃ before p after fault,
      r.people = before ++ p :: after ∧
      (∀ q ∈ before, (slots m.teamCount).countP (chosen (intAt ints) q) = 1) ∧
      (slots m.teamCount).countP (chosen (intAt ints) p) ≠ 1 ∧
      fault = .misplaced p.id.plain ((slots m.teamCount).countP (chosen (intAt ints) p)) ∧
      fault.status = Status.solverError ∧ m.rosters (.ofInts ints) = .error (.solver fault)) := by
  refine ⟨memberships_of_model h, ⟨fun ⟨teams, hteams⟩ => one_of_rosters h hteams, fun hone =>
    ⟨_, rosters_of_one h hone⟩⟩, fun teams hteams => ?_, fun hnone => ?_⟩
  · have hone := one_of_rosters h hteams
    cases hteams.symm.trans (rosters_of_one h hone)
    obtain ⟨nodes, compiled, c₀, ds, c, hbuilt⟩ := exists_built h
    have hperm := teamsOf_flatten_perm hone
    refine ⟨?_, hperm, (hperm.map _).nodup_iff.2 hbuilt.people.nodup⟩
    rw [teamsOf, divide, List.map_map]
    rfl
  · obtain ⟨before, p, after, hpeople, hbefore, hne, herror⟩ :=
      exists_misplaced h fun hone => hnone _ (rosters_of_one h hone)
    exact ⟨before, p, after, _, hpeople, hbefore, hne, rfl, rfl, herror⟩

/-- A value other than 0 and 1 puts nobody in a team, so that in the second case Bob is reported. -/
theorem rosters_of_model_pair : ∃ m, pair.model = .ok m ∧
    m.rosters (.ofInts [("x_a_0", 1), ("x_a_1", 7), ("x_b_0", 1)]) =
      .ok [[.str "a", .str "b"], []] ∧
    m.rosters (.ofInts [("x_a_0", 1), ("x_b_1", 7)]) = .error (.solver (.misplaced "b" 0)) := by
  obtain ⟨m, hm, htwo⟩ := exists_model_pair
  refine ⟨m, hm, ?_, ?_⟩
  · obtain ⟨-, haccepts, hteams, -⟩ :=
      rosters_of_model hm [("x_a_0", 1), ("x_a_1", 7), ("x_b_0", 1)]
    obtain ⟨teams, h⟩ := haccepts.2 (by rw [htwo]; decide)
    rw [h, (hteams teams h).1, htwo]
    rfl
  · obtain ⟨-, haccepts, -, hrefuses⟩ := rosters_of_model hm [("x_a_0", 1), ("x_b_1", 7)]
    obtain ⟨before, p, after, f, hpeople, hbefore, hne, hf, -, h⟩ := hrefuses fun teams h =>
      absurd (haccepts.1 ⟨teams, h⟩) (by rw [htwo]; decide)
    rw [h, hf, htwo]
    rw [htwo] at hne
    match before, hpeople with
    | [], hpeople =>
      cases hpeople
      exact absurd (by decide) hne
    | [_], hpeople =>
      cases hpeople
      rfl
    | _ :: _ :: rest, hpeople => simp [pair] at hpeople

end Request
end BalancedTeams
