import BalancedTeams.Proofs.Model.Assembly
import BalancedTeams.Proofs.Model.Balance
import BalancedTeams.Solver.Outcome

/-!
# Assignments and the teams they describe

* `IsSeating` : everybody is in one team, and the teams have the right sizes;
* `holds_iff_isSeating` : the constraints on teams and people say just that;
* `teamsOf` : the teams of a choice; `IsSeating.isBalanced`, `IsSeating.flatten_perm`;
* `AssignmentModel.rosters_eq` : they are the rosters that are read from values;
* `listed` : the members of a team in the order of the people;
* `IsBalanced.isSeating` : balanced teams seat everybody.
-/

namespace BalancedTeams

variable {people : List Person} {teams : Nat} {v : Text → Int}

/-! ## Constraints -/

theorem Terms.value_map {α : Type} (w : Int) (name : α → Text) {xs : List α}
    (hbit : ∀ a ∈ xs, IsBit (v (name a))) :
    Terms.value v (xs.map fun a => (w, name a)) = w * (xs.countP fun a => v (name a) == 1 : Nat) := by
  induction xs with
  | nil => simp [Terms.value_nil]
  | cons a xs ih =>
    obtain ⟨ha, hrest⟩ := List.forall_mem_cons.1 hbit
    rw [List.map_cons, Terms.value_cons, ih hrest, List.countP_cons]
    rcases ha with ha | ha
    · simp [ha]
    · simp [ha, Int.mul_add, Int.add_comm]

def chosen (v : Text → Int) (p : Person) (t : Int) : Bool := v (seatName (p, t)) == 1

/-- Everybody is in one team, and no team is too small or too large. -/
structure IsSeating (people : List Person) (teams : Nat) (chosen : Person → Int → Bool) : Prop where
  one : ∀ p ∈ people, (slots teams).countP (chosen p) = 1
  low : ∀ t ∈ slots teams, (sizeBounds people.length teams).1 ≤ people.countP (chosen · t)
  high : ∀ t ∈ slots teams, people.countP (chosen · t) ≤ (sizeBounds people.length teams).2

theorem holds_iff_isSeating (hbit : ∀ e ∈ seats people teams, IsBit (v (seatName e))) :
    (∀ k ∈ sizeConstraints (people.map (·.id.plain)) teams (slots teams) ++
      placeConstraints teams (people.map (·.id.plain)), k.holds v = true) ↔
      IsSeating people teams (chosen v) := by
  have hteam : ∀ t ∈ slots teams,
      Terms.value v (Compiler.teamTerms (people.map (·.id.plain)) t) =
        (people.countP (chosen v · t) : Nat) := by
    intro t ht
    have := Terms.value_map 1 (fun p => seatName (p, t))
      fun p hp => hbit (p, t) (mem_seats.2 ⟨hp, ht⟩)
    rw [Int.one_mul] at this
    rw [Compiler.teamTerms, List.map_map]
    exact this
  have hperson : ∀ p ∈ people,
      Terms.value v (Compiler.personTerms teams p.id.plain) =
        ((slots teams).countP (chosen v p) : Nat) := by
    intro p hp
    have := Terms.value_map 1 (fun t => seatName (p, t))
      fun t ht => hbit (p, t) (mem_seats.2 ⟨hp, ht⟩)
    rw [Int.one_mul] at this
    exact this
  simp only [List.forall_mem_append, sizeConstraints, List.forall_mem_flatMap, List.forall_mem_cons,
    List.not_mem_nil, false_implies, implies_true, and_true, holds_ge_iff, holds_le_iff,
    placeConstraints, List.forall_mem_map, holds_eq_iff, List.length_map]
  constructor
  · rintro ⟨hsizes, hplaces⟩
    refine ⟨fun p hp => ?_, fun t ht => ?_, fun t ht => ?_⟩
    · have := hplaces p hp
      rw [hperson p hp] at this
      exact_mod_cast this
    · have := (hsizes t ht).1
      rw [hteam t ht] at this
      exact_mod_cast this
    · have := (hsizes t ht).2
      rw [hteam t ht] at this
      exact_mod_cast this
  · rintro ⟨hone, hlow, hhigh⟩
    refine ⟨fun t ht => ?_, fun p hp => ?_⟩
    · rw [hteam t ht]
      exact ⟨by exact_mod_cast hlow t ht, by exact_mod_cast hhigh t ht⟩
    · rw [hperson p hp]
      exact_mod_cast hone p hp

/-! ## Teams of a choice -/

/-- The rosters of a choice, each in the order of the people. -/
def teamsOf (people : List Person) (teams : Nat) (chosen : Person → Int → Bool) : List Roster :=
  (divide chosen (slots teams) people).map (·.map Person.id)

theorem length_slots (n : Nat) : (slots n).length = n := by simp [slots]

/-- If everybody is in one team, the teams divide the people. -/
theorem teamsOf_flatten_perm {chosen : Person → Int → Bool}
    (h : ∀ p ∈ people, (slots teams).countP (chosen p) = 1) :
    (teamsOf people teams chosen).flatten.Perm (people.map Person.id) := by
  rw [teamsOf, ← List.map_flatten]
  exact (divide_flatten_perm h).map _

namespace IsSeating
variable {chosen : Person → Int → Bool}

theorem flatten_perm (h : IsSeating people teams chosen) :
    (teamsOf people teams chosen).flatten.Perm (people.map Person.id) := teamsOf_flatten_perm h.one

theorem isBalanced (h : IsSeating people teams chosen) (hteams : 0 < teams) :
    IsBalanced (people.map Person.id) teams (teamsOf people teams chosen) where
  length := by rw [teamsOf, divide, List.length_map, List.length_map, length_slots]
  members := h.flatten_perm.map _
  sizes := by
    intro team hteam
    rw [teamsOf, divide, List.map_map] at hteam
    obtain ⟨t, ht, rfl⟩ := List.mem_map.1 hteam
    have hlow := h.low t ht
    have hhigh := h.high t ht
    have hle := sizeBounds_snd_le people.length teams
    have hceil := sizeBounds_snd people.length hteams
    rw [List.countP_eq_length_filter] at hlow hhigh
    simp only [Function.comp_apply, List.length_map, sizeBounds] at *
    omega

theorem exists_filter_eq (h : IsSeating people teams chosen) {p : Person} (hp : p ∈ people) :
    ∃ t, (slots teams).filter (chosen p) = [t] := by
  have := h.one p hp
  rw [List.countP_eq_length_filter] at this
  exact List.length_eq_one_iff.1 this

end IsSeating

namespace IsSeating
variable {people : List Person} {teams : Nat} {c d : Person → Int → Bool}

theorem congr (h : IsSeating people teams c) (hcd : ∀ p ∈ people, ∀ t ∈ slots teams, c p t = d p t) :
    IsSeating people teams d := by
  have hteam : ∀ t ∈ slots teams, people.countP (c · t) = people.countP (d · t) :=
    fun t ht => List.countP_congr fun p hp => by rw [hcd p hp t ht]
  refine ⟨fun p hp => ?_, fun t ht => ?_, fun t ht => ?_⟩
  · rw [← h.one p hp]
    exact List.countP_congr fun t ht => by rw [hcd p hp t ht]
  · rw [← hteam t ht]
    exact h.low t ht
  · rw [← hteam t ht]
    exact h.high t ht

end IsSeating

theorem teamsOf_congr {people : List Person} {teams : Nat} {c d : Person → Int → Bool}
    (h : ∀ p ∈ people, ∀ t ∈ slots teams, c p t = d p t) :
    teamsOf people teams c = teamsOf people teams d := by
  refine congrArg (List.map (List.map Person.id)) (List.map_congr_left fun t ht => ?_)
  exact List.filter_congr fun p hp => h p hp t ht

/-! ## Rosters from values -/

namespace AssignmentModel
variable {m : AssignmentModel} {values : Values} {chosen : Person → Int → Bool}

/-- The rosters of values that choose one team for everybody. -/
theorem rosters_eq (hids : m.personIds = people.map Person.id)
    (hchosen : ∀ p ∈ people, ∀ t ∈ slots m.teamCount, m.isChosen values p.id t = .ok (chosen p t))
    (hone : ∀ p ∈ people, ∃ t, (slots m.teamCount).filter (chosen p) = [t]) :
    m.rosters values = .ok (teamsOf people m.teamCount chosen) := by
  have hslots : ∀ p ∈ people, m.chosenSlots values p.id = .ok ((slots m.teamCount).filter (chosen p)) :=
    fun p hp => filterM_eq_ok (hchosen p hp)
  have hplaced : m.placements values =
      .ok (people.map fun p => (p.id, ((slots m.teamCount).filter (chosen p)).headD 0)) := by
    rw [placements, hids, List.mapM_map]
    refine mapM_eq_ok fun p hp => ?_
    obtain ⟨t, ht⟩ := hone p hp
    simp only [Function.comp_apply, hslots p hp, ht]
    rfl
  rw [rosters, hplaced]
  refine congrArg Except.ok ?_
  rw [teamsOf, divide, List.map_map]
  refine List.map_congr_left fun t ht => ?_
  rw [List.filter_map, List.map_map]
  refine congrArg (List.map Person.id) (List.filter_congr fun p hp => ?_)
  obtain ⟨s, hs⟩ := hone p hp
  have hmem : t ∈ (slots m.teamCount).filter (chosen p) ↔ chosen p t = true := by
    rw [List.mem_filter, and_iff_right ht]
  rw [hs, List.mem_singleton] at hmem
  simp only [Function.comp_apply, hs, List.headD_cons]
  rw [Bool.eq_iff_iff, beq_iff_eq, ← hmem, eq_comm]

/-- The values of an assignment, as they are given for all variables. -/
def valuesOf (m : AssignmentModel) (v : Text → Int) : Values :=
  m.linear.vars.map fun x => (x.name, .int (v x.name))

theorem get?_valuesOf {x : Variable} (hx : x ∈ m.linear.vars) :
    (m.valuesOf v).get? x.name = some (.int (v x.name)) := by
  rw [Values.get?, Option.map_eq_some_iff]
  have hsome : ((m.valuesOf v).reverse.find? fun e => e.1 == x.name).isSome = true := by
    rw [List.find?_isSome]
    refine ⟨(x.name, .int (v x.name)), List.mem_reverse.2 ?_, beq_self_eq_true _⟩
    exact List.mem_map_of_mem hx
  obtain ⟨e, he⟩ := Option.isSome_iff_exists.1 hsome
  refine ⟨e, he, ?_⟩
  have hmem := List.mem_reverse.1 (List.mem_of_find?_eq_some he)
  obtain ⟨y, -, rfl⟩ := List.mem_map.1 hmem
  have hname : y.name = x.name := by
    have := List.find?_some he
    simpa using this
  rw [hname]

/-- Only what is read for the membership variable counts. -/
theorem isChosen_of_get? {p : Person} {t : Int} {k : Key} (hk : p.id.key? = some k)
    (hx : m.memberships.find? k t = some (seatName (p, t)))
    (hvalue : (values.get? (seatName (p, t))).getD (.int 0) = .int (v (seatName (p, t)))) :
    m.isChosen values p.id t = .ok (BalancedTeams.chosen v p t) := by
  rw [isChosen, key_eq_ok_iff.2 hk]
  simp only [bind, Except.bind, hx, hvalue]
  rfl

theorem isChosen_valuesOf {p : Person} {t : Int} {k : Key} (hk : p.id.key? = some k)
    (hx : m.memberships.find? k t = some (seatName (p, t)))
    (hvar : ∃ x ∈ m.linear.vars, x.name = seatName (p, t)) :
    m.isChosen (m.valuesOf v) p.id t = .ok (BalancedTeams.chosen v p t) := by
  obtain ⟨x, hmem, hname⟩ := hvar
  refine isChosen_of_get? hk hx ?_
  rw [← hname, get?_valuesOf hmem]
  rfl

end AssignmentModel

/-! ## Choices from rosters -/

theorem Roster.holds_iff {team : Roster} {k : Key} :
    team.holds k = true ↔ some k ∈ team.map Value.key? := by
  simp [Roster.holds]

/-- The ids of a team, in the order of all ids. -/
def listed (ids : List Value) (team : Roster) : Roster :=
  ids.filter fun id => id.key?.any team.holds

theorem listed_perm {ids : List Value} {team : Roster} (hids : DistinctKeys ids)
    (hteam : (team.map Value.key?).Nodup) (hsub : team.map Value.key? ⊆ ids.map Value.key?) :
    ((listed ids team).map Value.key?).Perm (team.map Value.key?) := by
  have hnodup : ((listed ids team).map Value.key?).Nodup :=
    hids.nodup.sublist (List.filter_sublist.map _)
  rw [List.perm_ext_iff_of_nodup hnodup hteam]
  intro o
  rw [List.mem_map]
  constructor
  · rintro ⟨id, hid, rfl⟩
    obtain ⟨hid, hholds⟩ := List.mem_filter.1 hid
    obtain ⟨k, hk⟩ := Option.isSome_iff_exists.1 (hids.keyed id hid)
    rw [hk, Option.any_some, Roster.holds_iff] at hholds
    rwa [hk]
  · intro ho
    obtain ⟨id, hid, rfl⟩ := List.mem_map.1 (hsub ho)
    obtain ⟨k, hk⟩ := Option.isSome_iff_exists.1 (hids.keyed id hid)
    refine ⟨id, List.mem_filter.2 ⟨hid, ?_⟩, rfl⟩
    rw [hk] at ho
    rwa [hk, Option.any_some, Roster.holds_iff]

def isIn (teams : List Roster) (p : Person) (t : Int) : Bool :=
  p.id.key?.any (teams.getD t.toNat []).holds

theorem map_slots_getD {α β : Type} (xs : List α) (d : α) (f : α → β) :
    (slots xs.length).map (fun t => f (xs.getD t.toNat d)) = xs.map f := by
  refine List.ext_getElem (by simp [slots]) fun i hi hi' => ?_
  rw [List.length_map] at hi'
  simp [slots, List.getD_eq_getElem?_getD, hi']

namespace IsBalanced
variable {rosters : List Roster} (h : IsBalanced (people.map Person.id) teams rosters)
  (hids : DistinctKeys (people.map Person.id))

include h

theorem subset_of_mem {team : Roster} (hteam : team ∈ rosters) :
    team.map Value.key? ⊆ (people.map Person.id).map Value.key? :=
  fun _ ho => h.members.subset ((List.sublist_flatten_of_mem hteam).map _ |>.subset ho)

/-- The rosters of the choice are the teams, each listed in the order of the people. -/
theorem teamsOf_isIn : teamsOf people teams (isIn rosters) =
    rosters.map (listed (people.map Person.id)) := by
  rw [teamsOf, divide, List.map_map, ← h.length,
    ← map_slots_getD rosters [] (listed (people.map Person.id))]
  refine List.map_congr_left fun t _ => ?_
  rw [listed, List.filter_map]
  rfl

include hids

theorem nodup_flatten : (rosters.flatten.map Value.key?).Nodup := h.members.nodup_iff.2 hids.nodup

theorem nodup_of_mem {team : Roster} (hteam : team ∈ rosters) : (team.map Value.key?).Nodup :=
  (h.nodup_flatten hids).sublist ((List.sublist_flatten_of_mem hteam).map _)

theorem listed_perm {team : Roster} (hteam : team ∈ rosters) :
    ((listed (people.map Person.id) team).map Value.key?).Perm (team.map Value.key?) :=
  BalancedTeams.listed_perm hids (h.nodup_of_mem hids hteam) (h.subset_of_mem hteam)

/-- Every person is in one of the teams: their key occurs once, and at most once in each. -/
theorem countP_holds {p : Person} {k : Key} (hp : p ∈ people) (hk : p.id.key? = some k) :
    rosters.countP (·.holds k) = 1 := by
  have hsum : (rosters.map fun team => (team.map Value.key?).count (some k)).sum = 1 := by
    have hmem : some k ∈ (people.map Person.id).map Value.key? :=
      List.mem_map.2 ⟨p.id, List.mem_map_of_mem hp, hk⟩
    have hone := List.count_eq_one_of_mem (h.nodup_flatten hids) (h.members.mem_iff.2 hmem)
    rwa [List.map_flatten, List.count_flatten, List.map_map] at hone
  have hsmall : ∀ n ∈ rosters.map fun team => (team.map Value.key?).count (some k),
      n = 0 ∨ n = 0 + 1 := by
    intro n hn
    obtain ⟨team, hteam, rfl⟩ := List.mem_map.1 hn
    have := List.nodup_iff_count_le_one.1 (h.nodup_of_mem hids hteam) (some k)
    omega
  rw [sum_eq_add_countP hsmall, Nat.zero_mul, Nat.zero_add, List.countP_map] at hsum
  refine (List.countP_congr fun team hteam => ?_).trans hsum
  rw [Roster.holds_iff, ← List.count_pos_iff, Function.comp_apply, beq_iff_eq]
  have := List.nodup_iff_count_le_one.1 (h.nodup_of_mem hids hteam) (some k)
  omega

theorem isSeating (hteams : 0 < teams) : IsSeating people teams (isIn rosters) := by
  have hsize : ∀ t ∈ slots teams, people.countP (isIn rosters · t) = people.length / teams ∨
      people.countP (isIn rosters · t) = (people.length + teams - 1) / teams := by
    intro t ht
    obtain ⟨i, hi, rfl⟩ := List.mem_map.1 ht
    have hmem : rosters.getD i [] ∈ rosters := by
      have hlt : i < rosters.length := h.length ▸ List.mem_range.1 hi
      rw [List.getD_eq_getElem?_getD, List.getElem?_eq_getElem hlt, Option.getD_some]
      exact List.getElem_mem hlt
    have hlength : people.countP (isIn rosters · i) = (rosters.getD i []).length := by
      have := (h.listed_perm hids hmem).length_eq
      rw [List.length_map, List.length_map, listed, List.filter_map, List.length_map] at this
      rw [List.countP_eq_length_filter, ← this]
      rfl
    have := h.sizes _ hmem
    rw [List.length_map] at this
    rwa [Int.ofNat_eq_natCast, hlength]
  have hceil := sizeBounds_snd people.length hteams
  have hle := div_le_sizeBounds_snd people.length teams
  refine ⟨fun p hp => ?_, fun t ht => ?_, fun t ht => ?_⟩
  · obtain ⟨k, hk⟩ := Option.isSome_iff_exists.1 (hids.keyed_map _ hp)
    rw [← h.countP_holds hids hp hk]
    have := congrArg (List.countP id) (map_slots_getD rosters [] fun team => team.holds k)
    rw [List.countP_map, List.countP_map, h.length] at this
    refine Eq.trans (List.countP_congr fun t _ => ?_) this
    rw [isIn, hk, Option.any_some]
    rfl
  · have := hsize t ht
    simp only [sizeBounds]
    omega
  · have := hsize t ht
    omega

end IsBalanced

/-- A choice can be told from its rosters. -/
theorem teamsOf_inj {c d : Person → Int → Bool} (hids : DistinctKeys (people.map Person.id))
    (h : teamsOf people teams c = teamsOf people teams d) :
    ∀ p ∈ people, ∀ t ∈ slots teams, c p t = d p t := by
  rw [teamsOf, teamsOf, divide, divide, List.map_map, List.map_map] at h
  intro p hp t ht
  have hteam := List.map_inj_left.1 h t ht
  have hmem : ∀ e : Person → Int → Bool,
      p.id ∈ (people.filter (e · t)).map Person.id ↔ e p t = true := by
    intro e
    rw [List.mem_map]
    constructor
    · rintro ⟨q, hq, hid⟩
      obtain ⟨hq, he⟩ := List.mem_filter.1 hq
      rwa [← List.inj_on_of_nodup_map hids.nodup_ids hq hp hid]
    · intro he
      exact ⟨p, List.mem_filter.2 ⟨hp, he⟩, rfl⟩
  rw [Bool.eq_iff_iff, ← hmem c, ← hmem d]
  exact Eq.to_iff (congrArg (p.id ∈ ·) hteam)

end BalancedTeams
