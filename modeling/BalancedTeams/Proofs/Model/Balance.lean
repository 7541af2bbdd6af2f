import BalancedTeams.Model
import Mathlib.Algebra.BigOperators.Group.List.Basic
import Mathlib.Algebra.Ring.Nat
import Mathlib.Data.List.Perm.Basic

/-!
# Divisions into teams of nearly equal size

* `divide` : for every team the items that are chosen for it;
* `divide_flatten_perm` : where every item is chosen for one team, the teams hold the items;
* `IsBalanced` : rosters that hold every id once, of sizes that differ by at most one;
* `IsBalanced.countP_larger` : how many of them are the larger ones.
-/

namespace BalancedTeams

/-! ## Dividing a list -/

section
variable {α β : Type}

/-- For every team the items that are chosen for it, in their order. -/
def divide (chosen : α → β → Bool) (teams : List β) (items : List α) : List (List α) :=
  teams.map fun t => items.filter (chosen · t)

theorem divide_flatten_perm [DecidableEq α] {chosen : α → β → Bool} {teams : List β}
    {items : List α} (h : ∀ a ∈ items, teams.countP (chosen a) = 1) :
    (divide chosen teams items).flatten.Perm items := by
  rw [List.perm_iff_count]
  intro a
  have hcount : ∀ ts : List β,
      (divide chosen ts items).flatten.count a = items.count a * ts.countP (chosen a) := by
    intro ts
    induction ts with
    | nil => rfl
    | cons t ts ih =>
      rw [divide, List.map_cons, List.flatten_cons, List.count_append, ← divide, ih,
        List.countP_cons, Nat.mul_add, Nat.add_comm]
      by_cases hat : chosen a t = true
      · rw [List.count_filter (p := (chosen · t)) hat, if_pos hat, Nat.mul_one]
      · have hnot : a ∉ items.filter (chosen · t) := fun hmem => hat (List.mem_filter.1 hmem).2
        rw [List.count_eq_zero_of_not_mem hnot, if_neg hat, Nat.mul_zero]
  rw [hcount]
  by_cases ha : a ∈ items
  · rw [h a ha, Nat.mul_one]
  · rw [List.count_eq_zero_of_not_mem ha, Nat.zero_mul]

end

/-! ## Sizes -/

theorem sum_eq_add_countP {q : Nat} {sizes : List Nat} (h : ∀ n ∈ sizes, n = q ∨ n = q + 1) :
    sizes.sum = q * sizes.length + sizes.countP (· == q + 1) := by
  induction sizes with
  | nil => rfl
  | cons n sizes ih =>
    obtain ⟨hn, hrest⟩ := List.forall_mem_cons.1 h
    rw [List.sum_cons, ih hrest, List.countP_cons, List.length_cons, Nat.mul_succ]
    rcases hn with rfl | rfl
    · rw [if_neg (by simp)]
      omega
    · rw [if_pos (by simp)]
      omega

/-- The greatest size is the quotient rounded up. -/
theorem sizeBounds_snd (people : Nat) {teams : Nat} (h : 0 < teams) :
    (sizeBounds people teams).2 = (people + teams - 1) / teams := by
  have hdiv := Nat.div_add_mod people teams
  have hlt := Nat.mod_lt people h
  unfold sizeBounds
  dsimp only
  split
  · next h0 =>
    refine (Nat.div_eq_of_lt_le ?_ ?_).symm
    · rw [Nat.mul_comm]
      omega
    · rw [Nat.succ_mul, Nat.mul_comm]
      omega
  · next h0 =>
    refine (Nat.div_eq_of_lt_le ?_ ?_).symm
    · rw [Nat.succ_mul, Nat.mul_comm]
      omega
    · rw [Nat.succ_mul, Nat.succ_mul, Nat.mul_comm]
      omega

theorem sizeBounds_snd_le (people teams : Nat) :
    (sizeBounds people teams).2 ≤ people / teams + 1 := by
  unfold sizeBounds
  dsimp only
  split <;> omega

theorem div_le_sizeBounds_snd (people teams : Nat) :
    people / teams ≤ (sizeBounds people teams).2 := by
  unfold sizeBounds
  dsimp only
  split <;> omega

/-! ## Rosters -/

/-- Teams that hold every id once, each of the size `ids.length / n`, rounded down or up. -/
structure IsBalanced (ids : List Value) (n : Nat) (teams : List Roster) : Prop where
  length : teams.length = n
  members : (teams.flatten.map Value.key?).Perm (ids.map Value.key?)
  sizes : ∀ team ∈ teams,
    team.length = ids.length / n ∨ team.length = (ids.length + n - 1) / n

namespace IsBalanced
variable {ids : List Value} {n : Nat} {teams : List Roster}

theorem sum_length (h : IsBalanced ids n teams) : (teams.map List.length).sum = ids.length := by
  have := h.members.length_eq
  rwa [List.length_map, List.length_map, List.length_flatten] at this

/-- As many teams are larger as there are ids left over. -/
theorem countP_larger (h : IsBalanced ids n teams) (hn : 0 < n) :
    teams.countP (fun team => team.length == ids.length / n + 1) = ids.length % n := by
  have hsizes : ∀ k ∈ teams.map List.length, k = ids.length / n ∨ k = ids.length / n + 1 := by
    intro k hk
    obtain ⟨team, hteam, rfl⟩ := List.mem_map.1 hk
    have hceil := sizeBounds_snd ids.length hn
    have hle := sizeBounds_snd_le ids.length n
    have hge := div_le_sizeBounds_snd ids.length n
    rcases h.sizes team hteam with h | h <;> omega
  have hsum := sum_eq_add_countP hsizes
  rw [h.sum_length, List.length_map, h.length, List.countP_map] at hsum
  have hdiv := Nat.div_add_mod ids.length n
  rw [Nat.mul_comm] at hdiv
  have hcount : ids.length % n =
      teams.countP ((fun k => k == ids.length / n + 1) ∘ List.length) := by omega
  exact hcount.symm

theorem of_perm {ids' : List Value} (h : IsBalanced ids n teams) (hperm : ids.Perm ids') :
    IsBalanced ids' n teams where
  length := h.length
  members := h.members.trans (hperm.map _)
  sizes := hperm.length_eq ▸ h.sizes

end IsBalanced
end BalancedTeams
