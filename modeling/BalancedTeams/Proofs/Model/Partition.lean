import BalancedTeams.Proofs.Model.Balance
import Mathlib.Data.Int.CardIntervalMod

/-!
# A balanced division of every list

* `roundRobin` : the ids go to the teams in turn;
* `isBalanced_roundRobin` : the teams are balanced, however many there are.
-/

namespace BalancedTeams

/-- The teams that take one id after the other, in turn. -/
def roundRobin (ids : List Value) (n : Nat) : List Roster :=
  (divide (fun (e : Value × Nat) t => t == e.2 % n) (List.range n) ids.zipIdx).map (·.map Prod.fst)

variable {ids : List Value} {n : Nat}

theorem flatten_roundRobin_perm (ids : List Value) (hn : 0 < n) :
    (roundRobin ids n).flatten.Perm ids := by
  classical
  have hone : ∀ e ∈ ids.zipIdx, (List.range n).countP (fun t => t == e.2 % n) = 1 := by
    intro e _
    exact List.count_eq_one_of_mem List.nodup_range (List.mem_range.2 (Nat.mod_lt _ hn))
  have hperm := (divide_flatten_perm hone).map Prod.fst
  rw [List.zipIdx_map_fst, List.map_flatten] at hperm
  exact hperm

theorem countP_turn (hn : 0 < n) {t : Nat} (ht : t < n) (k : Nat) :
    (List.range k).countP (fun i => t == i % n) = k / n + if t < k % n then 1 else 0 := by
  have hcount := Nat.count_modEq_card k hn t
  rw [Nat.mod_eq_of_lt ht] at hcount
  rw [← hcount, Nat.count]
  refine List.countP_congr fun i _ => ?_
  rw [beq_iff_eq, decide_eq_true_eq, Nat.ModEq, Nat.mod_eq_of_lt ht, eq_comm]

theorem isBalanced_roundRobin (ids : List Value) (hn : 0 < n) :
    IsBalanced ids n (roundRobin ids n) where
  length := by
    unfold roundRobin divide
    rw [List.length_map, List.length_map, List.length_range]
  members := (flatten_roundRobin_perm ids hn).map _
  sizes := by
    intro team hteam
    unfold roundRobin divide at hteam
    rw [List.map_map] at hteam
    obtain ⟨t, ht, rfl⟩ := List.mem_map.1 hteam
    have hsize : (ids.zipIdx.filter fun e => t == e.2 % n).length =
        ids.length / n + if t < ids.length % n then 1 else 0 := by
      rw [← countP_turn hn (List.mem_range.1 ht), ← List.countP_eq_length_filter]
      have hsnd : ids.zipIdx.map Prod.snd = List.range ids.length := by
        rw [List.zipIdx_map_snd, List.range_eq_range']
      rw [← hsnd, List.countP_map]
      rfl
    have hceil := sizeBounds_snd ids.length hn
    unfold sizeBounds at hceil
    rw [Function.comp_apply, List.length_map, hsize]
    dsimp only at hceil
    split at hceil <;> split <;> omega

end BalancedTeams
