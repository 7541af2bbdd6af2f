import BalancedTeams.Model
import Mathlib.Data.List.Basic
import Std.Data.String.ToInt

/-!
# Names of variables

* `indicatorName_inj`, `membershipName_inj` : a name tells what it was made from, since the number of
  the team has no underscore;
* `indicatorName_ne_trueName`, `membershipName_ne_trueName`, `membershipName_ne_indicatorName` :
  names of different kinds are different.
-/

namespace BalancedTeams

theorem ofString_inj {s t : String} : Text.ofString s = Text.ofString t ↔ s = t := by
  constructor
  · intro h
    have := congrArg Text.encode h
    rwa [Text.encode_ofString, Text.encode_ofString, Except.ok.injEq] at this
  · rintro rfl
    rfl

theorem underscore_not_mem_toString (n : Int) : CodePoint.char '_' ∉ Text.ofString (toString n) := by
  have hdigits : ∀ k : Nat, '_' ∉ k.repr.toList := by
    intro k
    rw [Nat.toList_repr]
    exact Nat.underscore_not_in_toDigits
  rw [Int.toString_eq_repr, Int.repr_eq_if, Text.ofString, List.mem_map]
  rintro ⟨c, hc, hchar⟩
  cases hchar
  split at hc
  · exact hdigits _ hc
  · rw [String.toList_append, List.mem_append] at hc
    rcases hc with hc | hc
    · simp at hc
    · exact hdigits _ hc

theorem append_cons_inj_right {α : Type} [DecidableEq α] {a : α} {xs ys us vs : List α} (hys : a ∉ ys)
    (hvs : a ∉ vs) (h : xs ++ a :: ys = us ++ a :: vs) : xs = us ∧ ys = vs := by
  have htail : ∀ (ps : List α) {qs : List α}, a ∉ qs →
      (ps ++ a :: qs).reverse.takeWhile (· != a) = qs.reverse := by
    intro ps qs hqs
    rw [List.reverse_append, List.reverse_cons, List.append_assoc, List.takeWhile_append_of_pos]
    · simp
    · intro x hx
      simp only [bne_iff_ne, ne_eq]
      rintro rfl
      exact hqs (List.mem_reverse.1 hx)
  have hsuffix : ys = vs := by
    rw [← List.reverse_inj, ← htail xs hys, h, htail us hvs]
  subst hsuffix
  exact ⟨List.append_cancel_right h, rfl⟩

/-- A name that ends in an underscore and the number of a team. -/
theorem name_inj {s t : Text} {m n : Int}
    (h : s ++ ("_" : String) ++ Text.ofString (toString m) =
      t ++ ("_" : String) ++ Text.ofString (toString n)) : s = t ∧ m = n := by
  rw [List.append_assoc, List.append_assoc] at h
  obtain ⟨hs, hm⟩ := append_cons_inj_right (underscore_not_mem_toString m)
    (underscore_not_mem_toString n) h
  rw [ofString_inj, Int.toString_eq_repr, Int.toString_eq_repr, Int.repr_inj] at hm
  exact ⟨hs, hm⟩

theorem membershipName_inj {p q : Text} {s t : Int} (h : membershipName p s = membershipName q t) :
    p = q ∧ s = t := by
  obtain ⟨hpq, hst⟩ := name_inj h
  exact ⟨List.append_cancel_left hpq, hst⟩

namespace Compiler

theorem indicatorName_inj {l k : String} {s t : Int} (h : indicatorName l s = indicatorName k t) :
    l = k ∧ s = t := by
  obtain ⟨hlk, hst⟩ := name_inj h
  exact ⟨ofString_inj.1 (List.append_cancel_left hlk), hst⟩

theorem indicatorName_ne_trueName (l : String) (slot : Int) : indicatorName l slot ≠ trueName := by
  intro h
  have := congrArg List.head? h
  simp [indicatorName, trueName, Text.ofString] at this

theorem membershipName_ne_trueName (p : Text) (slot : Int) : membershipName p slot ≠ trueName := by
  intro h
  have := congrArg List.head? h
  simp [membershipName, trueName, Text.ofString] at this

theorem membershipName_ne_indicatorName (p : Text) (l : String) (s t : Int) :
    membershipName p s ≠ indicatorName l t := by
  intro h
  have := congrArg List.head? h
  simp [membershipName, indicatorName, Text.ofString] at this

end Compiler
end BalancedTeams
