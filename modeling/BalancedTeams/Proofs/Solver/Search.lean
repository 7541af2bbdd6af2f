import BalancedTeams.Proofs.Solver.Running
import BalancedTeams.Solver.Exhaustive
import Mathlib.Data.List.Forall2

/-!
# The search through all assignments

* `Search.IsBest` : the best of the assignments seen so far (`Search.isBest_foldl`);
* `Search.completions` : the assignments that the search comes to (`Search.explore_eq_foldl`);
* `Search.mem_completions_iff` : they are the assignments within the bounds that pass all checks;
* `Search.decides_verdict` : the search decides every program;
* `Solver.handles_exhaustive` : so it handles every well-formed model.
-/

namespace BalancedTeams

variable {p : Program}

theorem Program.AtLeast.refl (p : Program) (a : Int) : p.AtLeast a a := by
  unfold AtLeast
  split <;> exact Int.le_refl a

theorem Program.AtLeast.trans {a b c : Int} (hab : p.AtLeast a b) (hbc : p.AtLeast b c) :
    p.AtLeast a c := by
  unfold AtLeast at *
  split <;> simp_all <;> omega

namespace Search

/-! ## The best of a list -/

/-- The best of the assignments that were seen. -/
def IsBest (p : Program) (seen : List (Array Int)) : Best → Prop
  | none => seen = []
  | some (w, xs) => xs ∈ seen ∧ w = p.objective.value xs ∧
      ∀ ys ∈ seen, p.AtLeast w (p.objective.value ys)

theorem improve_cases (p : Program) (w : Int) (xs ys : Array Int) :
    (p.AtLeast (p.objective.value ys) w ∧
        improve p (some (w, xs)) ys = some (p.objective.value ys, ys)) ∨
      (p.AtLeast w (p.objective.value ys) ∧ improve p (some (w, xs)) ys = some (w, xs)) := by
  unfold Program.AtLeast improve
  dsimp only
  split
  · next hmax =>
    by_cases hlt : w < p.objective.value ys
    · exact Or.inl ⟨Int.le_of_lt hlt, if_pos hlt⟩
    · exact Or.inr ⟨Int.not_lt.1 hlt, if_neg hlt⟩
  · next hmin =>
    by_cases hlt : p.objective.value ys < w
    · exact Or.inl ⟨Int.le_of_lt hlt, if_pos hlt⟩
    · exact Or.inr ⟨Int.not_lt.1 hlt, if_neg hlt⟩

theorem IsBest.improve {seen : List (Array Int)} {best : Best} (h : IsBest p seen best)
    (ys : Array Int) : IsBest p (seen ++ [ys]) (improve p best ys) := by
  match best, h with
  | none, h =>
    have hseen : seen = [] := h
    subst hseen
    refine ⟨List.mem_singleton_self ys, rfl, fun zs hzs => ?_⟩
    exact List.mem_singleton.1 hzs ▸ .refl p _
  | some (w, xs), ⟨hmem, hw, hall⟩ =>
    rcases improve_cases p w xs ys with ⟨hnew, heq⟩ | ⟨hold, heq⟩
    · rw [heq]
      refine ⟨List.mem_append_right _ (List.mem_singleton_self ys), rfl, fun zs hzs => ?_⟩
      rcases List.mem_append.1 hzs with hzs | hzs
      · exact hnew.trans (hall zs hzs)
      · exact List.mem_singleton.1 hzs ▸ .refl p _
    · rw [heq]
      refine ⟨List.mem_append_left _ hmem, hw, fun zs hzs => ?_⟩
      rcases List.mem_append.1 hzs with hzs | hzs
      · exact hall zs hzs
      · exact List.mem_singleton.1 hzs ▸ hold

theorem isBest_foldl (p : Program) (xss : List (Array Int)) :
    IsBest p xss (xss.foldl (improve p) none) := by
  have hstep : ∀ (seen : List (Array Int)) (best : Best), IsBest p seen best →
      IsBest p (seen ++ xss) (xss.foldl (improve p) best) := by
    induction xss with
    | nil => exact fun seen best h => (List.append_nil seen).symm ▸ h
    | cons xs xss ih =>
      intro seen best h
      rw [List.foldl_cons, List.append_cons]
      exact ih _ _ (h.improve xs)
  exact hstep [] none rfl

/-! ## Completions -/

/-- The assignments that continue `xs` with values for the remaining variables and pass the checks of
these, in the order in which they are tried. -/
def completions : List Level → Array Int → List (Array Int)
  | [], xs => [xs]
  | l :: rest, xs => (range l.low l.high).flatMap fun v =>
    if l.checks.all (IndexConstraint.holds (xs.push v)) then completions rest (xs.push v) else []

theorem explore_eq_foldl (p : Program) (levels : List Level) (xs : Array Int) (best : Best) :
    explore p levels xs best = (completions levels xs).foldl (improve p) best := by
  induction levels generalizing xs best with
  | nil => rfl
  | cons l rest ih =>
    unfold explore completions
    rw [List.foldl_flatMap]
    congr 1
    funext b v
    dsimp only
    split
    · exact ih _ _
    · rfl

theorem mem_range {low high v : Int} : v ∈ range low high ↔ low ≤ v ∧ v ≤ high := by
  unfold range
  rw [List.mem_map]
  constructor
  · rintro ⟨i, hi, rfl⟩
    rw [List.mem_range] at hi
    simp only [Int.ofNat_eq_natCast]
    omega
  · intro h
    refine ⟨(v - low).toNat, ?_, ?_⟩
    · rw [List.mem_range]
      omega
    · simp only [Int.ofNat_eq_natCast]
      omega

/-! ## When a constraint is decided -/

theorem value_append {xs : Array Int} {terms : IndexTerms} (ys : Array Int)
    (h : ∀ t ∈ terms, t.2 < xs.size) : terms.value (xs ++ ys) = terms.value xs := by
  induction terms with
  | nil => rfl
  | cons t terms ih =>
    obtain ⟨ht, hrest⟩ := List.forall_mem_cons.1 h
    have hvalue := ih hrest
    unfold IndexTerms.value at hvalue ⊢
    rw [List.foldr_cons, List.foldr_cons, hvalue]
    simp [Array.getD_eq_getD_getElem?, Array.getElem?_append_left ht]

theorem lt_foldl_max {terms : IndexTerms} {t : Int × Nat} (ht : t ∈ terms) (n : Nat) :
    t.2 < terms.foldl (fun n t => max n (t.2 + 1)) n := by
  have hle : ∀ (us : IndexTerms) (n : Nat), n ≤ us.foldl (fun n t => max n (t.2 + 1)) n := by
    intro us
    induction us with
    | nil => exact fun n => Nat.le_refl n
    | cons u us ih => exact fun n => Nat.le_trans (Nat.le_max_left _ _) (ih _)
  induction terms generalizing n with
  | nil => cases ht
  | cons u terms ih =>
    rw [List.foldl_cons]
    rcases List.mem_cons.1 ht with rfl | ht
    · exact Nat.lt_of_lt_of_le (Nat.lt_of_lt_of_le (Nat.lt_succ_self _) (Nat.le_max_right _ _))
        (hle terms _)
    · exact ih ht _

theorem lastVariable_le (p : Program) (c : IndexConstraint) : lastVariable p c ≤ p.bounds.length :=
  Nat.min_le_left _ _

/-- Once the last variable of a constraint has a value, the remaining ones do not matter. -/
theorem holds_append {c : IndexConstraint} {xs : Array Int} {vs : List Int}
    (hc : lastVariable p c ≤ xs.size) (hsize : xs.size + vs.length = p.bounds.length) :
    c.holds (xs ++ vs.toArray) = c.holds xs := by
  by_cases hnil : vs = []
  · rw [hnil, Array.append_empty]
  · have hlength := List.length_pos_of_ne_nil hnil
    unfold lastVariable at hc
    unfold IndexConstraint.holds
    rw [value_append vs.toArray]
    intro t ht
    have := lt_foldl_max ht 0
    omega

/-- The levels are those of the variables from `k` on: the checks of each can be decided once it has
a value. -/
def InStep (p : Program) : Nat → List Level → Prop
  | k, [] => k = p.bounds.length
  | k, l :: rest => (∀ c ∈ l.checks, lastVariable p c ≤ k + 1) ∧ InStep p (k + 1) rest

theorem InStep.add_length {levels : List Level} {k : Nat} (h : InStep p k levels) :
    k + levels.length = p.bounds.length := by
  induction levels generalizing k with
  | nil => exact h
  | cons l rest ih =>
    have := ih h.2
    rw [List.length_cons]
    omega

/-- The values are within the bounds of the levels. -/
def Within (levels : List Level) (vs : List Int) : Prop :=
  List.Forall₂ (fun l v => l.low ≤ v ∧ v ≤ l.high) levels vs

theorem mem_completions_cons {l : Level} {rest : List Level} {xs ys : Array Int} :
    ys ∈ completions (l :: rest) xs ↔ ∃ v, (l.low ≤ v ∧ v ≤ l.high) ∧
      (∀ c ∈ l.checks, c.holds (xs.push v) = true) ∧ ys ∈ completions rest (xs.push v) := by
  show ys ∈ List.flatMap _ _ ↔ _
  rw [List.mem_flatMap]
  refine exists_congr fun v => ?_
  rw [mem_range, ← List.all_eq_true]
  refine and_congr_right fun _ => ?_
  split
  · next hchecks => exact ⟨fun hys => ⟨hchecks, hys⟩, fun h => h.2⟩
  · next hchecks => exact ⟨nofun, fun h => absurd h.1 hchecks⟩

/-- The checks of a level are decided by its prefix of the whole assignment. -/
theorem InStep.holds_append {l : Level} {rest : List Level} {xs : Array Int}
    (h : InStep p xs.size (l :: rest)) {v : Int} {vs : List Int} (hvs : Within rest vs) :
    ∀ c ∈ l.checks, c.holds (xs.push v ++ vs.toArray) = c.holds (xs.push v) := by
  intro c hc
  have hlength := h.2.add_length
  rw [hvs.length_eq] at hlength
  refine Search.holds_append (p := p) ?_ ?_
  · rw [Array.size_push]
    exact h.1 c hc
  · rwa [Array.size_push]

/-- The search comes to the assignments within the bounds that pass all checks. -/
theorem mem_completions_iff {levels : List Level} {xs ys : Array Int}
    (h : InStep p xs.size levels) : ys ∈ completions levels xs ↔
      ∃ vs, ys = xs ++ vs.toArray ∧ Within levels vs ∧
        ∀ l ∈ levels, ∀ c ∈ l.checks, c.holds ys = true := by
  induction levels generalizing xs ys with
  | nil =>
    unfold completions
    rw [List.mem_singleton]
    constructor
    · rintro rfl
      exact ⟨[], Array.append_empty.symm, .nil, nofun⟩
    · rintro ⟨vs, rfl, hvs, -⟩
      cases hvs
      exact Array.append_empty
  | cons l rest ih =>
    have hstep : ∀ v, InStep p (xs.push v).size rest := fun v => by
      rw [Array.size_push]
      exact h.2
    have happend : ∀ v vs, xs ++ (v :: vs : List Int).toArray = xs.push v ++ vs.toArray := by
      intro v vs
      apply Array.toList_inj.1
      simp
    rw [mem_completions_cons]
    constructor
    · rintro ⟨v, hv, hchecks, hys⟩
      obtain ⟨vs, rfl, hvs, hall⟩ := (ih (hstep v)).1 hys
      refine ⟨v :: vs, (happend v vs).symm, .cons hv hvs, ?_⟩
      rw [List.forall_mem_cons]
      exact ⟨fun c hc => (h.holds_append hvs c hc).trans (hchecks c hc), hall⟩
    · rintro ⟨vs, rfl, hvs, hall⟩
      cases hvs with
      | @cons _ v _ vs hv hvs =>
        rw [happend v vs] at hall ⊢
        rw [List.forall_mem_cons] at hall
        refine ⟨v, hv, fun c hc => ?_, (ih (hstep v)).2 ⟨vs, rfl, hvs, hall.2⟩⟩
        exact (h.holds_append hvs c hc).symm.trans (hall.1 c hc)

/-! ## All assignments -/

theorem inStep_levels (p : Program) : InStep p 0 (levels p) := by
  have hstep : ∀ (bs : List (Int × Int)) (k : Nat), k + bs.length = p.bounds.length →
      InStep p k ((bs.zipIdx k).map fun b =>
        ⟨b.1.1, b.1.2, p.constraints.filter fun c => lastVariable p c == b.2 + 1⟩) := by
    intro bs
    induction bs with
    | nil => exact fun k hk => hk
    | cons b bs ih =>
      intro k hk
      rw [List.zipIdx_cons, List.map_cons]
      refine ⟨fun c hc => ?_, ih (k + 1) ?_⟩
      · have := (List.mem_filter.1 hc).2
        rw [beq_iff_eq] at this
        exact Nat.le_of_eq this
      · rw [List.length_cons] at hk
        omega
  exact hstep p.bounds 0 (Nat.zero_add _)

theorem forall_checks_iff {q : IndexConstraint → Prop} :
    (∀ l ∈ levels p, ∀ c ∈ l.checks, q c) ↔
      ∀ c ∈ p.constraints, lastVariable p c ≠ 0 → q c := by
  constructor
  · intro h c hc hlast
    obtain ⟨k, hk⟩ := Nat.exists_eq_succ_of_ne_zero hlast
    have hlt : k < p.bounds.length := by
      have := lastVariable_le p c
      omega
    refine h _ (List.mem_map.2 ⟨(p.bounds[k], k), ?_, rfl⟩) c ?_
    · rw [List.mem_zipIdx_iff_getElem?]
      exact List.getElem?_eq_getElem hlt
    · exact List.mem_filter.2 ⟨hc, beq_iff_eq.2 hk⟩
  · intro h l hl c hc
    obtain ⟨b, -, rfl⟩ := List.mem_map.1 hl
    obtain ⟨hc, hlast⟩ := List.mem_filter.1 hc
    rw [beq_iff_eq] at hlast
    exact h c hc (by omega)

theorem within_levels_iff {vs : List Int} : Within (levels p) vs ↔
    vs.length = p.bounds.length ∧ ∀ i (h : i < p.bounds.length),
      p.bounds[i].1 ≤ vs.toArray.getD i 0 ∧ vs.toArray.getD i 0 ≤ p.bounds[i].2 := by
  unfold Within
  rw [List.forall₂_iff_get]
  simp only [levels, List.length_map, List.length_zipIdx, List.get_eq_getElem, List.getElem_map,
    List.getElem_zipIdx, Array.getD_eq_getD_getElem?, List.getElem?_toArray]
  rw [eq_comm (a := p.bounds.length)]
  refine and_congr_right fun hlength => forall_congr' fun i => ?_
  constructor
  · intro h hi
    have hi' : i < vs.length := hlength ▸ hi
    rw [List.getElem?_eq_getElem hi', Option.getD_some]
    exact h hi hi'
  · intro h hi hi'
    have := h hi
    rwa [List.getElem?_eq_getElem hi', Option.getD_some] at this

/-- A constraint without variables is decided before the search. -/
theorem holds_of_lastVariable_eq_zero {c : IndexConstraint} {vs : List Int}
    (hlast : lastVariable p c = 0) (hsize : vs.length = p.bounds.length) :
    c.holds vs.toArray = c.holds #[] := by
  have hdecided : c.holds (#[] ++ vs.toArray) = c.holds #[] :=
    holds_append (p := p) (Nat.le_of_eq hlast) ((Nat.zero_add _).trans hsize)
  rwa [Array.empty_append] at hdecided

/-- The search comes to the feasible assignments, if the constraints without variables hold. -/
theorem feasible_iff {ys : Array Int} : p.Feasible ys ↔
    (∀ c ∈ p.constraints, lastVariable p c = 0 → c.holds #[] = true) ∧
      ys ∈ completions (levels p) #[] := by
  rw [mem_completions_iff (inStep_levels p)]
  simp only [forall_checks_iff, within_levels_iff, Array.empty_append]
  constructor
  · intro h
    obtain ⟨hsize, hbounds, hcs⟩ := h
    rw [← Array.length_toList] at hsize
    refine ⟨fun c hc hlast => ?_, ys.toList, rfl, ⟨hsize, hbounds⟩, fun c hc _ => hcs c hc⟩
    rw [← holds_of_lastVariable_eq_zero hlast hsize]
    exact hcs c hc
  · rintro ⟨hfirst, vs, rfl, ⟨hsize, hbounds⟩, hcs⟩
    refine ⟨hsize, hbounds, fun c hc => ?_⟩
    by_cases hlast : lastVariable p c = 0
    · rw [holds_of_lastVariable_eq_zero hlast hsize]
      exact hfirst c hc hlast
    · exact hcs c hc hlast

/-- **The search through all assignments decides every program.** -/
theorem decides_verdict (p : Program) : (verdict p).Decides p := by
  have hfirst : (p.constraints.filter fun c => lastVariable p c == 0).all
      (IndexConstraint.holds #[]) = true ↔
        ∀ c ∈ p.constraints, lastVariable p c = 0 → c.holds #[] = true := by
    simp only [List.all_eq_true, List.mem_filter, beq_iff_eq, and_imp]
  have hbest := isBest_foldl p (completions (levels p) #[])
  rw [← explore_eq_foldl] at hbest
  unfold verdict
  by_cases h : ∀ c ∈ p.constraints, lastVariable p c = 0 → c.holds #[] = true
  · rw [if_pos (hfirst.2 h)]
    cases hrun : explore p (levels p) #[] none with
    | none =>
      rw [hrun] at hbest
      have hnone : completions (levels p) #[] = [] := hbest
      refine Or.inr ⟨rfl, fun xs hxs => ?_⟩
      have hmem := (feasible_iff.1 hxs).2
      rw [hnone] at hmem
      cases hmem
    | some best =>
      rw [hrun] at hbest
      obtain ⟨hxs, hw, hall⟩ := hbest
      rw [hw] at hall
      exact Or.inl ⟨rfl, feasible_iff.2 ⟨h, hxs⟩, fun ys hys => hall ys (feasible_iff.1 hys).2⟩
  · rw [if_neg (mt hfirst.1 h)]
    exact Or.inr ⟨rfl, fun xs hxs => h (feasible_iff.1 hxs).1⟩

end Search

theorem Solver.handles_exhaustive {m : LinearModel} (hm : m.IsWellFormed) (workers : Option Int) :
    exhaustive.Handles m workers where
  takes f hf := by
    rcases exhaustive.gives_translate hm with h | ⟨call, g, hrefused, -⟩
    · cases hf.symm.trans h
    · cases hrefused
  decides p _ := Search.decides_verdict p

end BalancedTeams
