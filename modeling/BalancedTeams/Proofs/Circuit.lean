import BalancedTeams.Linear.Model
import Mathlib.Logic.Function.Basic

/-!
# Circuits of binary variables

* `Gate` : what a variable is defined to be, with the constraints that define it; over zeros and ones
  they hold exactly if the variable has the gate's value (`Gate.holds_constraints_iff`);
* `Circuit` : definitions in a row; `Circuit.WellFormed` : each defines a new variable by known ones;
* `Circuit.solve` : the values that the definitions give to their variables;
* `Circuit.holds_constraints_iff` : a binary assignment meets the constraints of a circuit exactly if
  it is `solve` of its own values of the known variables.
-/

namespace BalancedTeams

/-- Zero or one. -/
def IsBit (n : Int) : Prop := n = 0 ∨ n = 1

theorem isBit_iff {n : Int} : IsBit n ↔ 0 ≤ n ∧ n ≤ 1 := by
  unfold IsBit
  omega

theorem IsBit.eq_of_beq {a b : Int} (ha : IsBit a) (hb : IsBit b) (h : (a == 1) = (b == 1)) :
    a = b := by
  rw [Bool.eq_iff_iff, beq_iff_eq, beq_iff_eq] at h
  unfold IsBit at ha hb
  omega

/-! ## Constraints -/

theorem Terms.value_cons (v : Text → Int) (t : Int × Text) (ts : Terms) :
    Terms.value v (t :: ts) = t.1 * v t.2 + Terms.value v ts := rfl

theorem Terms.value_nil (v : Text → Int) : Terms.value v [] = 0 := rfl

section
variable {v : Text → Int} {ts : Terms} {rhs : Int} {name : Text}

theorem holds_le_iff :
    LinearConstraint.holds v ⟨ts, Comparison.le.text, rhs, name⟩ = true ↔ ts.value v ≤ rhs := by
  simp [LinearConstraint.holds, Comparison.ofText?_text, Comparison.holds]

theorem holds_ge_iff :
    LinearConstraint.holds v ⟨ts, Comparison.ge.text, rhs, name⟩ = true ↔ rhs ≤ ts.value v := by
  simp [LinearConstraint.holds, Comparison.ofText?_text, Comparison.holds]

theorem holds_eq_iff :
    LinearConstraint.holds v ⟨ts, Comparison.eq.text, rhs, name⟩ = true ↔ ts.value v = rhs := by
  simp [LinearConstraint.holds, Comparison.ofText?_text, Comparison.holds]

end

/-! ## Gates -/

/-- The definition of a variable by other variables. -/
inductive Gate where
  | always
  | not (a : Text)
  | and (a b : Text)
  | or (a b : Text)

namespace Gate

def inputs : Gate → List Text
  | always => []
  | not a => [a]
  | and a b => [a, b]
  | or a b => [a, b]

def value (v : Text → Int) : Gate → Int
  | always => 1
  | not a => 1 - v a
  | and a b => min (v a) (v b)
  | or a b => max (v a) (v b)

def constraints (p : Text) : Gate → List LinearConstraint
  | always => [⟨[(1, p)], Comparison.eq.text, 1, "pin_const_true"⟩]
  | not a => [⟨[(1, p), (1, a)], Comparison.eq.text, 1, ""⟩]
  | and a b =>
    [⟨[(1, p), (-1, a)], Comparison.le.text, 0, ""⟩,
      ⟨[(1, p), (-1, b)], Comparison.le.text, 0, ""⟩,
      ⟨[(1, p), (-1, a), (-1, b)], Comparison.ge.text, -1, ""⟩]
  | or a b =>
    [⟨[(1, p), (-1, a)], Comparison.ge.text, 0, ""⟩,
      ⟨[(1, p), (-1, b)], Comparison.ge.text, 0, ""⟩,
      ⟨[(1, p), (-1, a), (-1, b)], Comparison.le.text, 0, ""⟩]

theorem isBit_value {v : Text → Int} {g : Gate} (h : ∀ a ∈ g.inputs, IsBit (v a)) :
    IsBit (g.value v) := by
  unfold IsBit at h ⊢
  cases g with
  | always => exact Or.inr rfl
  | not a =>
    have ha := h a List.mem_cons_self
    simp only [value]
    omega
  | and a b =>
    have ha := h a List.mem_cons_self
    have hb := h b (List.mem_cons_of_mem _ List.mem_cons_self)
    simp only [value]
    omega
  | or a b =>
    have ha := h a List.mem_cons_self
    have hb := h b (List.mem_cons_of_mem _ List.mem_cons_self)
    simp only [value]
    omega

theorem value_congr {v w : Text → Int} {g : Gate} (h : ∀ a ∈ g.inputs, v a = w a) :
    g.value v = g.value w := by
  cases g with
  | always => rfl
  | not a => simp only [value, h a List.mem_cons_self]
  | and a b =>
    simp only [value, h a List.mem_cons_self, h b (List.mem_cons_of_mem _ List.mem_cons_self)]
  | or a b =>
    simp only [value, h a List.mem_cons_self, h b (List.mem_cons_of_mem _ List.mem_cons_self)]

/-- Over zeros and ones the constraints say that `p` has the value of the gate. -/
theorem holds_constraints_iff {v : Text → Int} {p : Text} {g : Gate} (hp : IsBit (v p))
    (hg : ∀ a ∈ g.inputs, IsBit (v a)) :
    (∀ c ∈ g.constraints p, c.holds v = true) ↔ v p = g.value v := by
  unfold IsBit at hp hg
  cases g with
  | always =>
    simp only [constraints, List.mem_singleton, forall_eq, holds_eq_iff, Terms.value_cons,
      Terms.value_nil, value]
    omega
  | not a =>
    simp only [constraints, List.mem_singleton, forall_eq, holds_eq_iff, Terms.value_cons,
      Terms.value_nil, value]
    omega
  | and a b =>
    have ha := hg a List.mem_cons_self
    have hb := hg b (List.mem_cons_of_mem _ List.mem_cons_self)
    simp only [constraints, List.forall_mem_cons, List.not_mem_nil, holds_le_iff, holds_ge_iff,
      Terms.value_cons, Terms.value_nil, value, false_implies, implies_true, and_true]
    omega
  | or a b =>
    have ha := hg a List.mem_cons_self
    have hb := hg b (List.mem_cons_of_mem _ List.mem_cons_self)
    simp only [constraints, List.forall_mem_cons, List.not_mem_nil, holds_le_iff, holds_ge_iff,
      Terms.value_cons, Terms.value_nil, value, false_implies, implies_true, and_true]
    omega

end Gate

/-! ## Circuits -/

/-- Variables with their definitions, in order. -/
abbrev Circuit := List (Text × Gate)

namespace Circuit

def names (ds : Circuit) : List Text := ds.map Prod.fst

def constraints (ds : Circuit) : List LinearConstraint := ds.flatMap fun d => d.2.constraints d.1

/-- Every definition is of a new variable and by known ones. -/
def WellFormed (known : Text → Prop) : Circuit → Prop
  | [] => True
  | (p, g) :: ds =>
    ¬ known p ∧ (∀ a ∈ g.inputs, known a) ∧ WellFormed (fun x => known x ∨ x = p) ds

theorem wellFormed_append {known : Text → Prop} {ds es : Circuit} :
    WellFormed known (ds ++ es) ↔
      WellFormed known ds ∧ WellFormed (fun x => known x ∨ x ∈ ds.names) es := by
  induction ds generalizing known with
  | nil => simp [WellFormed, names]
  | cons d ds ih =>
    obtain ⟨p, g⟩ := d
    simp only [List.cons_append, WellFormed, ih, names, List.map_cons, List.mem_cons, or_assoc,
      and_assoc]

/-- The assignment that gives each variable of the circuit the value of its gate. -/
def solve (v : Text → Int) : Circuit → Text → Int
  | [] => v
  | (p, g) :: ds => solve (Function.update v p (g.value v)) ds

section
variable {known : Text → Prop} {ds : Circuit}

theorem solve_of_known (h : WellFormed known ds) (v : Text → Int) {x : Text} (hx : known x) :
    solve v ds x = v x := by
  induction ds generalizing known v with
  | nil => rfl
  | cons d ds ih =>
    obtain ⟨p, g⟩ := d
    obtain ⟨hnew, -, hrest⟩ := h
    have hne : x ≠ p := fun e => hnew (e ▸ hx)
    rw [solve, ih hrest _ (Or.inl hx), Function.update_of_ne hne]

theorem isBit_solve (h : WellFormed known ds) {v : Text → Int} (hv : ∀ x, known x → IsBit (v x))
    {x : Text} (hx : known x ∨ x ∈ ds.names) : IsBit (solve v ds x) := by
  induction ds generalizing known v with
  | nil => exact hv x (hx.resolve_right List.not_mem_nil)
  | cons d ds ih =>
    obtain ⟨p, g⟩ := d
    obtain ⟨-, hin, hrest⟩ := h
    refine ih hrest ?_ ?_
    · intro y hy
      by_cases hyp : y = p
      · rw [hyp, Function.update_self]
        exact Gate.isBit_value fun a ha => hv a (hin a ha)
      · rw [Function.update_of_ne hyp]
        exact hv y (hy.resolve_right hyp)
    · simpa [names, or_assoc] using hx

/-- **A binary assignment meets the constraints of a circuit exactly if it solves the circuit.** By
induction on the definitions; after each the variable it defines is known. -/
theorem holds_constraints_iff (h : WellFormed known ds) {v w : Text → Int}
    (hw : ∀ x, known x ∨ x ∈ ds.names → IsBit (w x)) (hvw : ∀ x, known x → w x = v x) :
    (∀ c ∈ ds.constraints, c.holds w = true) ↔
      ∀ x, known x ∨ x ∈ ds.names → w x = solve v ds x := by
  induction ds generalizing known v with
  | nil =>
    refine ⟨fun _ x hx => hvw x (hx.resolve_right List.not_mem_nil), fun _ c hc => ?_⟩
    cases hc
  | cons d ds ih =>
    obtain ⟨p, g⟩ := d
    obtain ⟨hnew, hin, hrest⟩ := h
    have hmem : ∀ x, (known x ∨ x ∈ names ((p, g) :: ds)) ↔ ((known x ∨ x = p) ∨ x ∈ names ds) := by
      intro x
      simp [names, or_assoc]
    have hpbit : IsBit (w p) := hw p ((hmem p).2 (Or.inl (Or.inr rfl)))
    have hinbit : ∀ a ∈ g.inputs, IsBit (w a) := fun a ha => hw a (Or.inl (hin a ha))
    have hvalue : g.value w = g.value v := Gate.value_congr fun a ha => hvw a (hin a ha)
    have hbits : ∀ x, (known x ∨ x = p) ∨ x ∈ names ds → IsBit (w x) :=
      fun x hx => hw x ((hmem x).2 hx)
    -- once `p` has its value, `w` agrees with the updated assignment on all that is known
    have hagree : w p = g.value v →
        ∀ x, known x ∨ x = p → w x = Function.update v p (g.value v) x := by
      intro hp x hx
      by_cases hxp : x = p
      · rw [hxp, Function.update_self, hp]
      · rw [Function.update_of_ne hxp, hvw x (hx.resolve_right hxp)]
    have hfirst : (∀ c ∈ g.constraints p, c.holds w = true) ↔ w p = g.value v := by
      rw [Gate.holds_constraints_iff hpbit hinbit, hvalue]
    have hsplit : (∀ c ∈ constraints ((p, g) :: ds), c.holds w = true) ↔
        (∀ c ∈ g.constraints p, c.holds w = true) ∧ ∀ c ∈ constraints ds, c.holds w = true := by
      simp only [constraints, List.flatMap_cons, List.forall_mem_append]
    rw [hsplit, hfirst]
    constructor
    · rintro ⟨hp, hcs⟩ x hx
      exact (ih hrest hbits (hagree hp)).1 hcs x ((hmem x).1 hx)
    · intro hall
      have hp : w p = g.value v := by
        rw [hall p ((hmem p).2 (Or.inl (Or.inr rfl))), solve,
          solve_of_known hrest _ (Or.inr rfl), Function.update_self]
      exact ⟨hp, (ih hrest hbits (hagree hp)).2 fun x hx => hall x ((hmem x).2 hx)⟩

theorem inputs_of_mem (h : WellFormed known ds) {p : Text} {g : Gate} (hmem : (p, g) ∈ ds) :
    ∀ a ∈ g.inputs, known a ∨ a ∈ ds.names := by
  induction ds generalizing known with
  | nil => cases hmem
  | cons d ds ih =>
    obtain ⟨q, g'⟩ := d
    intro a ha
    rcases List.mem_cons.1 hmem with heq | hmem
    · cases heq
      exact Or.inl (h.2.1 a ha)
    · have := ih h.2.2 hmem a ha
      simpa [names, or_assoc] using this

theorem value_of_mem (h : WellFormed known ds) {v : Text → Int}
    (hv : ∀ x, known x ∨ x ∈ ds.names → IsBit (v x)) (hcs : ∀ c ∈ ds.constraints, c.holds v = true)
    {p : Text} {g : Gate} (hmem : (p, g) ∈ ds) : v p = g.value v := by
  have hp : p ∈ ds.names := List.mem_map.2 ⟨_, hmem, rfl⟩
  refine (Gate.holds_constraints_iff (hv p (Or.inr hp)) fun a ha =>
    hv a (inputs_of_mem h hmem a ha)).1 fun c hc => hcs c ?_
  exact List.mem_flatMap.2 ⟨_, hmem, hc⟩

/-- A binary assignment of the known variables extends to the variables of a circuit in exactly one
way that meets its constraints. -/
theorem exists_unique_extension (h : WellFormed known ds) {v : Text → Int}
    (hv : ∀ x, known x → IsBit (v x)) :
    ∃ w : Text → Int, ((∀ x, known x → w x = v x) ∧ (∀ x, known x ∨ x ∈ ds.names → IsBit (w x)) ∧
        ∀ c ∈ ds.constraints, c.holds w = true) ∧
      ∀ u : Text → Int, (∀ x, known x → u x = v x) → (∀ x, known x ∨ x ∈ ds.names → IsBit (u x)) →
        (∀ c ∈ ds.constraints, c.holds u = true) → ∀ x, known x ∨ x ∈ ds.names → u x = w x := by
  have hbits : ∀ x, known x ∨ x ∈ ds.names → IsBit (solve v ds x) := fun x hx => isBit_solve h hv hx
  have hsolve : ∀ x, known x → solve v ds x = v x := fun x hx => solve_of_known h v hx
  refine ⟨solve v ds, ⟨hsolve, hbits, (holds_constraints_iff h hbits hsolve).2 fun _ _ => rfl⟩, ?_⟩
  intro u hu hubits hcs
  exact (holds_constraints_iff h hubits hu).1 hcs

end
end Circuit
end BalancedTeams
