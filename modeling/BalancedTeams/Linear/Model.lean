import BalancedTeams.Scalar

/-!
# Linear models over named integer variables

* `Variable`, `LinearConstraint`, `Objective` : the parts of a model;
* `Comparison` : the three operators of constraints and their texts;
* `LinearModel` : variables, constraints and an objective;
* `LinearModel.Feasible`, `LinearModel.value` : what an assignment of values has to meet, and what
  it is worth.
-/

namespace BalancedTeams

structure Variable where
  name : Text
  low : Int := 0
  high : Int := 1
  deriving DecidableEq, Repr, Inhabited

inductive Comparison where
  | le
  | ge
  | eq
  deriving DecidableEq, Repr, Inhabited

namespace Comparison

def text : Comparison → Text
  | .le => "<="
  | .ge => ">="
  | .eq => "=="

def ofText? (t : Text) : Option Comparison :=
  if t = "<=" then some .le else if t = ">=" then some .ge else if t = "==" then some .eq else none

theorem ofText?_text (c : Comparison) : ofText? c.text = some c := by cases c <;> rfl

def holds : Comparison → Int → Int → Bool
  | .le, a, b => decide (a ≤ b)
  | .ge, a, b => decide (b ≤ a)
  | .eq, a, b => decide (a = b)

end Comparison

/-- A weighted sum of variables; a variable may occur more than once. -/
abbrev Terms := List (Int × Text)

namespace Terms

def value (v : Text → Int) (terms : Terms) : Int :=
  terms.foldr (fun t total => t.1 * v t.2 + total) 0

end Terms

structure LinearConstraint where
  terms : Terms
  /-- The text of a comparison. -/
  operator : Text
  rhs : Int
  name : Text := ""
  deriving DecidableEq, Repr, Inhabited

namespace LinearConstraint

/-- An operator that is no comparison holds of nothing. -/
def holds (v : Text → Int) (c : LinearConstraint) : Bool :=
  match Comparison.ofText? c.operator with
  | some op => op.holds (Terms.value v c.terms) c.rhs
  | none => false

end LinearConstraint

structure Objective where
  terms : Terms
  /-- `maximize`; any other text minimizes. -/
  sense : Text := "maximize"
  deriving DecidableEq, Repr, Inhabited

def Objective.isMaximize (o : Objective) : Bool := o.sense == "maximize"

structure LinearModel where
  vars : List Variable
  constraints : List LinearConstraint
  objective : Objective
  deriving DecidableEq, Repr, Inhabited

namespace LinearModel

/-- Every variable is within its bounds and every constraint holds. -/
def Feasible (m : LinearModel) (v : Text → Int) : Prop :=
  (∀ x ∈ m.vars, x.low ≤ v x.name ∧ v x.name ≤ x.high) ∧
    ∀ c ∈ m.constraints, c.holds v = true

def value (m : LinearModel) (v : Text → Int) : Int := Terms.value v m.objective.terms

end LinearModel
end BalancedTeams
