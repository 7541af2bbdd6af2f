import BalancedTeams.Solver.Session

/-!
# Backends that follow a script

* `Script` : the number of runs so far and what they were asked;
* `Backend.scripted` : answers its runs with the outcomes of a list, over and over;
* `Backend.abstract` : answers nothing.
-/

namespace BalancedTeams

variable {τ : Type}

/-- What a scripted backend remembers of a run. -/
structure RunRecord (τ : Type) where
  limit : Option Value
  token : Option τ
  deriving DecidableEq, Repr, Inhabited

structure Script (τ : Type) where
  log : List (RunRecord τ) := []
  deriving Repr, Inhabited

/-- Run `n`, counted from 0, ends in outcome `n mod length`. There is nothing it could cancel. -/
def Backend.scripted (outcomes : List Outcome) : Backend (Script τ) τ where
  solve _ limit token := do
    let s ← get
    set (Script.mk (s.log ++ [⟨limit, token⟩]))
    match outcomes[s.log.length % outcomes.length]? with
    | some outcome => return outcome
    | none => throw .unsupported
  cancel := throw .unsupported

/-- A backend that cannot do anything. -/
def Backend.abstract : Backend (Script τ) τ where
  solve _ _ _ := throw .unsupported
  cancel := throw .unsupported

end BalancedTeams
