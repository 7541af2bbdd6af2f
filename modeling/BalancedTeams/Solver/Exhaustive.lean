import BalancedTeams.Solver.Program

/-!
# Search through all assignments

* `Search.Level` : a variable's bounds and the constraints that can be decided once it has a value;
* `Search.explore` : tries every value of every variable, in order, and keeps the best assignment;
* `Solver.exhaustive` : the solver that does so.
-/

namespace BalancedTeams
namespace Search

structure Level where
  low : Int
  high : Int
  /-- The constraints whose last variable this is. -/
  checks : List IndexConstraint

/-- One more than the greatest variable of a constraint, 0 if there is none. It is never more than
the number of variables, so that a constraint on a variable without bounds comes last. -/
def lastVariable (p : Program) (c : IndexConstraint) : Nat :=
  min p.bounds.length (c.terms.foldl (fun n t => max n (t.2 + 1)) 0)

def levels (p : Program) : List Level :=
  p.bounds.zipIdx.map fun b =>
    { low := b.1.1, high := b.1.2,
      checks := p.constraints.filter fun c => lastVariable p c == b.2 + 1 }

abbrev Best := Option (Int × Array Int)

/-- Keeps the better of two assignments, the first one found if they are equal. -/
def improve (p : Program) (best : Best) (xs : Array Int) : Best :=
  let worth := p.objective.value xs
  match best with
  | none => some (worth, xs)
  | some (w, _) => if (if p.maximize then w < worth else worth < w) then some (worth, xs) else best

def range (low high : Int) : List Int :=
  (List.range (high - low + 1).toNat).map fun i => low + Int.ofNat i

/-- Tries the values of the remaining variables, those of the first ones being `xs`. -/
def explore (p : Program) : List Level → Array Int → Best → Best
  | [], xs, best => improve p best xs
  | l :: rest, xs, best =>
    (range l.low l.high).foldl (fun best v =>
      let xs := xs.push v
      if l.checks.all (IndexConstraint.holds xs) then explore p rest xs best else best) best

/-- Tries all assignments. Constraints without variables are decided first. -/
def verdict (p : Program) : Verdict :=
  if (p.constraints.filter fun c => lastVariable p c == 0).all (IndexConstraint.holds #[]) then
    match explore p (levels p) #[] none with
    | some (_, xs) => { status := .optimal, values := xs }
    | none => { status := .infeasible }
  else { status := .infeasible }

end Search

/-- A solver that refuses nothing and searches to the end. -/
def Solver.exhaustive : Solver where
  take _ := .ok ()
  run p _ _ := Search.verdict p

end BalancedTeams
