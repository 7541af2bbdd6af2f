import BalancedTeams.Solver.Exhaustive

/-!
# A solver with integers of 64 bits

* `Word` : these integers, and what is refused where there is no room;
* `IndexTerms.collect` : the coefficients of one variable, added up;
* `FloatWeight` : weights of an objective that are floats;
* `Program.isValid` : whether the program's bounds and sums can be computed with;
* `Solver.standard` : a solver with these limits, which otherwise searches through all assignments.
-/

namespace BalancedTeams

namespace Word

def greatest : Int := 9223372036854775807

def least : Int := -9223372036854775808

def fits (n : Int) : Bool := decide (least ≤ n ∧ n ≤ greatest)

/-- The integer of 64 bits that differs from the sum by a multiple of `2 ^ 64`. -/
def plus (a b : Int) : Int := (a + b).bmod (Nat.pow 2 64)

def require (ns : List Int) : Except ProgramFault Unit :=
  if ns.all fits then .ok () else .error .tooWide

/-- The right-hand side of a comparison. There is none for an inequality that only the end of the
range meets, nor for an equation with an end of the range. -/
def requireSide (op : Comparison) (rhs : Int) : Except ProgramFault Unit :=
  if !fits rhs then .error .tooWide
  else match op with
    | .le => if rhs = least then .error .unboundedSide else .ok ()
    | .ge => if rhs = greatest then .error .unboundedSide else .ok ()
    | .eq => if rhs = least ∨ rhs = greatest then .error .extremeValue else .ok ()

end Word

namespace IndexTerms

/-- The terms with another one. The coefficients of one variable are added up. -/
def add (plus : Int → Int → Int) (t : Int × Nat) : IndexTerms → IndexTerms
  | [] => [t]
  | s :: rest => if s.2 = t.2 then (plus s.1 t.1, s.2) :: rest else s :: add plus t rest

/-- One term for each variable, in the order in which the variables first occur. -/
def collect (plus : Int → Int → Int) (ts : IndexTerms) : IndexTerms :=
  ts.foldl (fun done t => add plus t done) []

end IndexTerms

namespace FloatWeight

def greatest : Int := 100000000000000000000

/-- The integer that an integer is rounded to; one that is too large for floats is left as it is. -/
def round (n : Int) : Int := ((Binary64.ofInt? n).bind Binary64.trunc?).getD n

def plus (a b : Int) : Int := round (a + b)

def fits (n : Int) : Bool := decide (-greatest ≤ n ∧ n ≤ greatest)

end FloatWeight

/-! ## Programs that can be computed with -/

namespace Program

/-- The weights are floats if one of them has more than 64 bits. -/
def inFloats (p : Program) : Bool := p.objective.any fun t => !Word.fits t.1

/-- The program with one term for each variable of a sum. -/
def collected (p : Program) : Program where
  bounds := p.bounds
  constraints := p.constraints.map fun c => { c with terms := c.terms.collect Word.plus }
  objective :=
    if p.inFloats then
      let rounded : IndexTerms := p.objective.map fun t => (FloatWeight.round t.1, t.2)
      rounded.collect FloatWeight.plus
    else p.objective.collect Word.plus
  maximize := p.maximize

/-- The greatest value of a variable and the greatest sum, on either side of zero. -/
def maxSum : Int := 4611686018427387903

def isRange (b : Int × Int) : Bool := decide (b.1 ≤ b.2 ∧ -maxSum ≤ b.1 ∧ b.2 ≤ maxSum)

/-- The values of a term at the bounds of its variable. -/
def termEnds (p : Program) (t : Int × Nat) : Int × Int :=
  match p.bounds[t.2]? with
  | some b => (t.1 * b.1, t.1 * b.2)
  | none => (0, 0)

/-- Whether every sum of some of the terms stays in the range of sums. The least coefficient is
never used. -/
def isSummable (p : Program) (ts : IndexTerms) : Bool :=
  let ends := ts.map p.termEnds
  let low := ends.foldl (fun n e => n + min 0 (min e.1 e.2)) 0
  let high := ends.foldl (fun n e => n + max 0 (max e.1 e.2)) 0
  ts.all (fun t => t.1 != Word.least) && decide (-maxSum ≤ low ∧ high ≤ maxSum)

def isValid (p : Program) : Bool :=
  let q := p.collected
  q.bounds.all isRange && q.constraints.all (fun c => q.isSummable c.terms) &&
    if p.inFloats then q.objective.all fun t => FloatWeight.fits t.1 else q.isSummable q.objective

end Program

/-! ## The solver -/

namespace SolverCall

def requireName (name : Text) : Except ProgramFault Unit :=
  if name.chars?.isSome then .ok () else .error .unusableName

/-- A coefficient of more than 64 bits is rounded, as long as it is in the range of floats. -/
def requireFloat (n : Int) : Except ProgramFault Unit :=
  if Word.fits n || (Binary64.ofInt? n).isSome then .ok () else .error .tooWide

/-- What there is room for. To maximize is to minimize with the signs turned round, which the least
integer has no room for. -/
def require : SolverCall → Except ProgramFault Unit
  | .declare x => do
    requireName x.name
    Word.require [x.low, x.high]
  | .extend _ t => requireFloat t.1
  | .compare c => do
    Word.requireSide c.comparison c.rhs
    Word.require (c.terms.map Prod.fst)
  | .constant _ => .ok ()
  | .label name => requireName name
  | .objective maximize ts =>
    if maximize && ts.all (fun t => Word.fits t.1) then
      Word.require ((ts.collect Word.plus).map fun t => -t.1)
    else .ok ()
  | .limit _ => .ok ()
  | .workers n => if n < -2147483648 ∨ 2147483647 < n then .error .tooWide else .ok ()

end SolverCall

namespace Solver

def maxWorkers : Int := 10000

/-- A run is invalid for a negative or undefined time limit, a number of workers out of range, or a
program that cannot be computed with; then it ends at once if its time is none. -/
def standard : Solver where
  take := SolverCall.require
  run p limit workers :=
    let workers := workers.getD 0
    let bad := limit.any fun x => x.isNaN || x.isNegative
    if bad || workers < 0 || maxWorkers < workers || !p.isValid then { status := .invalid }
    else if limit.any Binary64.isZero then { status := .unknown }
    else Search.verdict p.collected

end Solver
end BalancedTeams
