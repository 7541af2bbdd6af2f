import BalancedTeams.Formula.Basic
import Std.Data.HashMap

/-!
# Evaluation with a cache

* `Evaluation.run` : works off a stack of nodes, each visited before and after its children, and
  keeps one value per label;
* `Labelled.evaluate` : the value of a formula on a roster. Two nodes with one label share the
  value of the first; a person that is visited has to have an id with a key.
-/

namespace BalancedTeams
namespace Evaluation

open Labelled (Pending stackCost)

/-- Works off the stack, the top first; none if an id without a key is looked up, or a value is
missing where it is read. -/
def run (members : Key → Bool) (values : Std.HashMap String Bool) (stack : List Pending) :
    Option (Std.HashMap String Bool) :=
  match stack with
  | [] => some values
  | (node, done) :: rest =>
    if values.contains node.label then run members values rest
    else
      match node, done with
      | .person l id, _ =>
        match id.key? with
        | some k => run members (values.insert l (members k)) rest
        | none => none
      | .always l, _ => run members (values.insert l true) rest
      | .not l f, true => do
        let a ← values[f.label]?
        run members (values.insert l !a) rest
      | .not l f, false => run members values ((f, false) :: (.not l f, true) :: rest)
      | .and l f g, true => do
        let a ← values[f.label]?
        let b ← values[g.label]?
        run members (values.insert l (a && b)) rest
      | .and l f g, false =>
        run members values ((f, false) :: (g, false) :: (.and l f g, true) :: rest)
      | .or l f g, true => do
        let a ← values[f.label]?
        let b ← values[g.label]?
        run members (values.insert l (a || b)) rest
      | .or l f g, false =>
        run members values ((f, false) :: (g, false) :: (.or l f g, true) :: rest)
termination_by stackCost stack
decreasing_by
  all_goals first
    | exact Labelled.stackCost_lt_cons _ _
    | exact Labelled.stackCost_children_lt (.not _ _) _
    | exact Labelled.stackCost_children_lt (.and _ _ _) _
    | exact Labelled.stackCost_children_lt (.or _ _ _) _

end Evaluation

def Labelled.evaluate (members : Key → Bool) (node : Labelled) : Option Bool := do
  let values ← Evaluation.run members ∅ [(node, false)]
  values[node.label]?

end BalancedTeams
