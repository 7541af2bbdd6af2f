import BalancedTeams.Formula.Basic
import BalancedTeams.Linear.Builder
import Std.Data.HashMap

/-!
# From formulas to binary variables

* `Memberships` : the variable that says whether a person is in a team;
* `Compiler` : a builder, the memberships, and the variables of the formulas compiled so far, by
  label and team;
* `Compiler.compiled?` : the variable of a formula, if it has one. A person has a membership, `always`
  the variable pinned to 1, and every other formula one indicator per team, defined once by
  inequalities (`Compiler.emit`) and used again for each later occurrence;
* `Compiler.compile` : the variable that equals a formula on a team, after a walk over the nodes that
  have none yet (`Compiler.walk`).

A compilation that fails keeps what it recorded before it failed.
-/

namespace BalancedTeams

/-- Membership variables by person and team, in the order they were first given. -/
structure Memberships where
  order : Array (Value × Int)
  table : Std.HashMap (Key × Int) Text

namespace Memberships

def empty : Memberships := ⟨#[], ∅⟩

instance : Inhabited Memberships := ⟨empty⟩

def find? (m : Memberships) (person : Key) (slot : Int) : Option Text :=
  m.table[(person, slot)]?

def insert (m : Memberships) (person : Value) (k : Key) (slot : Int) (x : Text) :
    Memberships where
  order := if m.table.contains (k, slot) then m.order else m.order.push (person, slot)
  table := m.table.insert (k, slot) x

def size (m : Memberships) : Nat := m.order.size

def toList (m : Memberships) : List (Value × Int × Text) :=
  m.order.toList.map fun e => (e.1, e.2, ((e.1.key?.bind fun k => m.find? k e.2).getD ""))

end Memberships

structure Compiler where
  builder : Builder
  memberships : Memberships
  memo : Std.HashMap (String × Int) Text
  deriving Inhabited

/-- A computation that changes a compiler, also when it fails. -/
abbrev CompileM := ExceptT Fault (StateM Compiler)

namespace Compiler
open Labelled

def empty : Compiler := ⟨∅, .empty, ∅⟩

/-- The variable that is always 1. -/
def trueName : Text := "const_true"

/-- The indicator of a formula on a team. A slot is the index of a team, so it is never too long to be
written. -/
def indicatorName (label : String) (slot : Int) : Text := "n_" ++ label ++ "_" ++ toString slot

/-- Changes the builder; a failing change leaves it as it is. -/
def onBuilder (f : Builder → Except Fault Builder) : CompileM Unit := do
  let c ← get
  match f c.builder with
  | .ok b => set { c with builder := b }
  | .error e => throw e

def declare (name : Text) : CompileM Unit :=
  onBuilder fun b => (b.declare name).mapError .model

def require (terms : Terms) (op : Comparison) (rhs : Int) (name : Text) : CompileM Unit :=
  onBuilder fun b => (b.require terms op rhs name).mapError .model

/-- The variable pinned to 1, declared when it is first needed. -/
def trueVar : CompileM Text := do
  let c ← get
  if c.builder.declares trueName then return trueName
  declare trueName
  require [(1, trueName)] .eq 1 "pin_const_true"
  return trueName

/-- The membership variable of a person in a team. A report of a missing one can show the slot, since that
is the index of a team. -/
def memberVar (slot : Int) (id : Value) : CompileM Text := do
  let k ← liftM id.key
  match (← get).memberships.find? k slot with
  | some x => return x
  | none =>
    let shown ← liftM id.text
    throw (.model (.noMembership shown (toString slot)))

def remember (label : String) (slot : Int) (p : Text) : CompileM Unit :=
  modify fun c => { c with memo := c.memo.insert (label, slot) p }

/-- `p` is `1 - a`. -/
def defineNot (p a : Text) : CompileM Unit :=
  require [(1, p), (1, a)] .eq 1 ""

/-- `p` is the lesser of `a` and `b`. -/
def defineAnd (p a b : Text) : CompileM Unit := do
  require [(1, p), (-1, a)] .le 0 ""
  require [(1, p), (-1, b)] .le 0 ""
  require [(1, p), (-1, a), (-1, b)] .ge (-1) ""

/-- `p` is the greater of `a` and `b`. -/
def defineOr (p a b : Text) : CompileM Unit := do
  require [(1, p), (-1, a)] .ge 0 ""
  require [(1, p), (-1, b)] .ge 0 ""
  require [(1, p), (-1, a), (-1, b)] .le 0 ""

/-- A new indicator for a formula, defined by `definition`. -/
def indicator (label : String) (slot : Int) (definition : Text → CompileM Unit) :
    CompileM Text := do
  let p := indicatorName label slot
  declare p
  definition p
  remember label slot p
  return p

def compiled? (slot : Int) : Labelled → CompileM (Option Text)
  | .person _ id => do
    let x ← memberVar slot id
    return some x
  | .always _ => do
    let x ← trueVar
    return some x
  | .not l _ | .and l _ _ | .or l _ _ => do
    let c ← get
    return c.memo[(l, slot)]?

def operand (slot : Int) (node : Labelled) : CompileM Text := do
  match ← compiled? slot node with
  | some x => return x
  -- never in a walk, which comes to the operands of a formula first
  | none => throw (.model (.undeclaredVariable "None"))

/-- Defines the indicator of a formula whose operands have been compiled. -/
def emit (slot : Int) : Labelled → CompileM Text
  | .person l id => operand slot (.person l id)
  | .always l => operand slot (.always l)
  | .not l f => do
    let a ← operand slot f
    indicator l slot fun p => defineNot p a
  | .and l f g => do
    let a ← operand slot f
    let b ← operand slot g
    indicator l slot fun p => defineAnd p a b
  | .or l f g => do
    let a ← operand slot f
    let b ← operand slot g
    indicator l slot fun p => defineOr p a b

/-- Works off the stack, the top first; a node without a variable comes again after its children, the
left one before the right one. -/
def walk (slot : Int) (stack : List Pending) : CompileM Unit :=
  match stack with
  | [] => return ()
  | (node, true) :: rest => do
    let _ ← emit slot node
    walk slot rest
  | (node, false) :: rest => do
    match ← compiled? slot node with
    | some _ => walk slot rest
    | none => walk slot (node.children.map (·, false) ++ (node, true) :: rest)
termination_by stackCost stack
decreasing_by
  · exact stackCost_lt_cons _ _
  · exact stackCost_lt_cons _ _
  · exact stackCost_children_lt _ _

/-- The variable that equals the formula on team `slot`. -/
def compile (slot : Int) (node : Labelled) : CompileM Text := do
  match ← compiled? slot node with
  | some x => return x
  | none =>
    walk slot [(node, false)]
    operand slot node

def register (person : Value) (slot : Int) (x : Text) : CompileM Unit := do
  let k ← liftM person.key
  modify fun c => { c with memberships := c.memberships.insert person k slot x }

end Compiler
end BalancedTeams
